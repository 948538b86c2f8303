import Mathlib.Algebra.GroupWithZero.Nat
import Mathlib.Data.List.Basic
import Mathlib.Data.List.Flatten

/-!
# Text with a cursor

Two views of a text that is being edited, over any type of characters with one of them, `nl`,
as the line separator:

* `Flat` — one sequence of characters, and the cursor as an offset into it;
* `Zipper` — lines, with the cursor between the characters `left` and `right` of one of them.

Each editing operation exists in both views, and `Zipper.flat` takes one to the other. The
point of the zipper is that an operation looks at one end of one of its four parts only; what
it does to the flat text is read off the characters `before` and `after` the cursor.
-/

namespace PokuOS

open List

universe u

variable {α : Type u}

/-! ## The flat view -/

/-- A sequence of characters and an offset into it. -/
@[ext] structure Flat (α : Type u) where
  /-- the characters -/
  text : List α
  /-- the cursor: how many characters are before it -/
  offset : ℕ

namespace Flat

/-- Insert at the offset, and advance by one. -/
def insert (f : Flat α) (c : α) : Flat α :=
  ⟨f.text.take f.offset ++ c :: f.text.drop f.offset, f.offset + 1⟩

/-- Delete the character before the offset; nothing happens at the start. -/
def backspace (f : Flat α) : Flat α :=
  if f.offset = 0 then f else ⟨f.text.eraseIdx (f.offset - 1), f.offset - 1⟩

/-- Delete the character at the offset; nothing happens at the end. -/
def delete (f : Flat α) : Flat α :=
  if f.offset < f.text.length then ⟨f.text.eraseIdx f.offset, f.offset⟩ else f

/-- One to the left, if there is anything. -/
def moveLeft (f : Flat α) : Flat α := ⟨f.text, f.offset - 1⟩

/-- One to the right, if there is anything. -/
def moveRight (f : Flat α) : Flat α := ⟨f.text, min (f.offset + 1) f.text.length⟩

variable (x y : List α) (c : α)

theorem insert_append : insert ⟨x ++ y, x.length⟩ c = ⟨x ++ [c] ++ y, (x ++ [c]).length⟩ := by
  simp [insert]

theorem backspace_append :
    backspace ⟨x ++ [c] ++ y, (x ++ [c]).length⟩ = ⟨x ++ y, x.length⟩ := by
  simp [backspace, eraseIdx_append]

theorem delete_append : delete ⟨x ++ c :: y, x.length⟩ = ⟨x ++ y, x.length⟩ := by
  simp [delete, eraseIdx_append]

theorem moveLeft_append :
    moveLeft ⟨x ++ [c] ++ y, (x ++ [c]).length⟩ = ⟨x ++ c :: y, x.length⟩ := by
  simp [moveLeft]

theorem moveRight_append :
    moveRight ⟨x ++ c :: y, x.length⟩ = ⟨x ++ [c] ++ y, (x ++ [c]).length⟩ := by
  simp [moveRight]

end Flat

/-! ## The zipper -/

/-- Lines, with the cursor between two characters of one of them. -/
structure Zipper (α : Type u) where
  /-- the lines above the cursor -/
  above : List (List α)
  /-- the characters of its line that are left of it -/
  left : List α
  /-- the characters of its line that are right of it -/
  right : List α
  /-- the lines below -/
  below : List (List α)

namespace Zipper

/-- All lines. -/
def lines (z : Zipper α) : List (List α) := z.above ++ (z.left ++ z.right) :: z.below

section Flat

variable (nl : α)

/-- The characters before the cursor. -/
def before (z : Zipper α) : List α := z.above.flatMap (· ++ [nl]) ++ z.left

/-- The characters after the cursor. -/
def after (z : Zipper α) : List α := z.right ++ z.below.flatMap (nl :: ·)

/-- The flat view. -/
def flat (z : Zipper α) : Flat α := ⟨z.before nl ++ z.after nl, (z.before nl).length⟩

theorem intercalate_cons (l : List α) (ls : List (List α)) :
    [nl].intercalate (l :: ls) = l ++ ls.flatMap (nl :: ·) := by
  induction ls generalizing l with
  | nil => simp [intercalate]
  | cons m ls ih =>
    rw [flatMap_cons, cons_append, ← ih m]
    simp [intercalate]

theorem intercalate_append (ls : List (List α)) (l : List α) (ms : List (List α)) :
    [nl].intercalate (ls ++ l :: ms) = ls.flatMap (· ++ [nl]) ++ [nl].intercalate (l :: ms) := by
  induction ls with
  | nil => rfl
  | cons k ls ih =>
    rw [cons_append, intercalate_cons, flatMap_cons, append_assoc, ← ih]
    cases ls with
    | nil => simp [intercalate_cons]
    | cons m ls => simp [intercalate_cons]

/-- **The flat text is the lines joined by newlines.** -/
theorem flat_text (z : Zipper α) : (z.flat nl).text = [nl].intercalate z.lines := by
  rw [lines, intercalate_append, intercalate_cons]
  simp [flat, before, after]

/-- The flat text depends on the lines only. -/
theorem flat_text_eq {z z' : Zipper α} (h : z'.lines = z.lines) :
    (z'.flat nl).text = (z.flat nl).text := by
  rw [flat_text, flat_text, h]

end Flat

/-! ## Operations -/

/-- Insert a character; a separator splits the line. -/
def insert [DecidableEq α] (nl : α) (z : Zipper α) (c : α) : Zipper α :=
  if c = nl then ⟨z.above ++ [z.left], [], z.right, z.below⟩
  else { z with left := z.left ++ [c] }

/-- Delete what is left of the cursor: a character, or the end of the line above. -/
def backspace (z : Zipper α) : Zipper α :=
  if z.left ≠ [] then { z with left := z.left.dropLast }
  else match z.above.getLast? with
    | some l => ⟨z.above.dropLast, l, z.right, z.below⟩
    | none => z

/-- Delete what is right of the cursor: a character, or the end of the line. -/
def delete (z : Zipper α) : Zipper α :=
  match z.right, z.below with
  | _ :: r, _ => { z with right := r }
  | [], l :: ls => { z with right := l, below := ls }
  | [], [] => z

/-- One to the left. -/
def moveLeft (z : Zipper α) : Zipper α :=
  match z.left.getLast? with
  | some c => { z with left := z.left.dropLast, right := c :: z.right }
  | none => match z.above.getLast? with
    | some l => ⟨z.above.dropLast, l, [], z.right :: z.below⟩
    | none => z

/-- One to the right. -/
def moveRight (z : Zipper α) : Zipper α :=
  match z.right, z.below with
  | c :: r, _ => { z with left := z.left ++ [c], right := r }
  | [], l :: ls => ⟨z.above ++ [z.left], [], l, ls⟩
  | [], [] => z

section Refinement

variable (nl : α) (z : Zipper α)

/-- **Inserting** is inserting into the flat text. -/
theorem flat_insert [DecidableEq α] (c : α) : (z.insert nl c).flat nl = (z.flat nl).insert c := by
  rw [flat, flat, Flat.insert_append]
  by_cases h : c = nl <;> simp [insert, before, after, h]

/-- **Backspace** is backspace in the flat text. -/
theorem flat_backspace : z.backspace.flat nl = (z.flat nl).backspace := by
  obtain ⟨above, left, right, below⟩ := z
  rcases eq_nil_or_concat' left with rfl | ⟨l, c, rfl⟩
  · rcases eq_nil_or_concat' above with rfl | ⟨a, l, rfl⟩
    · simp [backspace, flat, before, Flat.backspace]
    · have := Flat.backspace_append (a.flatMap (· ++ [nl]) ++ l)
        (right ++ below.flatMap (nl :: ·)) nl
      simpa [backspace, flat, before, after] using this.symm
  · have := Flat.backspace_append (above.flatMap (· ++ [nl]) ++ l)
      (right ++ below.flatMap (nl :: ·)) c
    simpa [backspace, flat, before, after] using this.symm

/-- **Deleting** is deleting from the flat text. -/
theorem flat_delete : z.delete.flat nl = (z.flat nl).delete := by
  obtain ⟨above, left, right, below⟩ := z
  cases right with
  | cons c r => exact (Flat.delete_append _ _ c).symm
  | nil =>
    cases below with
    | cons l ls => exact (Flat.delete_append _ _ nl).symm
    | nil => simp [delete, flat, after, Flat.delete]

/-- **Left** is one back in the flat text. -/
theorem flat_moveLeft : z.moveLeft.flat nl = (z.flat nl).moveLeft := by
  obtain ⟨above, left, right, below⟩ := z
  rcases eq_nil_or_concat' left with rfl | ⟨l, c, rfl⟩
  · rcases eq_nil_or_concat' above with rfl | ⟨a, l, rfl⟩
    · simp [moveLeft, flat, before, Flat.moveLeft]
    · have := Flat.moveLeft_append (a.flatMap (· ++ [nl]) ++ l)
        (right ++ below.flatMap (nl :: ·)) nl
      simpa [moveLeft, flat, before, after] using this.symm
  · have := Flat.moveLeft_append (above.flatMap (· ++ [nl]) ++ l)
      (right ++ below.flatMap (nl :: ·)) c
    simpa [moveLeft, flat, before, after] using this.symm

/-- **Right** is one on in the flat text. -/
theorem flat_moveRight : z.moveRight.flat nl = (z.flat nl).moveRight := by
  obtain ⟨above, left, right, below⟩ := z
  cases right with
  | cons c r =>
    have := Flat.moveRight_append (above.flatMap (· ++ [nl]) ++ left)
      (r ++ below.flatMap (nl :: ·)) c
    simpa [moveRight, flat, before, after] using this.symm
  | nil =>
    cases below with
    | cons l ls =>
      have := Flat.moveRight_append (above.flatMap (· ++ [nl]) ++ left)
        (l ++ ls.flatMap (nl :: ·)) nl
      simpa [moveRight, flat, before, after] using this.symm
    | nil => simp [moveRight, flat, after, Flat.moveRight]

theorem moveLeft_lines : z.moveLeft.lines = z.lines := by
  obtain ⟨above, left, right, below⟩ := z
  rcases eq_nil_or_concat' left with rfl | ⟨l, c, rfl⟩
  · rcases eq_nil_or_concat' above with rfl | ⟨a, l, rfl⟩ <;> simp [moveLeft, lines]
  · simp [moveLeft, lines]

theorem moveRight_lines : z.moveRight.lines = z.lines := by
  obtain ⟨above, left, right, below⟩ := z
  cases right with
  | cons c r => simp [moveRight, lines]
  | nil => cases below <;> simp [moveRight, lines]

end Refinement

/-- **Every position** in the lines is the cursor of a zipper. -/
theorem exists_at {ls : List (List α)} {row col : ℕ} {l : List α} (hrow : ls[row]? = some l)
    (hcol : col ≤ l.length) :
    ∃ z : Zipper α, z.lines = ls ∧ z.above.length = row ∧ z.left.length = col := by
  obtain ⟨hlt, rfl⟩ := List.getElem?_eq_some_iff.mp hrow
  refine ⟨⟨ls.take row, ls[row].take col, ls[row].drop col, ls.drop (row + 1)⟩, ?_, ?_, ?_⟩
  · simp [lines]
  · simp [Nat.le_of_lt hlt]
  · simp [hcol]

end Zipper

/-! ## Operations as data -/

/-- What a key does to a text. -/
inductive TextOp (α : Type u) where
  /-- insert a character -/
  | insert (c : α)
  /-- delete the character before the cursor -/
  | backspace
  /-- delete the character at the cursor -/
  | delete
  /-- one to the left -/
  | moveLeft
  /-- one to the right -/
  | moveRight
  /-- the text stays; the cursor may go anywhere -/
  | keep

namespace TextOp

/-- The operation in the flat view. -/
def OnFlat : TextOp α → Flat α → Flat α → Prop
  | .insert c, f, f' => f' = f.insert c
  | .backspace, f, f' => f' = f.backspace
  | .delete, f, f' => f' = f.delete
  | .moveLeft, f, f' => f' = f.moveLeft
  | .moveRight, f, f' => f' = f.moveRight
  | .keep, f, f' => f'.text = f.text

/-- The operation on lines. -/
def OnZipper [DecidableEq α] (nl : α) : TextOp α → Zipper α → Zipper α → Prop
  | .insert c, z, z' => z' = z.insert nl c
  | .backspace, z, z' => z' = z.backspace
  | .delete, z, z' => z' = z.delete
  | .moveLeft, z, z' => z' = z.moveLeft
  | .moveRight, z, z' => z' = z.moveRight
  | .keep, z, z' => z'.lines = z.lines

variable [DecidableEq α] {nl : α} {z z' : Zipper α} {op : TextOp α}

/-- **An operation on lines is that operation on the flat text.** -/
theorem OnZipper.onFlat (h : op.OnZipper nl z z') : op.OnFlat (z.flat nl) (z'.flat nl) := by
  cases op with
  | insert c => exact h ▸ z.flat_insert nl c
  | backspace => exact h ▸ z.flat_backspace nl
  | delete => exact h ▸ z.flat_delete nl
  | moveLeft => exact h ▸ z.flat_moveLeft nl
  | moveRight => exact h ▸ z.flat_moveRight nl
  | keep => exact Zipper.flat_text_eq nl h

omit [DecidableEq α] in
/-- No line contains the separator, in terms of the zipper's parts. -/
theorem lines_free_iff : (∀ l ∈ z.lines, nl ∉ l) ↔
    (∀ l ∈ z.above, nl ∉ l) ∧ nl ∉ z.left ∧ nl ∉ z.right ∧ ∀ l ∈ z.below, nl ∉ l := by
  simp only [Zipper.lines, mem_append, mem_cons]
  constructor
  · intro h
    have hline := h (z.left ++ z.right) (.inr (.inl rfl))
    rw [mem_append, not_or] at hline
    exact ⟨fun l hl => h l (.inl hl), hline.1, hline.2, fun l hl => h l (.inr (.inr hl))⟩
  · rintro ⟨habove, hleft, hright, hbelow⟩ l (hl | rfl | hl)
    · exact habove l hl
    · rw [mem_append]
      exact not_or.mpr ⟨hleft, hright⟩
    · exact hbelow l hl

/-- **Lines stay free of separators**: one that is inserted splits its line. -/
theorem OnZipper.free (h : op.OnZipper nl z z') (hfree : ∀ l ∈ z.lines, nl ∉ l) :
    ∀ l ∈ z'.lines, nl ∉ l := by
  cases op with
  | keep =>
    have hlines : z'.lines = z.lines := h
    rw [hlines]
    exact hfree
  | insert c =>
    obtain rfl : z' = _ := h
    obtain ⟨habove, hleft, hright, hbelow⟩ := lines_free_iff.mp hfree
    refine lines_free_iff.mpr ?_
    by_cases hc : c = nl
    · simp only [Zipper.insert, if_pos hc, mem_append, mem_singleton]
      exact ⟨fun l hl => hl.elim (habove l) (· ▸ hleft), not_mem_nil, hright, hbelow⟩
    · simp only [Zipper.insert, if_neg hc, mem_append, mem_singleton, not_or]
      exact ⟨habove, ⟨hleft, Ne.symm hc⟩, hright, hbelow⟩
  | backspace =>
    obtain rfl : z' = _ := h
    obtain ⟨above, left, right, below⟩ := z
    obtain ⟨habove, hleft, hright, hbelow⟩ := lines_free_iff.mp hfree
    refine lines_free_iff.mpr ?_
    rcases eq_nil_or_concat' left with rfl | ⟨l, c, rfl⟩
    · rcases eq_nil_or_concat' above with rfl | ⟨a, l, rfl⟩
      · exact ⟨habove, hleft, hright, hbelow⟩
      · simp only [mem_append, mem_singleton] at habove
        simpa [Zipper.backspace] using
          ⟨fun m hm => habove m (.inl hm), habove l (.inr rfl), hright, hbelow⟩
    · simp only [mem_append, not_or] at hleft
      simpa [Zipper.backspace] using ⟨habove, hleft.1, hright, hbelow⟩
  | delete =>
    obtain rfl : z' = _ := h
    obtain ⟨above, left, right, below⟩ := z
    obtain ⟨habove, hleft, hright, hbelow⟩ := lines_free_iff.mp hfree
    refine lines_free_iff.mpr ?_
    cases right with
    | cons c r => exact ⟨habove, hleft, fun hm => hright (mem_cons_of_mem c hm), hbelow⟩
    | nil =>
      cases below with
      | cons l ls =>
        exact ⟨habove, hleft, hbelow l mem_cons_self,
          fun m hm => hbelow m (mem_cons_of_mem l hm)⟩
      | nil => exact ⟨habove, hleft, hright, hbelow⟩
  | moveLeft =>
    obtain rfl : z' = _ := h
    rw [z.moveLeft_lines]
    exact hfree
  | moveRight =>
    obtain rfl : z' = _ := h
    rw [z.moveRight_lines]
    exact hfree

end TextOp

end PokuOS

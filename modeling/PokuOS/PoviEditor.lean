import PokuOS.TextZipper
import PokuOS.PoviBuffer

/-!
# Povi's editor

The class `Editor` (`user/povi/editor.cpp`): a buffer with a cursor, and the operations that
keys are bound to. Rows and columns are `int`s, so they are integers here; a line number that
is out of range, or negative, makes the operation undefined.

`Editor.Shows ed z` says that the editor is in order and that what it edits is the text and
cursor of the zipper `z`. Each operation of the editor is shown to be the operation of that
name on the zipper, and so on the flat text; motions keep all lines.
-/

namespace PokuOS

open List Zipper

/-- `Mode`. -/
inductive EditorMode where
  /-- `MODE_NORMAL` -/
  | normal
  /-- `MODE_INSERT` -/
  | insert
  /-- `MODE_COMMAND` -/
  | command
deriving DecidableEq, Repr

/-- An `Editor`. -/
structure Editor where
  buffer : PoviBuffer
  cursorRow : ℤ
  cursorCol : ℤ
  topRow : ℤ
  mode : EditorMode
  filename : PoviString
  modified : Bool
  message : PoviString
  cmdLine : PoviString

namespace Editor

/-- `Editor()`. -/
def new : Option Editor := do
  let buffer ← PoviBuffer.new
  return ⟨buffer, 0, 0, 0, .normal, .empty, false, .empty, .empty⟩

/-- `scroll_to_cursor`. -/
def scrollToCursor (ed : Editor) : Editor :=
  let ed := if ed.cursorRow < ed.topRow then { ed with topRow := ed.cursorRow } else ed
  if ed.cursorRow ≥ ed.topRow + 24 then { ed with topRow := ed.cursorRow - 23 } else ed

/-- `move_left`. -/
def moveLeft (ed : Editor) : Option Editor :=
  if ed.cursorCol > 0 then some { ed with cursorCol := ed.cursorCol - 1 }
  else if ed.cursorRow > 0 then do
    let row := ed.cursorRow - 1
    let len ← ed.buffer.lineLength row
    return { ed with cursorRow := row, cursorCol := len }
  else some ed

/-- `move_right`. -/
def moveRight (ed : Editor) : Option Editor := do
  let len ← ed.buffer.lineLength ed.cursorRow
  if ed.cursorCol < len then return { ed with cursorCol := ed.cursorCol + 1 }
  else if ed.cursorRow + 1 < ed.buffer.numLines then
    return { ed with cursorRow := ed.cursorRow + 1, cursorCol := 0 }
  else return ed

/-- The cursor goes to a row, and back to the end of its line when it is behind it. -/
def toRow (ed : Editor) (row : ℤ) : Option Editor := do
  let len ← ed.buffer.lineLength row
  return { ed with
    cursorRow := row
    cursorCol := if ed.cursorCol > len then (len : ℤ) else ed.cursorCol }

/-- `move_up`. -/
def moveUp (ed : Editor) : Option Editor :=
  if ed.cursorRow > 0 then ed.toRow (ed.cursorRow - 1) else some ed

/-- `move_down`. -/
def moveDown (ed : Editor) : Option Editor :=
  if ed.cursorRow + 1 < ed.buffer.numLines then ed.toRow (ed.cursorRow + 1) else some ed

/-- `goto_line_start`. -/
def gotoLineStart (ed : Editor) : Option Editor := some { ed with cursorCol := 0 }

/-- `goto_line_end`. -/
def gotoLineEnd (ed : Editor) : Option Editor := do
  let len ← ed.buffer.lineLength ed.cursorRow
  return { ed with cursorCol := len }

/-- `goto_first_line`. -/
def gotoFirstLine (ed : Editor) : Option Editor := some { ed with cursorRow := 0, cursorCol := 0 }

/-- `goto_last_line`. -/
def gotoLastLine (ed : Editor) : Option Editor := do
  let row : ℤ := ed.buffer.numLines - 1
  let len ← ed.buffer.lineLength row
  return { ed with cursorRow := row, cursorCol := len }

/-- `insert_char`. -/
def insertChar (ed : Editor) (c : UInt8) : Option Editor := do
  let buffer ← ed.buffer.insertChar ed.cursorRow ed.cursorCol c
  if c = 10 then
    return { ed with buffer := buffer, cursorRow := ed.cursorRow + 1, cursorCol := 0 }
  else return { ed with buffer := buffer, cursorCol := ed.cursorCol + 1 }

/-- `backspace`. -/
def backspace (ed : Editor) : Option Editor :=
  if ed.cursorCol > 0 then do
    let buffer ← ed.buffer.deleteChar ed.cursorRow (ed.cursorCol - 1)
    return { ed with buffer := buffer, cursorCol := ed.cursorCol - 1 }
  else if ed.cursorRow > 0 then do
    let prevLen ← ed.buffer.lineLength (ed.cursorRow - 1)
    let buffer ← ed.buffer.deleteChar (ed.cursorRow - 1) prevLen
    return { ed with buffer := buffer, cursorRow := ed.cursorRow - 1, cursorCol := prevLen }
  else some ed

/-- `delete_char`. -/
def deleteChar (ed : Editor) : Option Editor := do
  let buffer ← ed.buffer.deleteChar ed.cursorRow ed.cursorCol
  let len ← buffer.lineLength ed.cursorRow
  return { ed with
    buffer := buffer
    cursorCol := if ed.cursorCol > len then (len : ℤ) else ed.cursorCol }

/-- `status_message`. -/
def statusMessage (ed : Editor) (m : List UInt8) : Option Editor := do
  let message ← ed.message.set m
  return { ed with message := message }

/-! ## What an editor shows -/

/-- The editor edits the text of `z`, at its cursor. -/
structure Shows (ed : Editor) (z : Zipper UInt8) : Prop where
  /-- the buffer's lines -/
  lines : ed.buffer.Lines z.lines
  /-- the cursor's row -/
  row : ed.cursorRow = z.above.length
  /-- the cursor's column -/
  col : ed.cursorCol = z.left.length

/-- Nothing but the buffer and the cursor differs. -/
structure Edited (ed ed' : Editor) : Prop where
  topRow : ed'.topRow = ed.topRow
  mode : ed'.mode = ed.mode
  filename : ed'.filename = ed.filename
  modified : ed'.modified = ed.modified
  message : ed'.message = ed.message
  cmdLine : ed'.cmdLine = ed.cmdLine

theorem Edited.refl (ed : Editor) : Edited ed ed := ⟨rfl, rfl, rfl, rfl, rfl, rfl⟩

theorem Edited.set (ed : Editor) (b : PoviBuffer) (row col : ℤ) :
    Edited ed { ed with buffer := b, cursorRow := row, cursorCol := col } :=
  ⟨rfl, rfl, rfl, rfl, rfl, rfl⟩

variable {ed : Editor} {z : Zipper UInt8}

/-- **`insert_char`** is inserting at the cursor. -/
theorem insertChar_spec (h : ed.Shows z) (c : UInt8) :
    ∃ ed', ed.insertChar c = some ed' ∧ ed'.Shows (z.insert 10 c) ∧ Edited ed ed' := by
  have hlines := h.lines
  rw [Zipper.lines] at hlines
  by_cases hc : c = 10
  · subst hc
    obtain ⟨b, hins, hb⟩ := PoviBuffer.insertChar_newline hlines h.row h.col
    refine ⟨_, (bind_of_some hins _).trans (if_pos rfl), ⟨?_, ?_, ?_⟩, .set ..⟩
    · simpa [Zipper.insert, Zipper.lines] using hb
    · simp [Zipper.insert, h.row]
    · simp [Zipper.insert]
  · obtain ⟨b, hins, hb⟩ := PoviBuffer.insertChar_char hlines h.row h.col hc
    refine ⟨_, (bind_of_some hins _).trans (if_neg hc), ⟨?_, ?_, ?_⟩, .set ..⟩
    · simpa [Zipper.insert, Zipper.lines, hc] using hb
    · simp [Zipper.insert, hc, h.row]
    · simp [Zipper.insert, hc, h.col]

/-- **`backspace`** deletes what is left of the cursor. -/
theorem backspace_spec (h : ed.Shows z) :
    ∃ ed', ed.backspace = some ed' ∧ ed'.Shows z.backspace ∧ Edited ed ed' := by
  obtain ⟨hlines, hrow, hcol⟩ := h
  obtain ⟨above, left, right, below⟩ := z
  simp only [Zipper.lines] at hlines hrow hcol
  rcases eq_nil_or_concat' left with rfl | ⟨l, c, rfl⟩
  · rcases eq_nil_or_concat' above with rfl | ⟨a, l, rfl⟩
    · -- at the start of the text
      refine ⟨ed, ?_, ⟨hlines, hrow, hcol⟩, .refl ed⟩
      rw [backspace, if_neg (by simp [hcol]), if_neg (by simp [hrow])]
    · -- at the start of a line: it goes to the end of the one above
      rw [append_assoc, singleton_append, nil_append] at hlines
      rw [length_append, length_singleton] at hrow
      have hprev : ed.cursorRow - 1 = a.length := by omega
      obtain ⟨b, hdel, hb⟩ := PoviBuffer.deleteChar_join hlines hprev
        (show (l.length : ℤ) = _ from rfl)
      refine ⟨{ ed with buffer := b, cursorRow := ed.cursorRow - 1, cursorCol := l.length }, ?_,
        ?_, .set ..⟩
      · rw [backspace, if_neg (by simp [hcol]), if_pos (by omega),
          bind_of_some (hlines.lineLength hprev), bind_of_some hdel]
        rfl
      · simpa [Zipper.backspace] using Shows.mk (z := ⟨a, l, right, below⟩) hb hprev rfl
  · -- inside a line
    rw [append_assoc, singleton_append] at hlines
    rw [length_append, length_singleton] at hcol
    obtain ⟨b, hdel, hb⟩ := PoviBuffer.deleteChar_char hlines hrow
      (show ed.cursorCol - 1 = _ by omega)
    refine ⟨{ ed with buffer := b, cursorCol := ed.cursorCol - 1 }, ?_, ⟨?_, ?_, ?_⟩, .set ..⟩
    · rw [backspace, if_pos (by omega), bind_of_some hdel]
      rfl
    · simpa [Zipper.backspace, Zipper.lines] using hb
    · simpa [Zipper.backspace] using hrow
    · simp [Zipper.backspace, hcol]

/-- `delete_char`, once the buffer has deleted: the cursor stays where it is. -/
theorem deleteChar_of_buffer {b : PoviBuffer} {x y : List UInt8} {above below : List (List UInt8)}
    (hdel : ed.buffer.deleteChar ed.cursorRow ed.cursorCol = some b)
    (hb : b.Lines (above ++ (x ++ y) :: below)) (hrow : ed.cursorRow = above.length)
    (hcol : ed.cursorCol = x.length) :
    ed.deleteChar = some { ed with buffer := b } := by
  have hle : ¬ ed.cursorCol > ((x ++ y).length : ℤ) := by
    rw [length_append]
    omega
  rw [deleteChar, bind_of_some hdel, bind_of_some (hb.lineLength hrow), if_neg hle]
  rfl

/-- **`delete_char`** deletes what is right of the cursor. -/
theorem deleteChar_spec (h : ed.Shows z) :
    ∃ ed', ed.deleteChar = some ed' ∧ ed'.Shows z.delete ∧ Edited ed ed' := by
  obtain ⟨hlines, hrow, hcol⟩ := h
  obtain ⟨above, left, right, below⟩ := z
  simp only [lines] at hlines hrow hcol
  cases right with
  | cons c r =>
    obtain ⟨b, hdel, hb⟩ := PoviBuffer.deleteChar_char hlines hrow hcol
    exact ⟨_, deleteChar_of_buffer hdel hb hrow hcol, ⟨hb, hrow, hcol⟩, .set ..⟩
  | nil =>
    rw [append_nil] at hlines
    cases below with
    | cons l ls =>
      obtain ⟨b, hdel, hb⟩ := PoviBuffer.deleteChar_join hlines hrow hcol
      exact ⟨_, deleteChar_of_buffer hdel hb hrow hcol, ⟨hb, hrow, hcol⟩, .set ..⟩
    | nil =>
      have hdel := PoviBuffer.deleteChar_end hlines hrow hcol
      rw [← append_nil left] at hlines
      exact ⟨_, deleteChar_of_buffer hdel hlines hrow hcol, ⟨hlines, hrow, hcol⟩, .set ..⟩

/-- **`move_left`** is one to the left. -/
theorem moveLeft_spec (h : ed.Shows z) :
    ∃ ed', ed.moveLeft = some ed' ∧ ed'.Shows z.moveLeft ∧ Edited ed ed' := by
  obtain ⟨hlines, hrow, hcol⟩ := h
  obtain ⟨above, left, right, below⟩ := z
  simp only [Zipper.lines] at hlines hrow hcol
  rcases eq_nil_or_concat' left with rfl | ⟨l, c, rfl⟩
  · rcases eq_nil_or_concat' above with rfl | ⟨a, l, rfl⟩
    · refine ⟨ed, ?_, ⟨hlines, hrow, hcol⟩, .refl ed⟩
      rw [moveLeft, if_neg (by simp [hcol]), if_neg (by simp [hrow])]
    · rw [append_assoc, singleton_append, nil_append] at hlines
      rw [length_append, length_singleton] at hrow
      have hprev : ed.cursorRow - 1 = a.length := by omega
      refine ⟨{ ed with cursorRow := ed.cursorRow - 1, cursorCol := l.length }, ?_,
        ⟨?_, ?_, ?_⟩, .set ..⟩
      · rw [moveLeft, if_neg (by simp [hcol]), if_pos (by omega)]
        exact bind_of_some (hlines.lineLength hprev) _
      · simpa [Zipper.moveLeft, Zipper.lines] using hlines
      · simpa [Zipper.moveLeft] using hprev
      · simp [Zipper.moveLeft]
  · rw [length_append, length_singleton] at hcol
    refine ⟨{ ed with cursorCol := ed.cursorCol - 1 }, ?_,
      ⟨?_, ?_, ?_⟩, .set ..⟩
    · rw [moveLeft, if_pos (by omega)]
    · simpa [Zipper.moveLeft, Zipper.lines] using hlines
    · simpa [Zipper.moveLeft] using hrow
    · simp [Zipper.moveLeft, hcol]

/-- **`move_right`** is one to the right. -/
theorem moveRight_spec (h : ed.Shows z) :
    ∃ ed', ed.moveRight = some ed' ∧ ed'.Shows z.moveRight ∧ Edited ed ed' := by
  obtain ⟨hlines, hrow, hcol⟩ := h
  obtain ⟨above, left, right, below⟩ := z
  simp only [Zipper.lines] at hlines hrow hcol
  have hnum := hlines.numLines
  simp only [length_append, length_cons] at hnum
  rw [moveRight, bind_of_some (hlines.lineLength hrow)]
  cases right with
  | cons c r =>
    refine ⟨_, if_pos ?_, ⟨?_, ?_, ?_⟩, .set ..⟩
    · rw [length_append, length_cons]
      omega
    · simpa [Zipper.moveRight, Zipper.lines] using hlines
    · simpa [Zipper.moveRight] using hrow
    · simp [Zipper.moveRight, hcol]
  | nil =>
    rw [if_neg (by simp [hcol])]
    cases below with
    | cons l ls =>
      rw [length_cons] at hnum
      refine ⟨_, if_pos (by omega), ⟨?_, ?_, ?_⟩, .set ..⟩
      · simpa [Zipper.moveRight, Zipper.lines] using hlines
      · simp [Zipper.moveRight, hrow]
      · simp [Zipper.moveRight]
    | nil =>
      rw [length_nil] at hnum
      exact ⟨ed, if_neg (by omega), ⟨hlines, hrow, hcol⟩, .refl ed⟩

/-! ## Motions -/

/-- The result of a motion: another place in the same lines. -/
def Moved (ed : Editor) (z : Zipper UInt8) (r : Option Editor) : Prop :=
  ∃ ed' z', r = some ed' ∧ ed'.Shows z' ∧ z'.lines = z.lines ∧ ed'.buffer = ed.buffer ∧
    Edited ed ed'

/-- **Going somewhere**: to any place that exists. -/
theorem moved_to (h : ed.Shows z) {row col : ℕ} {l : List UInt8} (hrow : z.lines[row]? = some l)
    (hcol : col ≤ l.length) :
    Moved ed z (some { ed with cursorRow := row, cursorCol := col }) := by
  obtain ⟨z', hz', hrow', hcol'⟩ := exists_at hrow hcol
  refine ⟨_, z', rfl, ⟨?_, ?_, ?_⟩, hz', rfl, .set ..⟩
  · rw [hz']
    exact h.lines
  · rw [hrow']
  · rw [hcol']

theorem moved_refl (h : ed.Shows z) : Moved ed z (some ed) :=
  ⟨ed, z, rfl, h, rfl, rfl, .refl ed⟩

theorem lines_at (z : Zipper UInt8) : z.lines[z.above.length]? = some (z.left ++ z.right) := by
  simp [lines]

/-- **Going to another row**: the column is kept, or shortened. -/
theorem toRow_spec (h : ed.Shows z) (row : ℕ) (hrow : row < z.lines.length) :
    Moved ed z (ed.toRow row) := by
  have hget : z.lines[row]? = some z.lines[row] := getElem?_eq_getElem hrow
  have hcol := h.col
  rw [toRow, bind_of_some (h.lines.lineLength_of_get hget)]
  by_cases hlong : ed.cursorCol > (z.lines[row].length : ℤ)
  · rw [if_pos hlong]
    exact moved_to h hget (Nat.le_refl _)
  · rw [if_neg hlong, hcol]
    exact moved_to h hget (by omega)

theorem moveUp_spec (h : ed.Shows z) : Moved ed z ed.moveUp := by
  have hrow := h.row
  rw [moveUp]
  by_cases hpos : ed.cursorRow > 0
  · obtain ⟨r, hr⟩ : ∃ r : ℕ, ed.cursorRow - 1 = r := ⟨z.above.length - 1, by omega⟩
    rw [if_pos hpos, hr]
    refine toRow_spec h _ ?_
    rw [lines, length_append, length_cons]
    omega
  · rw [if_neg hpos]
    exact moved_refl h

theorem moveDown_spec (h : ed.Shows z) : Moved ed z ed.moveDown := by
  have hrow := h.row
  have hnum := h.lines.numLines
  rw [moveDown]
  by_cases hlt : ed.cursorRow + 1 < ed.buffer.numLines
  · rw [if_pos hlt, hrow]
    exact toRow_spec h (z.above.length + 1) (by omega)
  · rw [if_neg hlt]
    exact moved_refl h

theorem gotoLineStart_spec (h : ed.Shows z) : Moved ed z ed.gotoLineStart := by
  have := moved_to h (lines_at z) (Nat.zero_le _)
  rw [← h.row] at this
  exact this

theorem gotoLineEnd_spec (h : ed.Shows z) : Moved ed z ed.gotoLineEnd := by
  have hlen := h.lines.lineLength_of_get (lines_at z)
  rw [← h.row] at hlen
  rw [gotoLineEnd, bind_of_some hlen]
  have := moved_to h (lines_at z) (Nat.le_refl _)
  rw [← h.row] at this
  exact this

theorem gotoFirstLine_spec (h : ed.Shows z) : Moved ed z ed.gotoFirstLine := by
  obtain ⟨l, hl⟩ : ∃ l, z.lines[0]? = some l := by
    rw [lines]
    cases z.above with
    | nil => exact ⟨_, rfl⟩
    | cons l ls => exact ⟨_, rfl⟩
  exact moved_to h hl (Nat.zero_le _)

theorem gotoLastLine_spec (h : ed.Shows z) : Moved ed z ed.gotoLastLine := by
  have hnum := h.lines.numLines
  have hpos : 0 < z.lines.length := by
    rw [lines, length_append, length_cons]
    omega
  have hlast : (ed.buffer.numLines : ℤ) - 1 = ((z.lines.length - 1 : ℕ) : ℤ) := by omega
  have hget : z.lines[z.lines.length - 1]? = some z.lines[z.lines.length - 1] :=
    getElem?_eq_getElem (by omega)
  rw [gotoLastLine]
  simp only [hlast]
  rw [bind_of_some (h.lines.lineLength_of_get hget)]
  exact moved_to h hget (Nat.le_refl _)

/-! ## The flat text -/

/-- The text of the editor, as one sequence, with the cursor as an offset into it. -/
def flat (ed : Editor) : Option (Flat UInt8) := do
  let ls ← ed.buffer.text
  return ⟨[10].intercalate ls,
    ((ls.take ed.cursorRow.toNat).map (·.length + 1)).sum + ed.cursorCol.toNat⟩

/-- **The flat text** is the one of the zipper. -/
theorem Shows.flat (h : ed.Shows z) : ed.flat = some (z.flat 10) := by
  have hoffset : ((z.lines.take ed.cursorRow.toNat).map (·.length + 1)).sum + ed.cursorCol.toNat =
      (z.flat 10).offset := by
    rw [h.row, h.col, Int.toNat_natCast, Int.toNat_natCast, Zipper.lines, take_left]
    simp [Zipper.flat, Zipper.before, length_flatMap]
  rw [Editor.flat, bind_of_some h.lines.text, hoffset, ← z.flat_text 10]
  rfl

/-- The editor's state is in order: there is a line, and the cursor is in the text. -/
structure Valid (ed : Editor) : Prop where
  /-- at least one line -/
  lines : 1 ≤ ed.buffer.numLines
  /-- the cursor is on a line -/
  row : 0 ≤ ed.cursorRow ∧ ed.cursorRow < ed.buffer.numLines
  /-- and in it, or right behind it -/
  col : ∃ len : ℕ, ed.buffer.lineLength ed.cursorRow = some len ∧ 0 ≤ ed.cursorCol ∧
    ed.cursorCol ≤ len

theorem Shows.valid (h : ed.Shows z) : ed.Valid := by
  have hnum := h.lines.numLines
  have hrow := h.row
  have hcol := h.col
  have hlen := h.lines.lineLength_of_get (lines_at z)
  rw [Zipper.lines, length_append, length_cons] at hnum
  rw [← hrow] at hlen
  refine ⟨by omega, ⟨by omega, by omega⟩, _, hlen, by omega, ?_⟩
  rw [length_append]
  omega

/-! ## What is on the screen -/

/-- Scrolling moves the window and nothing else. -/
theorem scrollToCursor_eq (ed : Editor) :
    ed.scrollToCursor = { ed with topRow :=
      if ed.cursorRow < ed.topRow then ed.cursorRow
      else if ed.topRow + 24 ≤ ed.cursorRow then ed.cursorRow - 23 else ed.topRow } := by
  rw [scrollToCursor]
  by_cases hup : ed.cursorRow < ed.topRow
  · have hnot : ¬ ed.cursorRow ≥ ed.cursorRow + 24 := by omega
    simp only [if_pos hup, if_neg hnot]
  · simp only [if_neg hup]
    split <;> rfl

/-- **After scrolling** the cursor is in the window of 24 rows. -/
theorem scrollToCursor_window (ed : Editor) :
    ed.scrollToCursor.topRow ≤ ed.scrollToCursor.cursorRow ∧
      ed.scrollToCursor.cursorRow < ed.scrollToCursor.topRow + 24 := by
  rw [scrollToCursor_eq]
  simp only
  split_ifs
  all_goals omega

end Editor

end PokuOS

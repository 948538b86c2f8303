import Mathlib.Data.List.Forall2
import Mathlib.Data.List.Nodup
import PokuOS.PoviString

/-!
# Povi's text buffer

The classes `Vector` (`user/povi/vector.hpp`) and `Buffer` (`user/povi/buffer.cpp`) of the
editor. A buffer is a vector of **pointers** to strings. The strings are objects of their own,
made by `new` and never freed; the model keeps them in the order in which they were made, and
a pointer is a position in that list.

`PoviBuffer.Lines b ls` says that the buffer `b` holds the lines `ls`: its vector has one
pointer for each of them, no pointer twice, and each points to a string with that text. That
no pointer occurs twice is what makes editing a line leave the others alone.
-/

namespace PokuOS

open List PoviString

universe u

/-! ## Vectors -/

/-- A `Vector`: the cells of its block, whose number is `cap_`, and `count_`. -/
structure PoviVector (α : Type u) where
  /-- `arr_` -/
  arr : List α
  /-- `count_` -/
  count : ℕ

namespace PoviVector

variable {α : Type u}

/-- `remove`. -/
def remove (v : PoviVector α) (idx : ℤ) : Option (PoviVector α) :=
  if idx < 0 ∨ idx ≥ v.count then some v
  else do
    let arr ← shiftDown v.arr idx.toNat (v.count - 1 - idx.toNat)
    return ⟨arr, v.count - 1⟩

/-- `clear`. -/
def clear (v : PoviVector α) : PoviVector α := { v with count := 0 }

/-- The vector holds the elements `xs`. -/
structure Items (v : PoviVector α) (xs : List α) : Prop where
  /-- their number -/
  count : v.count = xs.length
  /-- the cells -/
  cells : ∃ rest, v.arr = xs ++ rest

variable {v : PoviVector α} {xs ys : List α}

/-- **`remove`**: the elements behind the index move down. -/
theorem remove_spec {x : α} (h : v.Items (xs ++ x :: ys)) {idx : ℤ} (hidx : idx = xs.length) :
    ∃ v', v.remove idx = some v' ∧ v'.Items (xs ++ ys) := by
  obtain ⟨arr, count⟩ := v
  have hcount : count = (xs ++ x :: ys).length := h.count
  rw [length_append, length_cons] at hcount
  obtain ⟨rest, hcells⟩ : ∃ rest, arr = xs ++ x :: ys ++ rest := h.cells
  obtain ⟨d, hshift⟩ := shiftDown_append rest ys xs x
  have hn : count - 1 - xs.length = ys.length := by omega
  refine ⟨⟨xs ++ (ys ++ d :: rest), count - 1⟩, ?_, ?_, ⟨d :: rest, by simp⟩⟩
  · rw [remove, if_neg (by simp only; omega), hidx, Int.toNat_natCast, hcells, hn,
      append_assoc]
    exact bind_of_some hshift _
  · change count - 1 = _
    rw [length_append]
    omega

theorem clear_spec (v : PoviVector α) : v.clear.Items [] := ⟨rfl, ⟨v.arr, rfl⟩⟩

variable [Inhabited α]

/-- `grow`, onto a blank block. -/
def grow (v : PoviVector α) : Option (PoviVector α) := do
  let newCap := if v.arr = [] then 8 else v.arr.length * 2
  let na ← copyCells (List.replicate newCap default) 0 v.arr 0 v.count
  return { v with arr := na }

/-- `if (count_ == cap_) grow();` -/
def growIfFull (v : PoviVector α) : Option (PoviVector α) :=
  if v.count = v.arr.length then v.grow else some v

/-- `push_back`. -/
def pushBack (v : PoviVector α) (x : α) : Option (PoviVector α) := do
  let v ← v.growIfFull
  let arr ← putCell v.arr v.count x
  return ⟨arr, v.count + 1⟩

/-- `insert`. -/
def insert (v : PoviVector α) (idx : ℤ) (x : α) : Option (PoviVector α) := do
  let idx := if idx < 0 then 0 else idx
  let idx := (if idx > v.count then (v.count : ℤ) else idx).toNat
  let v ← v.growIfFull
  let arr ← shiftUp v.arr idx (v.count - idx)
  let arr ← putCell arr idx x
  return ⟨arr, v.count + 1⟩

/-- **Room for one more**: the elements stay, and a cell follows them. -/
theorem growIfFull_spec (h : v.Items xs) :
    ∃ b rest, v.growIfFull = some ⟨xs ++ b :: rest, xs.length⟩ := by
  obtain ⟨arr, count⟩ := v
  obtain rfl : count = xs.length := h.count
  obtain ⟨rest, rfl⟩ : ∃ rest, arr = xs ++ rest := h.cells
  cases rest with
  | cons b rest => exact ⟨b, rest, by simp [growIfFull]⟩
  | nil =>
    rw [append_nil, growIfFull, if_pos rfl, grow]
    simp only
    obtain ⟨k, hk⟩ : ∃ k, (if xs = [] then 8 else xs.length * 2) = xs.length + (k + 1) := by
      by_cases hxs : xs = []
      · exact ⟨7, by simp [hxs]⟩
      · have := length_pos_iff.mpr hxs
        exact ⟨xs.length - 1, by rw [if_neg hxs]; omega⟩
    have hcopy := copyCells_at (x := []) (y := replicate xs.length default)
      (z := replicate (k + 1) default) (w := xs) (t := []) rfl rfl (by simp)
    rw [replicate_append_replicate, append_nil] at hcopy
    refine ⟨default, replicate k default, ?_⟩
    rw [hk]
    exact bind_of_some hcopy _

theorem pushBack_spec (h : v.Items xs) (x : α) :
    ∃ v', v.pushBack x = some v' ∧ v'.Items (xs ++ [x]) := by
  obtain ⟨b, rest, hgrow⟩ := growIfFull_spec h
  refine ⟨⟨xs ++ x :: rest, xs.length + 1⟩, ?_, by simp, ⟨rest, by simp⟩⟩
  rw [pushBack, bind_of_some hgrow, bind_of_some (putCell_append xs b x rest)]
  rfl

/-- **`insert`**: the elements from the index on move up. -/
theorem insert_spec (h : v.Items (xs ++ ys)) {idx : ℤ} (hidx : idx = xs.length) (x : α) :
    ∃ v', v.insert idx x = some v' ∧ v'.Items (xs ++ x :: ys) := by
  have hcount := h.count
  rw [length_append] at hcount
  obtain ⟨b, rest, hgrow⟩ := growIfFull_spec h
  obtain ⟨d, hshift⟩ := shiftUp_append xs ys b rest
  have hin : (if (if idx < 0 then 0 else idx) > v.count then (v.count : ℤ)
      else (if idx < 0 then 0 else idx)).toNat = xs.length := by
    rw [if_neg (by omega), if_neg (by omega), hidx, Int.toNat_natCast]
  rw [append_assoc, length_append] at hgrow
  refine ⟨⟨xs ++ x :: (ys ++ rest), xs.length + ys.length + 1⟩, ?_, ?_, ⟨rest, by simp⟩⟩
  · rw [insert]
    simp only [hin, bind_of_some hgrow, Nat.add_sub_cancel_left, bind_of_some hshift,
      bind_of_some (putCell_append xs d x (ys ++ rest))]
    rfl
  · simp only [length_append, length_cons]
    omega

end PoviVector

/-! ## Buffers -/

/-- A `Buffer`, with the strings it has made. -/
structure PoviBuffer where
  /-- the `String` objects, in the order of their creation -/
  strings : List PoviString
  /-- `lines_`: pointers to them; `none` is `NULL` -/
  lines : PoviVector (Option ℕ)

namespace PoviBuffer

/-- `new String()`. -/
def newString (b : PoviBuffer) : ℕ × PoviBuffer :=
  (b.strings.length, { b with strings := b.strings ++ [PoviString.empty] })

/-- A member function of `String`, called on the string at `q`. -/
def onString (b : PoviBuffer) (q : ℕ) (f : PoviString → Option PoviString) :
    Option PoviBuffer := do
  let s ← b.strings[q]?
  let s ← f s
  return { b with strings := b.strings.set q s }

/-- `num_lines`. -/
def numLines (b : PoviBuffer) : ℕ := b.lines.count

/-- `lines_[r]`, when it is not `NULL`. -/
def linePtr (b : PoviBuffer) (r : ℤ) : Option ℕ :=
  if r < 0 then none else b.lines.arr[r.toNat]?.join

/-- `line`. -/
def line (b : PoviBuffer) (r : ℤ) : Option PoviString := do
  let q ← b.linePtr r
  b.strings[q]?

/-- `line_length`. -/
def lineLength (b : PoviBuffer) (r : ℤ) : Option ℕ := (b.line r).map PoviString.len

/-- A member function of `String`, called on `lines_[r]`. -/
def onLine (b : PoviBuffer) (r : ℤ) (f : PoviString → Option PoviString) : Option PoviBuffer := do
  let q ← b.linePtr r
  b.onString q f

/-- `Buffer()`. -/
def new : Option PoviBuffer := do
  let (q, b) := newString ⟨[], ⟨[], 0⟩⟩
  let lines ← b.lines.pushBack (some q)
  return { b with lines := lines }

/-- `insert_line`. -/
def insertLine (b : PoviBuffer) (row : ℤ) : Option PoviBuffer := do
  let row := if row < 0 then 0 else row
  let row := if row > b.numLines then (b.numLines : ℤ) else row
  let (q, b) := b.newString
  let lines ← b.lines.insert row (some q)
  return { b with lines := lines }

/-- `delete_line`. -/
def deleteLine (b : PoviBuffer) (row : ℤ) : Option PoviBuffer :=
  if row < 0 ∨ row ≥ b.numLines then some b
  else if b.numLines = 1 then b.onLine 0 fun s => some s.clear
  else do
    let lines ← b.lines.remove row
    return { b with lines := lines }

/-- `insert_char`. -/
def insertChar (b : PoviBuffer) (row col : ℤ) (ch : UInt8) : Option PoviBuffer :=
  if row < 0 ∨ row ≥ b.numLines then some b
  else if ch = 10 then do
    let tail ← (← b.line row).substr col
    let b ← b.onLine row fun s => s.truncate col
    let b ← b.insertLine (row + 1)
    b.onLine (row + 1) fun s => s.assign tail
  else b.onLine row fun s => s.insertAt col ch

/-- `delete_char`. -/
def deleteChar (b : PoviBuffer) (row col : ℤ) : Option PoviBuffer :=
  if row < 0 ∨ row ≥ b.numLines then some b
  else do
    let l ← b.line row
    if col < l.len then b.onLine row fun s => s.eraseAt col
    else if row + 1 < b.numLines then do
      let next ← b.line (row + 1)
      let b ← b.onLine row fun s => s.appendN next.cStr next.len
      b.deleteLine (row + 1)
    else some b

/-- `add_line`. -/
def addLine (b : PoviBuffer) (s : List UInt8) (n : ℕ) : Option PoviBuffer := do
  let (q, b) := b.newString
  let b ← b.onString q fun ln => ln.appendN s n
  let lines ← b.lines.pushBack (some q)
  return { b with lines := lines }

/-- `clear_lines`. -/
def clearLines (b : PoviBuffer) : Option PoviBuffer := do
  let (q, b) := { b with lines := b.lines.clear }.newString
  let lines ← b.lines.pushBack (some q)
  return { b with lines := lines }

/-! ## What a buffer holds -/

/-- The pointer `q` leads to a string that holds `l`. -/
def Points (strings : List PoviString) (q : ℕ) (l : List UInt8) : Prop :=
  ∃ s, strings[q]? = some s ∧ s.Text l

/-- The buffer holds the lines `ls`: one pointer for each of them, and no pointer twice. -/
def Lines (b : PoviBuffer) (ls : List (List UInt8)) : Prop :=
  ∃ qs : List ℕ, b.lines.Items (qs.map some) ∧ qs.Nodup ∧ List.Forall₂ (Points b.strings) qs ls

variable {b : PoviBuffer} {ls above below : List (List UInt8)} {l : List UInt8}

variable {strings : List PoviString}

theorem Points.lt {q : ℕ} (h : Points strings q l) : q < strings.length := by
  obtain ⟨s, hs, -⟩ := h
  exact (List.getElem?_eq_some_iff.mp hs).1

/-- Pointers lead where they led as long as the strings they lead to stay. -/
theorem points_congr {strings' : List PoviString} {qs : List ℕ}
    (h : List.Forall₂ (Points strings) qs ls)
    (hsame : ∀ q ∈ qs, q < strings.length → strings'[q]? = strings[q]?) :
    List.Forall₂ (Points strings') qs ls := by
  induction h with
  | nil => exact List.Forall₂.nil
  | cons hq _ ih =>
    refine List.Forall₂.cons ?_ (ih fun q hq => hsame q (mem_cons_of_mem _ hq))
    have hlt := hq.lt
    obtain ⟨s, hs, ht⟩ := hq
    exact ⟨s, (hsame _ mem_cons_self hlt).trans hs, ht⟩

theorem Lines.numLines (h : b.Lines ls) : b.numLines = ls.length := by
  obtain ⟨qs, hi, -, hp⟩ := h
  rw [PoviBuffer.numLines, hi.count, length_map, hp.length_eq]

theorem Lines.split (h : b.Lines (above ++ l :: below)) :
    ∃ ps q qs, b.lines.Items ((ps ++ q :: qs).map some) ∧ (ps ++ q :: qs).Nodup ∧
      ps.length = above.length ∧ List.Forall₂ (Points b.strings) ps above ∧
      Points b.strings q l ∧ List.Forall₂ (Points b.strings) qs below := by
  obtain ⟨rs, hi, hn, hp⟩ := h
  have hlen := hp.length_eq
  rw [length_append, length_cons] at hlen
  obtain ⟨ps, q, qs, rfl, hps⟩ := exists_cell (a := rs) (n := above.length) (by omega)
  have habove := forall₂_take_append _ _ _ hp
  have hrest := forall₂_drop_append _ _ _ hp
  rw [← hps, take_left] at habove
  rw [← hps, drop_left] at hrest
  obtain ⟨hq, hbelow⟩ := forall₂_cons.mp hrest
  exact ⟨ps, q, qs, hi, hn, hps, habove, hq, hbelow⟩

variable {r : ℤ}

/-- **The pointer to a line.** -/
theorem linePtr_eq {ps qs : List ℕ} {q : ℕ} (hi : b.lines.Items ((ps ++ q :: qs).map some))
    (hr : r = ps.length) : b.linePtr r = some q := by
  obtain ⟨rest, hcells⟩ := hi.cells
  rw [linePtr, if_neg (by omega), hr, Int.toNat_natCast, hcells]
  simp

/-- **Reading a line.** -/
theorem Lines.line (h : b.Lines (above ++ l :: below)) (hr : r = above.length) :
    ∃ s, b.line r = some s ∧ s.Text l := by
  obtain ⟨ps, q, qs, hi, -, hps, -, ⟨s, hs, ht⟩, -⟩ := h.split
  exact ⟨s, (bind_of_some (linePtr_eq hi (by omega)) _).trans hs, ht⟩

theorem Lines.lineLength (h : b.Lines (above ++ l :: below)) (hr : r = above.length) :
    b.lineLength r = some l.length := by
  obtain ⟨s, hs, ht⟩ := h.line hr
  rw [PoviBuffer.lineLength, hs, Option.map_some, ht.len]

theorem Lines.lineLength_of_get (h : b.Lines ls) {r : ℕ} (hr : ls[r]? = some l) :
    b.lineLength r = some l.length := by
  obtain ⟨hlt, hget⟩ := List.getElem?_eq_some_iff.mp hr
  obtain ⟨above, m, below, rfl, hlen⟩ := exists_cell hlt
  subst hlen
  obtain rfl : m = l := by simpa using hget
  exact h.lineLength rfl

/-- **Editing a line** leaves the others alone. -/
theorem Lines.onLine (h : b.Lines (above ++ l :: below)) (hr : r = above.length)
    {f : PoviString → Option PoviString} {l' : List UInt8}
    (hf : ∀ s, s.Text l → ∃ s', f s = some s' ∧ s'.Text l') :
    ∃ b', b.onLine r f = some b' ∧ b'.Lines (above ++ l' :: below) := by
  obtain ⟨ps, q, qs, hi, hn, hps, habove, hq, hbelow⟩ := h.split
  have hlt := hq.lt
  obtain ⟨s, hs, ht⟩ := hq
  obtain ⟨s', hs', ht'⟩ := hf s ht
  have hne : ∀ q' ∈ ps ++ qs, q' ≠ q := by
    have hnot := (nodup_cons.mp (nodup_middle.mp hn)).1
    exact fun q' hq' hqq => hnot (hqq ▸ hq')
  have hsame : ∀ q' ∈ ps ++ qs, q' < b.strings.length →
      (b.strings.set q s')[q']? = b.strings[q']? := fun q' hq' _ =>
    getElem?_set_ne (hne q' hq').symm
  refine ⟨{ b with strings := b.strings.set q s' }, ?_, ps ++ q :: qs, hi, hn, ?_⟩
  · rw [PoviBuffer.onLine, bind_of_some (linePtr_eq hi (by omega)), onString, bind_of_some hs,
      bind_of_some hs']
    rfl
  · refine rel_append (points_congr habove fun q' hq' => hsame q' (by simp [hq']))
      (List.Forall₂.cons ⟨s', getElem?_set_self hlt, ht'⟩ ?_)
    exact points_congr hbelow fun q' hq' => hsame q' (by simp [hq'])

/-- The lines of a buffer. -/
def text (b : PoviBuffer) : Option (List (List UInt8)) :=
  (b.lines.arr.take b.lines.count).mapM fun q => do
    let s ← b.strings[← q]?
    return s.content

theorem Lines.text (h : b.Lines ls) : b.text = some ls := by
  obtain ⟨qs, hi, -, hp⟩ := h
  obtain ⟨rest, hcells⟩ := hi.cells
  rw [PoviBuffer.text, hcells, hi.count, take_left]
  clear hcells hi
  induction hp with
  | nil => rfl
  | cons hq _ ih =>
    obtain ⟨s, hs, ht⟩ := hq
    rw [map_cons, mapM_cons, ih]
    simp [hs, ht.content]

/-! ## Adding and removing lines -/

variable {lines : PoviVector (Option ℕ)}

/-- **A new string** between the others: it is at a pointer that none of them has. -/
theorem lines_of_new {ps qs : List ℕ} {s : PoviString} (hn : (ps ++ qs).Nodup)
    (habove : List.Forall₂ (Points strings) ps above)
    (hbelow : List.Forall₂ (Points strings) qs below) (hs : s.Text l)
    (hi : lines.Items ((ps ++ strings.length :: qs).map some)) :
    Lines ⟨strings ++ [s], lines⟩ (above ++ l :: below) := by
  have hlt : ∀ q ∈ ps ++ qs, q < strings.length := by
    have hall := rel_append habove hbelow
    intro q hq
    obtain ⟨i, hi, rfl⟩ := getElem_of_mem hq
    have hi' : i < (above ++ below).length := by rw [← hall.length_eq]; exact hi
    exact (hall.get hi hi').lt
  have hsame : ∀ q, q < strings.length → (strings ++ [s])[q]? = strings[q]? := fun q hq =>
    getElem?_append_left hq
  refine ⟨ps ++ strings.length :: qs, hi, nodup_middle.mpr (nodup_cons.mpr
    ⟨fun hmem => Nat.lt_irrefl _ (hlt _ hmem), hn⟩), ?_⟩
  refine rel_append (points_congr habove fun q _ => hsame q)
    (List.Forall₂.cons ⟨s, by simp, hs⟩ (points_congr hbelow fun q _ => hsame q))

theorem lines_of_one (hi : lines.Items [some strings.length]) :
    Lines ⟨strings ++ [PoviString.empty], lines⟩ [[]] := by
  have hnodup : (([] : List ℕ) ++ []).Nodup := nodup_nil
  exact lines_of_new hnodup .nil .nil text_empty hi

theorem new_spec : ∃ b, new = some b ∧ b.Lines [[]] := by
  have hempty : PoviVector.Items (α := Option ℕ) ⟨[], 0⟩ [] := ⟨rfl, [], rfl⟩
  obtain ⟨v, hpush, hv⟩ := PoviVector.pushBack_spec hempty (some 0)
  exact ⟨_, bind_of_some hpush _, lines_of_one hv⟩

/-- **`insert_line`**: an empty line before the row. -/
theorem insertLine_spec (h : b.Lines (above ++ below)) {row : ℤ} (hrow : row = above.length) :
    ∃ b', b.insertLine row = some b' ∧ b'.Lines (above ++ [] :: below) := by
  have hnum := h.numLines
  rw [length_append] at hnum
  obtain ⟨rs, hi, hn, hp⟩ := h
  have habove := forall₂_take_append _ _ _ hp
  have hbelow := forall₂_drop_append _ _ _ hp
  have hlen : (rs.take above.length).length = above.length := habove.length_eq
  rw [← take_append_drop above.length rs] at hi hn
  generalize rs.take above.length = ps at *
  generalize rs.drop above.length = qs at *
  rw [map_append] at hi
  obtain ⟨v, hins, hv⟩ := PoviVector.insert_spec hi (show row = _ by simp [hlen, hrow])
    (some b.strings.length)
  have hclamp : (if (if row < 0 then 0 else row) > b.numLines then (b.numLines : ℤ)
      else (if row < 0 then 0 else row)) = row := by
    rw [if_neg (by omega), if_neg (by omega)]
  refine ⟨⟨b.strings ++ [empty], v⟩, ?_,
    lines_of_new hn habove hbelow text_empty (by simpa using hv)⟩
  rw [insertLine]
  simp only [hclamp, newString]
  exact bind_of_some hins _

/-- **`delete_line`** of one line among others. -/
theorem deleteLine_spec (h : b.Lines (above ++ l :: below)) {row : ℤ} (hrow : row = above.length)
    (hmore : above ++ below ≠ []) :
    ∃ b', b.deleteLine row = some b' ∧ b'.Lines (above ++ below) := by
  have hnum := h.numLines
  rw [length_append, length_cons] at hnum
  have hpos := length_pos_iff.mpr hmore
  rw [length_append] at hpos
  obtain ⟨ps, q, qs, hi, hn, hps, habove, -, hbelow⟩ := h.split
  rw [map_append, map_cons] at hi
  obtain ⟨v, hrem, hv⟩ := PoviVector.remove_spec hi (show row = _ by simp [hps, hrow])
  refine ⟨{ b with lines := v }, ?_, ps ++ qs, by simpa using hv,
    (nodup_cons.mp (nodup_middle.mp hn)).2, rel_append habove hbelow⟩
  rw [deleteLine, if_neg (by omega), if_neg (by omega)]
  exact bind_of_some hrem _

/-- **`add_line`**: a last line. -/
theorem addLine_spec (h : b.Lines ls) (u w : List UInt8) :
    ∃ b', b.addLine (u ++ w) u.length = some b' ∧ b'.Lines (ls ++ [u]) := by
  obtain ⟨qs, hi, hn, hp⟩ := h
  obtain ⟨s, happ, hs⟩ := appendN_spec text_empty u w
  obtain ⟨v, hpush, hv⟩ := PoviVector.pushBack_spec hi (some b.strings.length)
  rw [← append_nil qs] at hn
  refine ⟨⟨b.strings ++ [s], v⟩, ?_, lines_of_new hn hp .nil hs (by simpa using hv)⟩
  have hstring : onString ⟨b.strings ++ [empty], b.lines⟩ b.strings.length
      (fun ln => ln.appendN (u ++ w) u.length) = some ⟨b.strings ++ [s], b.lines⟩ := by
    have hread : (b.strings ++ [empty])[b.strings.length]? = some empty := by
      simp
    rw [onString, bind_of_some hread, bind_of_some happ]
    simp
  rw [addLine]
  simp only [newString]
  rw [bind_of_some hstring]
  exact bind_of_some hpush _

/-- **`clear_lines`** leaves one empty line, not none. -/
theorem clearLines_spec (b : PoviBuffer) :
    ∃ b', b.clearLines = some b' ∧ b'.Lines [[]] := by
  obtain ⟨v, hpush, hv⟩ := PoviVector.pushBack_spec (PoviVector.clear_spec b.lines)
    (some b.strings.length)
  refine ⟨⟨b.strings ++ [empty], v⟩, ?_, lines_of_one hv⟩
  rw [clearLines]
  simp only [newString]
  exact bind_of_some hpush _

/-! ## Characters -/

variable {x y : List UInt8} {c : UInt8} {row col : ℤ}

/-- **`insert_char`** of a character other than newline. -/
theorem insertChar_char (h : b.Lines (above ++ (x ++ y) :: below)) (hrow : row = above.length)
    (hcol : col = x.length) (hc : c ≠ 10) :
    ∃ b', b.insertChar row col c = some b' ∧ b'.Lines (above ++ (x ++ c :: y) :: below) := by
  have hnum := h.numLines
  rw [length_append, length_cons] at hnum
  rw [insertChar, if_neg (by omega), if_neg hc]
  exact h.onLine hrow fun s hs => insertAt_spec hs hcol c

/-- **`insert_char`** of a newline splits the line. -/
theorem insertChar_newline (h : b.Lines (above ++ (x ++ y) :: below)) (hrow : row = above.length)
    (hcol : col = x.length) :
    ∃ b', b.insertChar row col 10 = some b' ∧ b'.Lines (above ++ x :: y :: below) := by
  have hnum := h.numLines
  rw [length_append, length_cons] at hnum
  obtain ⟨s, hline, hs⟩ := h.line hrow
  obtain ⟨tail, hsub, htail⟩ := substr_spec hs hcol
  obtain ⟨b1, htrunc, h1⟩ := h.onLine hrow fun s hs => truncate_spec hs hcol
  rw [append_cons] at h1
  obtain ⟨b2, hins, h2⟩ := insertLine_spec h1 (show row + 1 = _ by simp; omega)
  obtain ⟨b3, hassign, h3⟩ := h2.onLine (r := row + 1) (by simp; omega)
    fun s hs => assign_spec hs htail
  refine ⟨b3, ?_, by simpa using h3⟩
  rw [insertChar, if_neg (by omega), if_pos rfl, bind_of_some hline, bind_of_some hsub,
    bind_of_some htrunc, bind_of_some hins]
  exact hassign

/-- **`delete_char`** inside a line. -/
theorem deleteChar_char (h : b.Lines (above ++ (x ++ c :: y) :: below)) (hrow : row = above.length)
    (hcol : col = x.length) :
    ∃ b', b.deleteChar row col = some b' ∧ b'.Lines (above ++ (x ++ y) :: below) := by
  have hnum := h.numLines
  rw [length_append, length_cons] at hnum
  obtain ⟨s, hline, hs⟩ := h.line hrow
  have hlen := hs.len
  rw [length_append, length_cons] at hlen
  rw [deleteChar, if_neg (by omega), bind_of_some hline, if_pos (by omega)]
  exact h.onLine hrow fun s hs => eraseAt_spec hs hcol

/-- **`delete_char`** at the end of a line joins it with the next. -/
theorem deleteChar_join (h : b.Lines (above ++ x :: l :: below)) (hrow : row = above.length)
    (hcol : col = x.length) :
    ∃ b', b.deleteChar row col = some b' ∧ b'.Lines (above ++ (x ++ l) :: below) := by
  have hnum := h.numLines
  simp only [length_append, length_cons] at hnum
  obtain ⟨s, hline, hs⟩ := h.line hrow
  have hlen := hs.len
  have h' := h
  rw [append_cons] at h'
  obtain ⟨next, hnext, ht⟩ := h'.line (r := row + 1) (by simp; omega)
  obtain ⟨rest, hrest⟩ := ht.cStr
  obtain ⟨b1, happ, h1⟩ := h.onLine hrow (f := fun s => s.appendN next.cStr next.len)
    fun s hs => by
      rw [hrest, ht.len]
      exact appendN_spec hs l (0 :: rest)
  rw [append_cons] at h1
  obtain ⟨b2, hdel, h2⟩ := deleteLine_spec h1 (show row + 1 = _ by simp; omega) (by simp)
  refine ⟨b2, ?_, by simpa using h2⟩
  rw [deleteChar, if_neg (by omega), bind_of_some hline, if_neg (by omega), if_pos (by omega),
    bind_of_some hnext, bind_of_some happ]
  exact hdel

/-- **`delete_char`** at the end of the text does nothing. -/
theorem deleteChar_end (h : b.Lines (above ++ [x])) (hrow : row = above.length)
    (hcol : col = x.length) : b.deleteChar row col = some b := by
  have hnum := h.numLines
  rw [length_append, length_singleton] at hnum
  obtain ⟨s, hline, hs⟩ := h.line hrow
  have hlen := hs.len
  rw [deleteChar, if_neg (by omega), bind_of_some hline, if_neg (by omega), if_neg (by omega)]

end PoviBuffer

end PokuOS

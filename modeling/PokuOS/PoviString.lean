import Mathlib.Data.Int.Notation
import PokuOS.Cells
import PokuOS.Transition

/-!
# Povi's strings

The class `String` of the editor (`user/povi/string.hpp`): a block of bytes that doubles when
it is full, with the length kept beside it and a `NUL` kept behind the last character. Blocks
come from an arena that is never reused, so a new block is blank; the arena is taken to be
large enough.

The functions are those of the source, on the block's cells, and undefined when they leave
the block. `PoviString.Text s t` says that the string `s` holds the characters `t`; one
lemma for each function says that it stays inside the block and what it does to `t`.
-/

namespace PokuOS

open List

/-- A `String`. -/
structure PoviString where
  /-- the block `p_` points to; `p_` is `NULL` when there is none. `cap_` is its size. -/
  p : List UInt8
  /-- `len_` -/
  len : ℕ
deriving DecidableEq, Repr

namespace PoviString

/-- `String()`. -/
def empty : PoviString := ⟨[], 0⟩

/-- `c_str`: without a block it is the empty literal, which is a single `NUL`. -/
def cStr (s : PoviString) : List UInt8 := if s.p = [] then [0] else s.p

/-- The loop of `reserve`: `while (new_cap < need) new_cap *= 2;` -/
def doubleTo (need : ℕ) : ℕ → ℕ → ℕ
  | 0, newCap => newCap
  | fuel + 1, newCap => if newCap < need then doubleTo need fuel (newCap * 2) else newCap

/-- `reserve`. -/
def reserve (s : PoviString) (need : ℕ) : Option PoviString :=
  if need ≤ s.p.length then some s
  else do
    let newCap := doubleTo need need (if s.p = [] then 16 else s.p.length * 2)
    let np := List.replicate newCap (0 : UInt8)
    let np ← if s.p = [] then putCell np 0 0 else copyCells np 0 s.p 0 (s.len + 1)
    return { s with p := np }

/-- `clear`. -/
def clear (s : PoviString) : PoviString := ⟨s.p.set 0 0, 0⟩

/-- `append` of one character. -/
def append (s : PoviString) (c : UInt8) : Option PoviString := do
  let s ← s.reserve (s.len + 2)
  let p ← putCell s.p s.len c
  let p ← putCell p (s.len + 1) 0
  return ⟨p, s.len + 1⟩

/-- `append` of the first `n` cells of a block. -/
def appendN (s : PoviString) (src : List UInt8) (n : ℕ) : Option PoviString := do
  let s ← s.reserve (s.len + n + 1)
  let p ← copyCells s.p s.len src 0 n
  let p ← putCell p (s.len + n) 0
  return ⟨p, s.len + n⟩

/-- `pv_strlen`. -/
def strlen : List UInt8 → Option ℕ
  | [] => none
  | c :: s => if c = 0 then some 0 else (strlen s).map (· + 1)

/-- `set`. -/
def set (s : PoviString) (src : List UInt8) : Option PoviString := do
  let n ← strlen src
  s.clear.appendN src n

/-- `assign`, which is also the copy constructor and `operator=`. -/
def assign (s o : PoviString) : Option PoviString := s.clear.appendN o.cStr o.len

/-- An index, brought into `0 … len`. -/
def clamp (s : PoviString) (idx : ℤ) : ℕ :=
  let idx := if idx < 0 then 0 else idx
  (if idx > s.len then (s.len : ℤ) else idx).toNat

/-- `insert_at`. -/
def insertAt (s : PoviString) (idx : ℤ) (c : UInt8) : Option PoviString := do
  let idx := s.clamp idx
  let s ← s.reserve (s.len + 2)
  let p ← shiftUp s.p idx (s.len - idx)
  let p ← putCell p idx c
  let p ← putCell p (s.len + 1) 0
  return ⟨p, s.len + 1⟩

/-- `erase_at`. The loop runs up to `len_`, so the `NUL` moves as well. -/
def eraseAt (s : PoviString) (idx : ℤ) : Option PoviString :=
  if idx < 0 ∨ idx ≥ s.len then some s
  else do
    let p ← shiftDown s.p idx.toNat (s.len - idx.toNat)
    return ⟨p, s.len - 1⟩

/-- `truncate`. -/
def truncate (s : PoviString) (n : ℤ) : Option PoviString := do
  let n := s.clamp n
  let p ← if s.p = [] then some [] else putCell s.p n 0
  return ⟨p, n⟩

/-- `substr`. -/
def substr (s : PoviString) (start : ℤ) : Option PoviString :=
  let start := s.clamp start
  empty.appendN (if s.p = [] then [0] else s.p.drop start) (s.len - start)

/-! ## What a string holds -/

/-- The string holds the characters `t`: they are the first cells of its block, with a `NUL`
behind them. -/
structure Text (s : PoviString) (t : List UInt8) : Prop where
  /-- the length is theirs -/
  len : s.len = t.length
  /-- so are the cells, unless there is no block yet -/
  cells : s.p = [] ∧ t = [] ∨ ∃ rest, s.p = t ++ 0 :: rest

theorem Text.of_cells {s : PoviString} {t rest : List UInt8} (hlen : s.len = t.length)
    (hp : s.p = t ++ 0 :: rest) : s.Text t := ⟨hlen, .inr ⟨rest, hp⟩⟩

theorem text_empty : empty.Text [] := ⟨rfl, .inl ⟨rfl, rfl⟩⟩

variable {s : PoviString} {t : List UInt8}

/-- What `c_str` returns starts with the characters, and a `NUL`. -/
theorem Text.cStr (h : s.Text t) : ∃ rest, s.cStr = t ++ 0 :: rest := by
  rcases h.cells with ⟨hp, rfl⟩ | ⟨rest, hp⟩
  · exact ⟨[], by simp [PoviString.cStr, hp]⟩
  · exact ⟨rest, by simp [PoviString.cStr, hp]⟩

/-- The characters of a string. -/
def content (s : PoviString) : List UInt8 := s.p.take s.len

theorem Text.content (h : s.Text t) : s.content = t := by
  rw [PoviString.content, h.len]
  rcases h.cells with ⟨hp, rfl⟩ | ⟨rest, hp⟩
  · rfl
  · rw [hp, take_left]

/-- The loop of `reserve` ends, with enough. -/
theorem le_doubleTo {need : ℕ} : ∀ {fuel c : ℕ}, 0 < c → need ≤ c + fuel →
    need ≤ doubleTo need fuel c := by
  intro fuel
  induction fuel with
  | zero => exact fun _ h => h
  | succ fuel ih =>
    intro c hc h
    rw [doubleTo]
    by_cases hlt : c < need
    · rw [if_pos hlt]
      exact ih (by omega) (by omega)
    · rw [if_neg hlt]
      exact Nat.le_of_not_lt hlt

/-- **`reserve`** keeps the text, and leaves a block of the size that was asked for. -/
theorem reserve_spec (h : s.Text t) (need : ℕ) (hneed : t.length < need) :
    ∃ p rest, s.reserve need = some ⟨p, t.length⟩ ∧ p = t ++ 0 :: rest ∧ need ≤ p.length := by
  obtain ⟨p, len⟩ := s
  obtain rfl : len = t.length := h.len
  by_cases hcap : need ≤ p.length
  · rcases h.cells with ⟨hp, -⟩ | ⟨rest, hp⟩
    · obtain rfl : p = [] := hp
      simp at hcap
      omega
    · exact ⟨p, rest, if_pos hcap, hp, hcap⟩
  have hgrow : need ≤ doubleTo need need (if p = [] then 16 else p.length * 2) := by
    refine le_doubleTo ?_ (Nat.le_add_left _ _)
    split
    · decide
    · next hp => exact Nat.mul_pos (length_pos_iff.mpr hp) (by decide)
  rw [reserve, if_neg hcap]
  simp only
  generalize doubleTo need need (if p = [] then 16 else p.length * 2) = cap at hgrow
  obtain ⟨k, rfl⟩ := Nat.exists_eq_add_of_le (Nat.le_trans hneed hgrow)
  rcases h.cells with ⟨hp, rfl⟩ | ⟨rest, hp⟩
  · obtain rfl : p = [] := hp
    refine ⟨0 :: replicate k 0, replicate k 0, ?_, rfl, ?_⟩
    · simp [putCell, Nat.add_comm 1 k, replicate_succ]
    · simpa [Nat.add_comm] using hgrow
  · obtain rfl : p = t ++ 0 :: rest := hp
    have hcopy := copyCells_at (x := []) (w := t ++ [0]) (t := rest)
      (y := replicate (t.length + 1) 0) (z := replicate k 0)
      (n := t.length + 1) rfl (by simp) (by simp)
    refine ⟨t ++ 0 :: replicate k 0, replicate k 0, ?_, rfl, ?_⟩
    · rw [replicate_append_replicate, append_assoc, append_assoc] at hcopy
      rw [if_neg (by simp)]
      exact bind_of_some hcopy _
    · simpa [Nat.add_assoc, Nat.add_comm, Nat.add_left_comm] using hgrow

theorem clear_spec (h : s.Text t) : s.clear.Text [] := by
  refine ⟨rfl, ?_⟩
  rcases h.cells with ⟨hp, -⟩ | ⟨rest, hp⟩
  · exact .inl ⟨by simp [clear, hp], rfl⟩
  · refine .inr ?_
    cases t with
    | nil => exact ⟨rest, by simp [clear, hp]⟩
    | cons c t => exact ⟨t ++ 0 :: rest, by simp [clear, hp]⟩

/-- **`append`** of a character. -/
theorem append_spec (h : s.Text t) (c : UInt8) :
    ∃ s', s.append c = some s' ∧ s'.Text (t ++ [c]) := by
  have hlen := h.len
  obtain ⟨p, rest, hres, rfl, hcap⟩ := reserve_spec h (s.len + 2) (by omega)
  obtain ⟨b, rest, rfl⟩ : ∃ b rest', rest = b :: rest' := by
    cases rest with
    | nil => simp at hcap; omega
    | cons b rest => exact ⟨b, rest, rfl⟩
  have hput : putCell (t ++ c :: b :: rest) (t.length + 1) 0 = some (t ++ [c] ++ 0 :: rest) := by
    have := putCell_at (x := t ++ [c]) (z := rest) (b := b) (v := 0) (i := t.length + 1) (by simp)
    simpa using this
  refine ⟨⟨t ++ [c] ++ 0 :: rest, t.length + 1⟩, ?_, .of_cells (by simp) rfl⟩
  rw [append, bind_of_some hres, bind_of_some (putCell_append t 0 c (b :: rest)),
    bind_of_some hput]
  rfl

/-- **`append`** of the cells `u`. -/
theorem appendN_spec (h : s.Text t) (u w : List UInt8) :
    ∃ s', s.appendN (u ++ w) u.length = some s' ∧ s'.Text (t ++ u) := by
  have hlen := h.len
  obtain ⟨p, rest, hres, rfl, hcap⟩ := reserve_spec h (s.len + u.length + 1) (by omega)
  -- as many cells as are copied, and one for the `NUL`
  rw [length_append] at hcap
  obtain ⟨y, b, z, hsplit, hy⟩ := exists_cell (a := 0 :: rest) (n := u.length) (by omega)
  have hcopy := copyCells_at (x := t) (z := b :: z) (w := u) (t := w) rfl rfl hy
  have hput : putCell (t ++ (u ++ b :: z)) (t.length + u.length) 0 =
      some (t ++ u ++ 0 :: z) := by
    have := putCell_at (x := t ++ u) (z := z) (b := b) (v := 0) (i := t.length + u.length)
      (by simp)
    simpa using this
  refine ⟨⟨t ++ u ++ 0 :: z, t.length + u.length⟩, ?_, .of_cells (by simp) rfl⟩
  rw [hsplit] at hres
  rw [appendN, bind_of_some hres, bind_of_some hcopy, bind_of_some hput]
  rfl

theorem strlen_eq : ∀ {u w : List UInt8}, (∀ c ∈ u, c ≠ 0) → strlen (u ++ 0 :: w) = some u.length
  | [], w, _ => rfl
  | c :: u, w, h => by
    have ih := strlen_eq (u := u) (w := w) fun d hd => h d (mem_cons_of_mem c hd)
    rw [cons_append, strlen, if_neg (h c mem_cons_self), ih]
    rfl

variable {u : List UInt8}

theorem ne_zero_of_all (h : u.all (· != 0) = true) : ∀ c ∈ u, c ≠ 0 := by
  simpa using h

/-- **`set`** to the characters `u` of a literal. -/
theorem set_spec (h : s.Text t) (hu : ∀ c ∈ u, c ≠ 0) (w : List UInt8) :
    ∃ s', s.set (u ++ 0 :: w) = some s' ∧ s'.Text u := by
  obtain ⟨s', happ, ht⟩ := appendN_spec (clear_spec h) u (0 :: w)
  exact ⟨s', (bind_of_some (strlen_eq hu) _).trans happ, ht⟩

/-- **`assign`.** -/
theorem assign_spec (h : s.Text t) {o : PoviString} (ho : o.Text u) :
    ∃ s', s.assign o = some s' ∧ s'.Text u := by
  obtain ⟨rest, hrest⟩ := ho.cStr
  obtain ⟨s', happ, ht⟩ := appendN_spec (clear_spec h) u (0 :: rest)
  refine ⟨s', ?_, ht⟩
  rw [assign, hrest, ho.len]
  exact happ

theorem clamp_eq {k : ℕ} (hk : k ≤ s.len) : s.clamp k = k := by
  simp [clamp]
  omega

/-- **`insert_at`**: the characters from the index on move up. -/
theorem insertAt_spec {x y : List UInt8} (h : s.Text (x ++ y)) {idx : ℤ} (hidx : idx = x.length)
    (c : UInt8) : ∃ s', s.insertAt idx c = some s' ∧ s'.Text (x ++ c :: y) := by
  have hlen := h.len
  rw [length_append] at hlen
  obtain ⟨p, rest, hres, rfl, hcap⟩ := reserve_spec h (s.len + 2) (by simp; omega)
  obtain ⟨b, rest, rfl⟩ : ∃ b rest', rest = b :: rest' := by
    cases rest with
    | nil => simp at hcap; omega
    | cons b rest => exact ⟨b, rest, rfl⟩
  -- the gap opens over the `NUL`, which is written anew behind the last character
  obtain ⟨d, hshift⟩ := shiftUp_append x y 0 (b :: rest)
  have hput : putCell (x ++ c :: (y ++ b :: rest)) (x.length + y.length + 1) 0 =
      some (x ++ c :: y ++ 0 :: rest) := by
    have := putCell_at (x := x ++ c :: y) (z := rest) (b := b) (v := 0)
      (i := x.length + y.length + 1) (by simp; omega)
    simpa using this
  have hcount : s.len - x.length = y.length := by omega
  refine ⟨⟨x ++ c :: y ++ 0 :: rest, x.length + y.length + 1⟩, ?_, .of_cells (by simp; omega) rfl⟩
  rw [append_assoc, length_append] at hres
  rw [insertAt, hidx, clamp_eq (by omega)]
  simp only [bind_of_some hres, Nat.add_sub_cancel_left, bind_of_some hshift,
    bind_of_some (putCell_append x d c (y ++ b :: rest)), bind_of_some hput]
  rfl

/-- **`erase_at`**: the characters behind the index move down, and the `NUL` with them. -/
theorem eraseAt_spec {x y : List UInt8} {c : UInt8} (h : s.Text (x ++ c :: y)) {idx : ℤ}
    (hidx : idx = x.length) : ∃ s', s.eraseAt idx = some s' ∧ s'.Text (x ++ y) := by
  obtain ⟨p, len⟩ := s
  have hlen : len = (x ++ c :: y).length := h.len
  obtain ⟨rest, hp⟩ : ∃ rest, p = x ++ c :: y ++ 0 :: rest := by
    rcases h.cells with ⟨-, hnil⟩ | hp
    · simp at hnil
    · exact hp
  obtain ⟨d, hshift⟩ := shiftDown_append rest (y ++ [0]) x c
  have hcells : p = x ++ c :: (y ++ [0] ++ rest) := by rw [hp]; simp
  have hcount : len - x.length = (y ++ [0]).length := by rw [hlen]; simp
  refine ⟨⟨x ++ (y ++ [0] ++ d :: rest), len - 1⟩, ?_, .of_cells ?_ (by simp; rfl)⟩
  · rw [eraseAt, if_neg (by simp only [hlen, hidx, length_append, length_cons]; omega),
      hidx, Int.toNat_natCast, hcells, hcount]
    exact bind_of_some hshift _
  · change len - 1 = _
    rw [hlen]
    simp

/-- **`truncate`.** -/
theorem truncate_spec {x y : List UInt8} (h : s.Text (x ++ y)) {n : ℤ} (hn : n = x.length) :
    ∃ s', s.truncate n = some s' ∧ s'.Text x := by
  have hlen := h.len
  rw [length_append] at hlen
  rw [truncate, hn, clamp_eq (by omega)]
  rcases h.cells with ⟨hp, hnil⟩ | ⟨rest, hp⟩
  · obtain ⟨rfl, rfl⟩ := append_eq_nil_iff.mp hnil
    exact ⟨⟨[], 0⟩, by simp [hp], text_empty⟩
  · obtain ⟨b, z, hsplit⟩ : ∃ b z, y ++ 0 :: rest = b :: z := by
      cases y with
      | nil => exact ⟨_, _, rfl⟩
      | cons b y => exact ⟨_, _, rfl⟩
    rw [append_assoc, hsplit] at hp
    refine ⟨⟨x ++ 0 :: z, x.length⟩, ?_, .of_cells rfl rfl⟩
    simp only [hp, if_neg (show ¬ x ++ b :: z = [] by simp)]
    exact bind_of_some (putCell_append x b 0 z) _

/-- **`substr`**: the characters from the index on. -/
theorem substr_spec {x y : List UInt8} (h : s.Text (x ++ y)) {start : ℤ} (hs : start = x.length) :
    ∃ r, s.substr start = some r ∧ r.Text y := by
  have hlen := h.len
  rw [length_append] at hlen
  have hcount : s.len - x.length = y.length := by omega
  rw [substr, hs, clamp_eq (by omega)]
  simp only [hcount]
  rcases h.cells with ⟨hp, hnil⟩ | ⟨rest, hp⟩
  · obtain ⟨rfl, rfl⟩ := append_eq_nil_iff.mp hnil
    rw [if_pos hp]
    exact appendN_spec text_empty [] [0]
  · rw [if_neg (by simp [hp]), hp, append_assoc, drop_left]
    exact appendN_spec text_empty y (0 :: rest)

end PoviString

end PokuOS

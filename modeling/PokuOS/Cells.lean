import Mathlib.Data.List.Induction

/-!
# Loops over the cells of a block

A block of memory cells as a list, with C's element access: reading or writing outside the
block is undefined, which is `none` here. Over it, the three loops that growable arrays are
made of:

* `shiftUp` — open a gap, from the top down;
* `shiftDown` — close a gap, from the bottom up;
* `copyCells` — copy the first cells of another block.

Each is specified on a block that is written as an append, at the place where the loop works:
the lengths in the specification are then the loop's bounds, and there is no index
arithmetic left for callers.
-/

namespace PokuOS

open List Option

universe u

variable {α : Type u}

/-- `a[i] = v`. -/
def putCell (a : List α) (i : ℕ) (v : α) : Option (List α) :=
  if i < a.length then some (a.set i v) else none

/-- `for (i = lo + n; i > lo; i--) a[i] = a[i - 1];` -/
def shiftUp (a : List α) (lo : ℕ) : ℕ → Option (List α)
  | 0 => some a
  | n + 1 => do
    let v ← a[lo + n]?
    let a ← putCell a (lo + n + 1) v
    shiftUp a lo n

/-- `for (i = lo; i < lo + n; i++) a[i] = a[i + 1];` -/
def shiftDown (a : List α) (lo : ℕ) : ℕ → Option (List α)
  | 0 => some a
  | n + 1 => do
    let v ← a[lo + 1]?
    let a ← putCell a lo v
    shiftDown a (lo + 1) n

/-- `for (; n > 0; i++, n--) d[off + i] = s[i];` -/
def copyCells (d : List α) (off : ℕ) (s : List α) (i : ℕ) : ℕ → Option (List α)
  | 0 => some d
  | n + 1 => do
    let v ← s[i]?
    let d ← putCell d (off + i) v
    copyCells d off s (i + 1) n

theorem putCell_append (x : List α) (b v : α) (z : List α) :
    putCell (x ++ b :: z) x.length v = some (x ++ v :: z) := by
  rw [putCell, if_pos (by simp)]
  simp

/-- A write at a given place, which the caller has computed. -/
theorem putCell_at {x z : List α} {b v : α} {i : ℕ} (hi : i = x.length) :
    putCell (x ++ b :: z) i v = some (x ++ v :: z) := by
  rw [hi, putCell_append]

/-- **Opening a gap**: the cells `y` move up by one, over the cell behind them. -/
theorem shiftUp_append (x y : List α) : ∀ (b : α) (z : List α),
    ∃ c, shiftUp (x ++ (y ++ b :: z)) x.length y.length = some (x ++ c :: (y ++ z)) := by
  induction y using reverseRecOn with
  | nil => exact fun b z => ⟨b, rfl⟩
  | append_singleton y v ih =>
    intro b z
    obtain ⟨c, hc⟩ := ih v (v :: z)
    refine ⟨c, ?_⟩
    have hread : (x ++ (y ++ [v] ++ b :: z))[x.length + y.length]? = some v := by
      simp
    have hput : putCell (x ++ (y ++ [v] ++ b :: z)) (x.length + y.length + 1) v =
        some (x ++ (y ++ v :: v :: z)) := by
      have := putCell_at (x := x ++ y ++ [v]) (z := z) (b := b) (v := v)
        (i := x.length + y.length + 1) (by simp; omega)
      simpa using this
    rw [length_append, length_singleton, shiftUp]
    simp only [hread, hput, bind_eq_bind, bind_some, hc]
    simp

/-- **Closing a gap**: the cells `y` move down by one, over the cell before them. -/
theorem shiftDown_append (z : List α) (y : List α) : ∀ (x : List α) (b : α),
    ∃ c, shiftDown (x ++ b :: (y ++ z)) x.length y.length = some (x ++ (y ++ c :: z)) := by
  induction y with
  | nil => exact fun x b => ⟨b, rfl⟩
  | cons v y ih =>
    intro x b
    obtain ⟨c, hc⟩ := ih (x ++ [v]) v
    refine ⟨c, ?_⟩
    have hread : (x ++ b :: (v :: y ++ z))[x.length + 1]? = some v := by
      simp
    rw [length_append, length_singleton] at hc
    rw [length_cons, shiftDown]
    simp only [hread, putCell_append, bind_eq_bind, bind_some]
    simpa using hc

/-- **Copying**: the cells `w` of the source replace as many cells `y`. -/
theorem copyCells_append (x z t w : List α) : ∀ (u y : List α), y.length = w.length →
    copyCells (x ++ (u ++ (y ++ z))) x.length (u ++ (w ++ t)) u.length w.length =
      some (x ++ (u ++ (w ++ z))) := by
  induction w with
  | nil =>
    intro u y hy
    obtain rfl := length_eq_zero_iff.mp hy
    rfl
  | cons v w ih =>
    intro u y hy
    obtain ⟨b, y, rfl⟩ := exists_cons_of_length_eq_add_one hy
    have hread : (u ++ (v :: w ++ t))[u.length]? = some v := by simp
    have hput : putCell (x ++ (u ++ (b :: y ++ z))) (x.length + u.length) v =
        some (x ++ (u ++ (v :: y ++ z))) := by
      have := putCell_at (x := x ++ u) (z := y ++ z) (b := b) (v := v)
        (i := x.length + u.length) (by simp)
      simpa using this
    have hrest := ih (u ++ [v]) y (by simpa using hy)
    rw [length_cons, copyCells]
    simp only [hread, hput, bind_eq_bind, bind_some]
    simpa using hrest

/-- Copying the first cells of a block to a given place of another one. -/
theorem copyCells_at {x y z w t : List α} {off n : ℕ} (hoff : off = x.length) (hn : n = w.length)
    (hy : y.length = n) :
    copyCells (x ++ (y ++ z)) off (w ++ t) 0 n = some (x ++ (w ++ z)) := by
  subst hoff hn
  exact copyCells_append x z t w [] y hy

theorem exists_cell {a : List α} {n : ℕ} (h : n < a.length) :
    ∃ y b z, a = y ++ b :: z ∧ y.length = n := by
  refine ⟨a.take n, a[n], a.drop (n + 1), ?_, ?_⟩
  · rw [getElem_cons_drop, take_append_drop]
  · rw [length_take, Nat.min_eq_left (Nat.le_of_lt h)]

end PokuOS

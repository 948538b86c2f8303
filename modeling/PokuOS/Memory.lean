import Mathlib.Data.List.Basic
import Mathlib.Data.Nat.Bitwise

/-!
# Byte memory and 32-bit words

The memory layer every model of in-band data stands on: memory is a total map from
addresses to bytes, and the machine reads and writes it in little-endian 32-bit words.

* `Mem.load` / `Mem.store` — word access. Distinct 4-aligned words never overlap, so on
  aligned addresses a store behaves like a function update (`Mem.load_store`).
* `Mem.blit` — replacing a whole range (a page that becomes visible, a copied buffer).
* `Mem.SameOff` — two memories agree outside a set of addresses; the relation frame
  conditions are stated with, closed under composition and under enlarging the set.
* `add32` / `sub32` — wrap-around arithmetic on words, with the lemmas that remove the
  wrap once the operands are known to be in range.
* the low two bits of a word, as masks read and write them (`and_four`, `or_four`).
-/

namespace PokuOS

/-! ## Wrap-around arithmetic -/

/-- 32-bit addition. -/
def add32 (a b : ℕ) : ℕ := (a + b) % 2 ^ 32

/-- 32-bit subtraction, for operands below `2 ^ 32`. -/
def sub32 (a b : ℕ) : ℕ := (a + 2 ^ 32 - b) % 2 ^ 32

variable {a : ℕ}

theorem add32_eq {b : ℕ} (h : a + b < 2 ^ 32) : add32 a b = a + b :=
  Nat.mod_eq_of_lt h

theorem sub32_eq {b : ℕ} (ha : a < 2 ^ 32) (h : b ≤ a) : sub32 a b = a - b := by
  unfold sub32
  omega

/-! ## Pages -/

/-- `PAGE_SIZE`. -/
def pageSize : ℕ := 4096

/-- `NUM_PAGES`: the page frames of 64 MiB of physical memory. -/
def numPages : ℕ := 64 * 1024 * 1024 / pageSize

/-! ## Masks on the low bits of a word -/

theorem and_four (a b : ℕ) : a &&& b = 4 * (a / 4 &&& b / 4) + (a % 4 &&& b % 4) := by
  have hdiv : (a &&& b) / 4 = a / 4 &&& b / 4 := Nat.and_div_two_pow (n := 2)
  have hmod : (a &&& b) % 4 = a % 4 &&& b % 4 := Nat.and_mod_two_pow (n := 2)
  rw [← hdiv, ← hmod]
  exact (Nat.div_add_mod _ _).symm

theorem or_four (a b : ℕ) : a ||| b = 4 * (a / 4 ||| b / 4) + (a % 4 ||| b % 4) := by
  have hdiv : (a ||| b) / 4 = a / 4 ||| b / 4 := Nat.or_div_two_pow (n := 2)
  have hmod : (a ||| b) % 4 = a % 4 ||| b % 4 := Nat.or_mod_two_pow (n := 2)
  rw [← hdiv, ← hmod]
  exact (Nat.div_add_mod _ _).symm

/-! ## Memory -/

/-- Byte-addressed memory. -/
abbrev Mem : Type := ℕ → UInt8

namespace Mem

/-- The little-endian 32-bit word at `a`. -/
def load (m : Mem) (a : ℕ) : ℕ :=
  (m a).toNat + 256 * (m (a + 1)).toNat + 65536 * (m (a + 2)).toNat +
    16777216 * (m (a + 3)).toNat

/-- Write the low 32 bits of `v` at `a`, little-endian. -/
def store (m : Mem) (a v : ℕ) : Mem := fun x =>
  if x = a then UInt8.ofNat v
  else if x = a + 1 then UInt8.ofNat (v / 256)
  else if x = a + 2 then UInt8.ofNat (v / 65536)
  else if x = a + 3 then UInt8.ofNat (v / 16777216)
  else m x

/-- Replace the `n` bytes from `a` on by the bytes of `f`. -/
def blit (m : Mem) (a n : ℕ) (f : ℕ → UInt8) : Mem := fun x =>
  if a ≤ x ∧ x < a + n then f (x - a) else m x

theorem load_lt (m : Mem) (a : ℕ) : m.load a < 2 ^ 32 := by
  have h0 := (m a).toNat_lt
  have h1 := (m (a + 1)).toNat_lt
  have h2 := (m (a + 2)).toNat_lt
  have h3 := (m (a + 3)).toNat_lt
  unfold load
  omega

/-- A word is determined by its four bytes. -/
theorem load_congr {m m' : Mem} (h : ∀ x, a ≤ x → x < a + 4 → m' x = m x) :
    m'.load a = m.load a := by
  unfold load
  rw [h a (by omega) (by omega), h (a + 1) (by omega) (by omega),
    h (a + 2) (by omega) (by omega), h (a + 3) (by omega) (by omega)]

theorem store_apply_of_lt_or_ge {m : Mem} {v x : ℕ} (h : x < a ∨ a + 4 ≤ x) :
    m.store a v x = m x := by
  unfold store
  rw [if_neg (by omega), if_neg (by omega), if_neg (by omega), if_neg (by omega)]

theorem load_store_self (m : Mem) (a v : ℕ) : (m.store a v).load a = v % 2 ^ 32 := by
  have hb : ∀ n : ℕ, (UInt8.ofNat n).toNat = n % 256 := fun n => by simp
  simp only [load, store, hb, if_true, Nat.add_right_cancel_iff,
    show ¬ a + 1 = a by omega, show ¬ a + 2 = a by omega, show ¬ a + 3 = a by omega,
    show ¬ a + 2 = a + 1 by omega, show ¬ a + 3 = a + 1 by omega,
    show ¬ a + 3 = a + 2 by omega, if_false]
  omega

theorem load_store_of_disjoint {m : Mem} {b v : ℕ} (h : a + 4 ≤ b ∨ b + 4 ≤ a) :
    (m.store a v).load b = m.load b :=
  load_congr fun _ _ _ => store_apply_of_lt_or_ge (by omega)

/-- **On aligned words a store is a function update.** -/
theorem load_store {m : Mem} {b v : ℕ} (ha : a % 4 = 0) (hb : b % 4 = 0) :
    (m.store a v).load b = if b = a then v % 2 ^ 32 else m.load b := by
  by_cases h : b = a
  · rw [if_pos h, h, load_store_self]
  · rw [if_neg h]
    exact load_store_of_disjoint (by omega)

theorem blit_apply_of_lt_or_ge {m : Mem} {n x : ℕ} {f : ℕ → UInt8} (h : x < a ∨ a + n ≤ x) :
    m.blit a n f x = m x :=
  if_neg (by omega)

/-! ### Agreement outside a set of addresses -/

/-- `m'` has the bytes of `m` everywhere outside `S`. -/
def SameOff (S : Set ℕ) (m m' : Mem) : Prop := ∀ x, x ∉ S → m' x = m x

namespace SameOff

variable {S T : Set ℕ} {m m' m'' : Mem}

theorem refl (S : Set ℕ) (m : Mem) : SameOff S m m := fun _ _ => rfl

theorem trans (h : SameOff S m m') (h' : SameOff S m' m'') : SameOff S m m'' :=
  fun x hx => (h' x hx).trans (h x hx)

theorem mono (h : SameOff S m m') (hST : S ⊆ T) : SameOff T m m' :=
  fun x hx => h x fun hS => hx (hST hS)

/-- A store changes only the four bytes of its word. -/
theorem store {v : ℕ} (h : ∀ x, a ≤ x → x < a + 4 → x ∈ S) : SameOff S m (m.store a v) := by
  intro x hx
  refine store_apply_of_lt_or_ge ?_
  by_contra hcon
  exact hx (h x (by omega) (by omega))

theorem blit {n : ℕ} {f : ℕ → UInt8} (h : ∀ x, a ≤ x → x < a + n → x ∈ S) :
    SameOff S m (m.blit a n f) := by
  intro x hx
  refine blit_apply_of_lt_or_ge ?_
  by_contra hcon
  exact hx (h x (by omega) (by omega))

/-- A word outside the set is read unchanged. -/
theorem load_eq (h : SameOff S m m') (ha : ∀ x, a ≤ x → x < a + 4 → x ∉ S) : m'.load a = m.load a :=
  load_congr fun x hx hx' => h x (ha x hx hx')

end SameOff

end Mem

end PokuOS

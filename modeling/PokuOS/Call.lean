import Mathlib.Data.List.Basic
import PokuOS.Transition

/-!
# Calls that may return `NULL`

A C function with an effect on some state returns a pointer or `NULL`; the effect it has had
stays in either case. `CallM σ α` is that: from a state, nothing at all (the behaviour is
undefined, or the call does not return), or a new state with a result that may be missing.
Sequencing stops at the first `NULL`, the way `if (!p) return NULL;` does.

* `CallM.bind_cases` — what a sequence of two statements has done, if it has returned.
* `CallM.bind_value` / `bind_null` — running one statement of a block.
* `CallM.ReadOnly` — calls that leave the state as it is; closed under sequencing and loops.
-/

namespace PokuOS

open Option

/-- A call on a state `σ`: undefined, or a result that may be `NULL` and the state after it. -/
def CallM (σ α : Type) : Type := σ → Option (Option α × σ)

namespace CallM

variable {σ α β γ : Type}

/-- What follows a statement with this outcome. -/
def andThen (f : α → CallM σ β) : Option α × σ → Option (Option β × σ)
  | (none, s) => some (none, s)
  | (some a, s) => f a s

instance : Monad (CallM σ) where
  pure a := fun s => some (some a, s)
  bind m f := fun s => (m s).bind (andThen f)

/-- Return `NULL`. -/
def null : CallM σ α := fun s => some (none, s)

/-- The state. -/
def get : CallM σ σ := fun s => some (some s, s)

/-- A pointer that may be `NULL`. -/
def ofOption (o : Option α) : CallM σ α := fun s => some (o, s)

/-- A value read from the state; undefined where there is none. -/
def deref (f : σ → Option α) : CallM σ α := fun s => (f s).map fun a => (some a, s)

/-- Return `NULL` unless the condition holds. -/
def check (p : Prop) [Decidable p] : CallM σ Unit := fun s =>
  some (if p then some () else none, s)

/-- Return `NULL` if the call finds something. -/
def absent (m : CallM σ α) : CallM σ Unit := fun s =>
  (m s).map fun r => (if r.1.isSome then none else some (), r.2)

/-- What is undone if the call returns `NULL`. -/
def onNull (m : CallM σ α) (undo : σ → σ) : CallM σ α := fun s =>
  (m s).map fun r => (r.1, if r.1.isSome then r.2 else undo r.2)

/-- Change the state. -/
def modify (f : σ → σ) : CallM σ Unit := fun s => some (some (), f s)

@[simp] theorem pure_apply (a : α) (s : σ) : (pure a : CallM σ α) s = some (some a, s) := rfl

@[simp] theorem null_apply (s : σ) : (null : CallM σ α) s = some (none, s) := rfl

theorem bind_apply (m : CallM σ α) (f : α → CallM σ β) (s : σ) :
    (m >>= f) s = (m s).bind (andThen f) := rfl

/-! ## Running a block -/

variable {m : CallM σ α} {s s' : σ} {a : α}

/-- A statement that returns a value hands it to the rest. -/
theorem bind_value (h : m s = some (some a, s')) (f : α → CallM σ β) : (m >>= f) s = f a s' := by
  rw [bind_apply, h]
  rfl

/-- A statement that returns `NULL` ends the block. -/
theorem bind_null (h : m s = some (none, s')) (f : α → CallM σ β) :
    (m >>= f) s = some (none, s') := by
  rw [bind_apply, h]
  rfl

variable {f : α → CallM σ β} {r : Option β}

/-- **What a block has done**: its first statement returned `NULL`, or a value from which the
rest went on. -/
theorem bind_cases (h : (m >>= f) s = some (r, s')) :
    (m s = some (none, s') ∧ r = none) ∨
      ∃ a s1, m s = some (some a, s1) ∧ f a s1 = some (r, s') := by
  obtain ⟨⟨o, s1⟩, hm, h⟩ := bind_eq_some_iff.mp h
  cases o with
  | none =>
    cases h
    exact .inl ⟨hm, rfl⟩
  | some a => exact .inr ⟨a, s1, hm, h⟩

variable {b : β}

theorem bind_some_cases (h : (m >>= f) s = some (some b, s')) :
    ∃ a s1, m s = some (some a, s1) ∧ f a s1 = some (some b, s') := by
  rcases bind_cases h with ⟨_, hr⟩ | h
  · cases hr
  · exact h

theorem deref_cases {f : σ → Option α} {r : Option α} (h : deref f s = some (r, s')) :
    ∃ a, f s = some a ∧ r = some a ∧ s' = s := by
  obtain ⟨a, ha, h⟩ := map_eq_some_iff.mp h
  cases h
  exact ⟨a, ha, rfl, rfl⟩

theorem deref_apply {f : σ → Option α} (h : f s = some a) : deref f s = some (some a, s) := by
  rw [deref, h]
  rfl

variable {p : Prop}

theorem check_cases [Decidable p] {r : Option Unit} (h : check p s = some (r, s')) :
    s' = s ∧ (r = none ∧ ¬p ∨ r = some () ∧ p) := by
  unfold check at h
  cases h
  by_cases hp : p
  · exact ⟨rfl, .inr ⟨if_pos hp, hp⟩⟩
  · exact ⟨rfl, .inl ⟨if_neg hp, hp⟩⟩

theorem check_pos [Decidable p] (h : p) (s : σ) : check p s = some (some (), s) := by
  rw [check, if_pos h]

theorem check_neg [Decidable p] (h : ¬p) (s : σ) : check p s = some (none, s) := by
  rw [check, if_neg h]

theorem absent_cases {r : Option Unit} (h : absent m s = some (r, s')) :
    (∃ a, m s = some (some a, s') ∧ r = none) ∨ m s = some (none, s') ∧ r = some () := by
  obtain ⟨⟨o, s1⟩, hm, h⟩ := map_eq_some_iff.mp h
  cases h
  cases o with
  | none => exact .inr ⟨hm, rfl⟩
  | some a => exact .inl ⟨a, hm, rfl⟩

theorem onNull_cases {undo : σ → σ} {r : Option α} (h : onNull m undo s = some (r, s')) :
    (∃ s1, m s = some (none, s1) ∧ r = none ∧ s' = undo s1) ∨
      ∃ a, m s = some (some a, s') ∧ r = some a := by
  obtain ⟨⟨o, s1⟩, hm, h⟩ := map_eq_some_iff.mp h
  cases h
  cases o with
  | none => exact .inl ⟨s1, hm, rfl, rfl⟩
  | some a => exact .inr ⟨a, hm, rfl⟩

/-- **A block is defined** if its first statement is, and what follows a value of it. -/
theorem isSome_bind (hm : (m s).isSome) (hf : ∀ a s', m s = some (some a, s') → (f a s').isSome) :
    ((m >>= f) s).isSome := by
  obtain ⟨⟨r, s'⟩, hr⟩ := isSome_iff_exists.mp hm
  cases r with
  | none =>
    rw [bind_null hr]
    rfl
  | some a =>
    rw [bind_value hr]
    exact hf a s' hr

/-! ### Blocks that begin with a test or a read -/

@[simp] theorem get_bind (f : σ → CallM σ β) (s : σ) : (get >>= f) s = f s s := rfl

@[simp] theorem ofOption_some_bind (a : α) (f : α → CallM σ β) (s : σ) :
    (ofOption (some a) >>= f) s = f a s := rfl

@[simp] theorem modify_bind (g : σ → σ) (f : Unit → CallM σ β) (s : σ) :
    (modify g >>= f) s = f () (g s) := rfl

theorem deref_bind {g : σ → Option α} (h : (deref g >>= f) s = some (r, s')) :
    ∃ a, g s = some a ∧ f a s = some (r, s') := by
  rcases bind_cases h with ⟨hg, _⟩ | ⟨a, s1, hg, hf⟩
  · obtain ⟨_, _, hr, _⟩ := deref_cases hg
    cases hr
  · obtain ⟨a', ha, hr, rfl⟩ := deref_cases hg
    cases hr
    exact ⟨a, ha, hf⟩

theorem check_bind [Decidable p] {f : Unit → CallM σ β} (h : (check p >>= f) s = some (r, s')) :
    (¬p ∧ r = none ∧ s' = s) ∨ (p ∧ f () s = some (r, s')) := by
  by_cases hp : p
  · rw [bind_value (check_pos hp s)] at h
    exact .inr ⟨hp, h⟩
  · rw [bind_null (check_neg hp s)] at h
    cases h
    exact .inl ⟨hp, rfl, rfl⟩

theorem check_bind_some [Decidable p] {f : Unit → CallM σ β}
    (h : (check p >>= f) s = some (some b, s')) : p ∧ f () s = some (some b, s') := by
  rcases check_bind h with ⟨_, hr, _⟩ | h
  · cases hr
  · exact h

variable {o : Option α}

theorem ofOption_bind (h : (ofOption o >>= f) s = some (r, s')) :
    (o = none ∧ r = none ∧ s' = s) ∨ ∃ a, o = some a ∧ f a s = some (r, s') := by
  cases o with
  | none =>
    cases h
    exact .inl ⟨rfl, rfl, rfl⟩
  | some a => exact .inr ⟨a, rfl, h⟩

theorem ofOption_bind_some (h : (ofOption o >>= f) s = some (some b, s')) :
    ∃ a, o = some a ∧ f a s = some (some b, s') := by
  rcases ofOption_bind h with ⟨_, hr, _⟩ | h
  · cases hr
  · exact h

/-! ## Calls that only read -/

/-- The call leaves the state as it is. -/
def ReadOnly (m : CallM σ α) : Prop := ∀ ⦃s s' r⦄, m s = some (r, s') → s' = s

theorem readOnly_pure (a : α) : ReadOnly (pure a : CallM σ α) := fun _ _ _ h =>
  (Prod.mk.inj (some.inj h)).2.symm

theorem readOnly_deref (f : σ → Option α) : ReadOnly (deref f) := fun _ _ _ h => by
  obtain ⟨_, _, _, hs⟩ := deref_cases h
  exact hs

theorem readOnly_get : ReadOnly (get : CallM σ σ) := fun _ _ _ h =>
  (Prod.mk.inj (some.inj h)).2.symm

theorem readOnly_ofOption (o : Option α) : ReadOnly (ofOption o : CallM σ α) := fun _ _ _ h =>
  (Prod.mk.inj (some.inj h)).2.symm

theorem readOnly_check (p : Prop) [Decidable p] : ReadOnly (check p : CallM σ Unit) :=
  fun _ _ _ h => (check_cases h).1

theorem ReadOnly.bind (hm : ReadOnly m) (hf : ∀ a, ReadOnly (f a)) : ReadOnly (m >>= f) := by
  intro s s' r h
  rcases bind_cases h with ⟨h, _⟩ | ⟨a, s1, h1, h2⟩
  · exact hm h
  · obtain rfl := hm h1
    exact hf a h2

theorem ReadOnly.absent (hm : ReadOnly m) : ReadOnly (absent m) := by
  intro s s' r h
  rcases absent_cases h with ⟨_, ha, _⟩ | ⟨hnull, _⟩
  · exact hm ha
  · exact hm hnull

/-- A block that begins with a call which only reads. -/
theorem ReadOnly.bind_cases (hm : ReadOnly m) (h : (m >>= f) s = some (r, s')) :
    (m s = some (none, s) ∧ r = none ∧ s' = s) ∨
      ∃ a, m s = some (some a, s) ∧ f a s = some (r, s') := by
  rcases CallM.bind_cases h with ⟨hnull, hr⟩ | ⟨a, s1, ha, hf⟩
  · obtain rfl := hm hnull
    exact .inl ⟨hnull, hr, rfl⟩
  · obtain rfl := hm ha
    exact .inr ⟨a, ha, hf⟩

theorem ReadOnly.bind_some_cases (hm : ReadOnly m) (h : (m >>= f) s = some (some b, s')) :
    ∃ a, m s = some (some a, s) ∧ f a s = some (some b, s') := by
  rcases hm.bind_cases h with ⟨_, hr, _⟩ | h
  · cases hr
  · exact h

/-- **The rule for a loop that only reads.** -/
theorem ReadOnly.foldlM {f : α → γ → CallM σ α} (hf : ∀ a c, ReadOnly (f a c)) (l : List γ) :
    ∀ a, ReadOnly (l.foldlM f a) := by
  induction l with
  | nil => exact readOnly_pure
  | cons c l ih =>
    intro a
    rw [List.foldlM_cons]
    exact (hf a c).bind ih

end CallM

end PokuOS

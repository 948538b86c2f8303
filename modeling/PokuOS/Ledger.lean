import Mathlib.Data.List.Nodup
import Mathlib.Data.Set.Insert
import Mathlib.Logic.Function.Basic

/-!
# A ledger of a pool

Things of some kind are free, or have been taken from the free list, or have an owner. A `Ledger`
says that these are apart: what is on the free list is there once, and it has no owner. It is what
has to be kept for two owners never to share a thing.

* `take`, `give` — from the free list to an owner, by way of `taken`.
* `release`, `putBack` — and back.
* `lose` — nobody has it any more.
-/

namespace PokuOS

open Function List

/-- A value of an updated function is the new one, or was there. -/
theorem update_cases {α β : Type*} [DecidableEq α] {f : α → β} {a x : α} {v y : β}
    (h : update f a v x = y) : x = a ∧ v = y ∨ x ≠ a ∧ f x = y := by
  by_cases hx : x = a
  · subst hx
    exact .inl ⟨rfl, (update_self ..).symm.trans h⟩
  · exact .inr ⟨hx, (update_of_ne hx ..).symm.trans h⟩

variable {α ρ : Type*} {valid taken : Set α} {owner : α → Option ρ} {free : List α}

/-- **What is free, what is taken and what has an owner are apart.** -/
structure Ledger (valid : Set α) (owner : α → Option ρ) (taken : Set α) (free : List α) : Prop where
  /-- nothing is free twice -/
  nodup : free.Nodup
  /-- what is free has no owner -/
  freeNone : ∀ a ∈ free, a ∈ valid ∧ owner a = none
  /-- what is taken is not free, and has no owner -/
  takenNone : ∀ a ∈ taken, a ∈ valid ∧ owner a = none ∧ a ∉ free
  /-- what has an owner is part of the pool -/
  owned : ∀ {a r}, owner a = some r → a ∈ valid

namespace Ledger

variable {a : α} {r : ρ}

theorem take (h : Ledger valid owner taken (a :: free)) :
    Ledger valid owner (insert a taken) free := by
  obtain ⟨hnot, hnodup⟩ := nodup_cons.mp h.nodup
  refine ⟨hnodup, fun b hb => h.freeNone b (mem_cons_of_mem a hb), ?_, h.owned⟩
  rintro b (rfl | hb)
  · obtain ⟨hvalid, hnone⟩ := h.freeNone b mem_cons_self
    exact ⟨hvalid, hnone, hnot⟩
  · obtain ⟨hvalid, hnone, hfree⟩ := h.takenNone b hb
    exact ⟨hvalid, hnone, fun hmem => hfree (mem_cons_of_mem a hmem)⟩

variable (h : Ledger valid owner taken free)
include h

theorem not_mem_free (ha : owner a = some r) : a ∉ free := by
  intro hmem
  cases ha.symm.trans (h.freeNone a hmem).2

theorem not_mem_taken (ha : owner a = some r) : a ∉ taken := by
  intro hmem
  cases ha.symm.trans (h.takenNone a hmem).2.1

/-- Some of what was taken is not used. -/
theorem mono {taken' : Set α} (hsub : taken' ⊆ taken) : Ledger valid owner taken' free :=
  ⟨h.nodup, h.freeNone, fun a ha => h.takenNone a (hsub ha), h.owned⟩

theorem putBack (ha : a ∈ taken) : Ledger valid owner (taken \ {a}) (a :: free) := by
  obtain ⟨hvalid, hnone, hfree⟩ := h.takenNone a ha
  refine ⟨nodup_cons.mpr ⟨hfree, h.nodup⟩, ?_, ?_, h.owned⟩
  · intro b hb
    rcases mem_cons.mp hb with rfl | hb
    · exact ⟨hvalid, hnone⟩
    · exact h.freeNone b hb
  · rintro b ⟨hb, hne⟩
    obtain ⟨hvalid, hnone, hfree⟩ := h.takenNone b hb
    refine ⟨hvalid, hnone, fun hmem => ?_⟩
    exact (mem_cons.mp hmem).elim hne hfree

variable [DecidableEq α]

theorem give (ha : a ∈ taken) (r : ρ) :
    Ledger valid (update owner a (some r)) (taken \ {a}) free := by
  obtain ⟨hvalid, -, hfree⟩ := h.takenNone a ha
  refine ⟨h.nodup, fun b hb => ?_, ?_, fun {b s} hb => ?_⟩
  · have hne : b ≠ a := fun hc => hfree (hc ▸ hb)
    rw [update_of_ne hne]
    exact h.freeNone b hb
  · rintro b ⟨hb, hne⟩
    rw [update_of_ne hne]
    exact h.takenNone b hb
  · by_cases hba : b = a
    · exact hba ▸ hvalid
    · rw [update_of_ne hba] at hb
      exact h.owned hb

theorem lose (a : α) : Ledger valid (update owner a none) taken free := by
  have hnone : ∀ b, owner b = none → update owner a none b = none := by
    intro b hb
    rw [update_apply, hb, ite_self]
  refine ⟨h.nodup, fun b hb => ⟨(h.freeNone b hb).1, hnone b (h.freeNone b hb).2⟩, fun b hb => ?_,
    fun {b s} hb => ?_⟩
  · obtain ⟨hvalid, hb, hfree⟩ := h.takenNone b hb
    exact ⟨hvalid, hnone b hb, hfree⟩
  · rw [update_apply] at hb
    split at hb
    · cases hb
    · exact h.owned hb

/-- **Its owner gives it up**, and it is free. -/
theorem release (ha : owner a = some r) :
    Ledger valid (update owner a none) taken (a :: free) := by
  have hlost := h.lose a
  refine ⟨nodup_cons.mpr ⟨h.not_mem_free ha, h.nodup⟩, fun b hb => ?_, fun b hb => ?_,
    hlost.owned⟩
  · rcases mem_cons.mp hb with rfl | hb
    · exact ⟨h.owned ha, update_self ..⟩
    · exact hlost.freeNone b hb
  · obtain ⟨hvalid, hnone, hfree⟩ := hlost.takenNone b hb
    refine ⟨hvalid, hnone, fun hmem => ?_⟩
    rcases mem_cons.mp hmem with rfl | hmem
    · exact h.not_mem_taken ha hb
    · exact hfree hmem

end Ledger

end PokuOS

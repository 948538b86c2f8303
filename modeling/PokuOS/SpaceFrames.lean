import PokuOS.PageRun
import PokuOS.Teardown

/-!
# The frames of a user part that is being filled

`sys_fork`, `sys_exec` and `spawn_user_process` fill the user part of a new directory page by page.
A teardown finds the frames again by walking that user part. So **a frame that was taken from the
pool and is in no table is lost**, and `map_page` makes one: without a frame for a missing table it
returns, and the frame for the page is nowhere.

* `Vm.Accounted` — every frame of the pool is still free, or in the user part, or lost.
* `Vm.Spared` — when none is lost: there are frames enough, or they run out between two pages.
* `Vm.Accounted.put`, `Vm.Accounted.lose` — a page is mapped, or its frame is lost.
-/

namespace PokuOS

open List Option

namespace Vm

/-- The entries of the user part, as a set. -/
def userIdxs : Set (Fin 1024) := {i | UserIdx i}

section UserFrames

variable {vm vm' : Vm} {g : ℕ}

/-- A frame of the user part is a table, or it is mapped. -/
theorem mem_userFrames_lookup : g ∈ vm.userFrames ↔
    (∃ i, UserIdx i ∧ ∃ e ∈ vm.entry vm.cr3 i, g = e.frame) ∨
      ∃ va, UserIdx (pdIdx va) ∧ ∃ p ∈ vm.lookup va, g = p.frame := by
  rw [mem_userFrames]
  constructor
  · rintro ⟨i, hi, e, he, hg | ⟨j, p, hp, hg⟩⟩
    · exact .inl ⟨i, hi, e, he, hg⟩
    · refine .inr ⟨i.val * 2 ^ 22 + j.val * 2 ^ 12, ?_, p, ?_, hg⟩
      · rw [pdIdx_page]
        exact hi
      · rw [lookup, pdIdx_page, ptIdx_page, mem_def]
        exact bind_eq_some_iff.mpr ⟨e, he, hp⟩
  · rintro (⟨i, hi, e, he, hg⟩ | ⟨va, hva, p, hp, hg⟩)
    · exact ⟨i, hi, e, he, .inl hg⟩
    · obtain ⟨e, he, hp⟩ := bind_eq_some_iff.mp hp
      exact ⟨pdIdx va, hva, e, he, .inr ⟨ptIdx va, p, hp, hg⟩⟩

/-- The user part is what its tables and pages are. -/
theorem mem_userFrames_congr (hdir : ∀ i, UserIdx i → vm'.entry vm'.cr3 i = vm.entry vm.cr3 i)
    (hlookup : ∀ va, UserIdx (pdIdx va) → vm'.lookup va = vm.lookup va) :
    g ∈ vm'.userFrames ↔ g ∈ vm.userFrames := by
  rw [mem_userFrames_lookup, mem_userFrames_lookup]
  refine or_congr (exists_congr fun i => and_congr_right fun hi => ?_)
    (exists_congr fun va => and_congr_right fun hva => ?_)
  · rw [hdir i hi]
  · rw [hlookup va hva]

/-- **A page that is mapped adds its frame, and that of its table.** -/
theorem PagePut.mem_userFrames {S : Set (Fin 1024)} {user : Bool} {vaddr f : ℕ} {used : List ℕ}
    (h : PagePut S user vaddr f used vm vm') (hS : ∀ i, UserIdx i → i ∈ S)
    (hva : UserIdx (pdIdx vaddr)) (hnew : vm.lookup vaddr = none) :
    g ∈ vm'.userFrames ↔ g ∈ vm.userFrames ∨ g = f ∨ g ∈ used := by
  rw [mem_userFrames_lookup, mem_userFrames_lookup, h.cr3]
  constructor
  · rintro (⟨i, hi, e, he, rfl⟩ | ⟨va, hva', p, hp, rfl⟩)
    · cases hold : vm.entry vm.cr3 i with
      | none =>
        rw [h.linked i e he hold]
        exact .inr (.inr (mem_singleton_self _))
      | some e0 =>
        have heq : e0 = e := some.inj ((h.kept i e0 hold).symm.trans he)
        exact .inl (.inl ⟨i, hi, e, heq ▸ hold, rfl⟩)
    · by_cases hsame : pdIdx va = pdIdx vaddr ∧ ptIdx va = ptIdx vaddr
      · rw [lookup_congr hsame.1 hsame.2, h.self] at hp
        rw [← some.inj hp]
        exact .inr (.inl rfl)
      · rw [h.other va (hS _ hva') (Classical.not_and_iff_not_or_not.mp hsame)] at hp
        exact .inl (.inr ⟨va, hva', p, hp, rfl⟩)
  · rintro ((⟨i, hi, e, he, rfl⟩ | ⟨va, hva', p, hp, rfl⟩) | rfl | hused)
    · exact .inl ⟨i, hi, e, h.kept i e he, rfl⟩
    · refine .inr ⟨va, hva', p, ?_, rfl⟩
      rw [h.other va (hS _ hva') (Classical.not_and_iff_not_or_not.mp fun hsame => ?_)]
      · exact hp
      · rw [lookup_congr hsame.1 hsame.2, hnew] at hp
        cases hp
    · exact .inr ⟨vaddr, hva, _, h.self, rfl⟩
    · have hnone : vm.entry vm.cr3 (pdIdx vaddr) = none := by
        by_contra hc
        have hlen := h.used_eq
        rw [if_neg hc, length_eq_zero_iff] at hlen
        rw [hlen] at hused
        cases hused
      cases hlinked : vm'.entry vm.cr3 (pdIdx vaddr) with
      | none => exact absurd rfl ((h.present _).mp hlinked).2
      | some e =>
        rw [h.linked _ e hlinked hnone, mem_singleton] at hused
        exact .inl ⟨_, hva, e, hlinked, hused⟩

end UserFrames

/-! ## The account -/

/-- **Every frame of the pool is accounted for**: it is free, or in the user part, or lost. -/
structure Accounted (pool lost : List ℕ) (vm : Vm) : Prop where
  /-- the free frames are apart from the tables -/
  pooled : Pooled userIdxs vm
  /-- where the frames are -/
  mem_pool : ∀ g, g ∈ pool ↔ g ∈ vm.freeq ∨ g ∈ vm.userFrames ∨ g ∈ lost
  /-- what is in use is not free -/
  apart : ∀ g ∈ vm.userFrames, g ∉ vm.freeq
  /-- what is lost is neither -/
  astray : ∀ g ∈ lost, g ∉ vm.freeq ∧ g ∉ vm.userFrames

/-- **No frame is lost** when these pages are mapped: there are enough for the pages and their
tables, or all are used up when a page is done. -/
def Spared (vm : Vm) (vs : List ℕ) : Prop :=
  vs.length + (vm.missing vs).card ≤ vm.freeq.length ∨
    ∃ m ≤ vs.length, m + (vm.missing (vs.take m)).card = vm.freeq.length

instance (vm : Vm) (vs : List ℕ) : Decidable (vm.Spared vs) :=
  inferInstanceAs (Decidable (_ ∨ _))

section Account

variable {pool lost : List ℕ} {vm vm' : Vm} {user : Bool} {vaddr f : ℕ} {used : List ℕ}

/-- What does not touch free frames and the user part. -/
theorem Accounted.of_eq (h : Accounted pool lost vm) (hpooled : Pooled userIdxs vm')
    (hfree : vm'.freeq = vm.freeq) (huser : ∀ g, g ∈ vm'.userFrames ↔ g ∈ vm.userFrames) :
    Accounted pool lost vm' := by
  refine ⟨hpooled, fun g => ?_, fun g hg => ?_, fun g hg => ?_⟩
  · rw [hfree, huser]
    exact h.mem_pool g
  · rw [hfree]
    exact h.apart g ((huser g).mp hg)
  · rw [hfree, huser]
    exact h.astray g hg

/-- The account says nothing about the pressure flag. -/
theorem Accounted.pressed (h : Accounted pool lost vm) (b : Bool) :
    Accounted pool lost { vm with pressure := b } := by
  refine h.of_eq ⟨h.pooled.nodup, h.pooled.cr3, h.pooled.table, h.pooled.distinct⟩ rfl ?_
  exact fun g => mem_userFrames_congr (fun _ _ => rfl) fun _ _ => rfl

section

variable (h : Accounted pool lost vm) (hput : PagePut userIdxs user vaddr f used vm vm')
  (hva : UserIdx (pdIdx vaddr))
include h hput hva

/-- **A page is mapped.** -/
theorem Accounted.put (hnew : vm.lookup vaddr = none) : Accounted pool lost vm' := by
  have huser : ∀ g, g ∈ vm'.userFrames ↔ g ∈ vm.userFrames ∨ g = f ∨ g ∈ used := fun g =>
    hput.mem_userFrames (fun _ hi => hi) hva hnew
  have hfree : ∀ g, g ∈ vm.freeq ↔ g = f ∨ g ∈ used ∨ g ∈ vm'.freeq := fun g => by
    rw [hput.freeq, mem_cons, mem_append]
  have hnodup := h.pooled.nodup
  rw [hput.freeq, nodup_cons, nodup_append] at hnodup
  obtain ⟨hf, -, -, hused⟩ := hnodup
  have hnot : ∀ g, g = f ∨ g ∈ used → g ∉ vm'.freeq := by
    rintro g (rfl | hg) hc
    · exact hf (mem_append_right _ hc)
    · exact hused g hg g hc rfl
  refine ⟨hput.pooled, fun g => ?_, fun g hg => ?_, fun g hg => ?_⟩
  · rw [h.mem_pool, hfree, huser]
    generalize (g ∈ vm.userFrames) = inUse
    tauto
  · rcases (huser g).mp hg with hold | hg
    · exact fun hc => h.apart g hold ((hfree g).mpr (.inr (.inr hc)))
    · exact hnot g hg
  · obtain ⟨hfree', huser'⟩ := h.astray g hg
    rw [hfree, not_or, not_or] at hfree'
    obtain ⟨hne, hnot', hrest⟩ := hfree'
    rw [huser, not_or, not_or]
    exact ⟨hrest, huser', hne, hnot'⟩

/-- Frames that are not of the pool are not written to. -/
theorem Accounted.untouched {g : ℕ} (hg : g ∉ pool) (hcr3 : g ≠ vm.cr3) :
    vm'.entry g = vm.entry g := by
  rw [h.mem_pool, not_or, not_or] at hg
  obtain ⟨hfree, huser, -⟩ := hg
  refine hput.untouched g hcr3 hfree fun e he hc => huser ?_
  exact mem_userFrames_lookup.mpr (.inl ⟨_, hva, e, he, hc⟩)

end

/-- **The last frame is taken for a page, and there is none for the table.** -/
theorem Accounted.lose (h : Accounted pool [] vm) (hfree : vm.freeq = [f]) (refs : ℕ → ℕ) :
    Accounted pool [f] { vm with freeq := [], refCount := refs } := by
  have huser : ∀ g, g ∈ ({ vm with freeq := [], refCount := refs } : Vm).userFrames ↔
      g ∈ vm.userFrames := fun g => mem_userFrames_congr (fun _ _ => rfl) fun _ _ => rfl
  refine ⟨h.pooled.take hfree refs, fun g => ?_, fun g _ => not_mem_nil, fun g hg => ?_⟩
  · rw [h.mem_pool, huser, hfree, mem_singleton]
    simp only [not_mem_nil, or_false, false_or]
    exact or_comm
  · rw [huser]
    refine ⟨not_mem_nil, fun hc => h.apart g hc ?_⟩
    rw [hfree]
    exact hg

/-- What a page that is mapped leaves for the others. -/
theorem PagePut.spared_iff {S : Set (Fin 1024)} (h : PagePut S user vaddr f used vm vm')
    (vs : List ℕ) : vm.Spared (vaddr :: vs) ↔ vm'.Spared vs := by
  have hlen : vm.freeq.length = used.length + vm'.freeq.length + 1 := by
    rw [h.freeq, length_cons, length_append]
  have hall := h.card_missing vs
  refine or_congr ?_ ⟨?_, ?_⟩
  · rw [length_cons]
    omega
  · rintro ⟨m, hm, hcost⟩
    cases m with
    | zero =>
      have hnil : (vm.missing ((vaddr :: vs).take 0)).card = 0 := rfl
      omega
    | succ m =>
      have hcard := h.card_missing (vs.take m)
      rw [take_succ_cons, hcard] at hcost
      exact ⟨m, Nat.le_of_succ_le_succ hm, by omega⟩
  · rintro ⟨m, hm, hcost⟩
    have hcard := h.card_missing (vs.take m)
    refine ⟨m + 1, Nat.succ_le_succ hm, ?_⟩
    rw [take_succ_cons, hcard]
    omega

/-- A page whose table cannot be had costs its frame. -/
theorem not_spared (hfree : vm.freeq = [f]) (hnone : vm.entry vm.cr3 (pdIdx vaddr) = none)
    (vs : List ℕ) : ¬vm.Spared (vaddr :: vs) := by
  have hpos : ∀ ws : List ℕ, 0 < (vm.missing (vaddr :: ws)).card := fun ws =>
    Finset.card_pos.mpr ⟨pdIdx vaddr, mem_missing.mpr ⟨by simp, hnone⟩⟩
  have hlen : vm.freeq.length = 1 := by rw [hfree]; rfl
  rintro (henough | ⟨m, -, hcost⟩)
  · have := hpos vs
    rw [length_cons] at henough
    omega
  · cases m with
    | zero =>
      have hnil : (vm.missing ((vaddr :: vs).take 0)).card = 0 := rfl
      omega
    | succ m =>
      have := hpos (vs.take m)
      rw [take_succ_cons] at hcost
      omega

theorem spared_of_freeq_nil (hfree : vm.freeq = []) (vs : List ℕ) : vm.Spared vs := by
  refine .inr ⟨0, Nat.zero_le _, ?_⟩
  rw [hfree]
  rfl

end Account

end Vm

end PokuOS

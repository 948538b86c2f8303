import PokuOS.ForkCopy

/-!
# What a teardown gives back

`teardown_current_pd` walks the user part of the loaded directory and frees every page, every
table, and at last the directory. A frame is freed through `free_page_frame`, which counts
references; where no count is above one, every call frees.

* `Vm.userFrames` — the frames of the user part, in the order they are freed.
* `Vm.freeq_teardown` — **the free list afterwards**: all these frames and the directory, in front
  of what was free before.
-/

namespace PokuOS

open Function List

/-- `_free_phys_page` takes back this frame. -/
def inPool (f : ℕ) : Bool := decide (pageStartIndex ≤ f) && decide (f < numPages)

namespace Vm

/-! ## Giving frames back -/

/-- `free_page_frame` for some frames. -/
def giveBack (vm : Vm) (fs : List ℕ) : Vm := fs.foldl freePageFrame vm

section GiveBack

variable {vm : Vm}

/-- A frame with at most one reference is freed. -/
theorem freePageFrame_eq_of_le {f : ℕ} (h : vm.refCount f ≤ 1) :
    (vm.freePageFrame f).freeq = (if inPool f then [f] else []) ++ vm.freeq ∧
      ∀ g, (vm.freePageFrame f).refCount g ≤ vm.refCount g := by
  have hphys : ∀ vm : Vm, (vm.freePhysPage f).freeq = (if inPool f then [f] else []) ++ vm.freeq ∧
      (vm.freePhysPage f).refCount = vm.refCount := by
    intro vm
    simp only [freePhysPage, inPool, Bool.and_eq_true, decide_eq_true_eq]
    split <;> exact ⟨rfl, rfl⟩
  unfold freePageFrame
  split
  · have hzero : (vm.setRefCount f (vm.refCount f - 1)).refCount f = 0 := by
      simp only [setRefCount, update_self]
      omega
    simp only [hzero, Nat.lt_irrefl, if_false]
    refine ⟨(hphys _).1, fun g => ?_⟩
    rw [(hphys _).2]
    by_cases hg : g = f
    · rw [hg, hzero]
      exact Nat.zero_le _
    · exact (update_of_ne hg ..).le
  · exact ⟨(hphys vm).1, fun g => (congrFun (hphys vm).2 g).le⟩

/-- **Frames with at most one reference each are all freed.** -/
theorem giveBack_eq (fs : List ℕ) : ∀ {vm : Vm}, (∀ f ∈ fs, vm.refCount f ≤ 1) →
    (vm.giveBack fs).freeq = (fs.filter inPool).reverse ++ vm.freeq ∧
      ∀ g, (vm.giveBack fs).refCount g ≤ vm.refCount g := by
  induction fs with
  | nil => exact fun _ => ⟨rfl, fun _ => le_rfl⟩
  | cons f fs ih =>
    intro vm h
    obtain ⟨hfree, hrefs⟩ := freePageFrame_eq_of_le (h f mem_cons_self)
    have hrest : ∀ g ∈ fs, (vm.freePageFrame f).refCount g ≤ 1 := fun g hg =>
      (hrefs g).trans (h g (mem_cons_of_mem _ hg))
    obtain ⟨hfree', hrefs'⟩ := ih hrest
    refine ⟨?_, fun g => (hrefs' g).trans (hrefs g)⟩
    rw [giveBack, foldl_cons]
    refine hfree'.trans ?_
    rw [hfree, filter_cons]
    split <;> simp

theorem giveBack_entry (fs : List ℕ) : ∀ vm : Vm,
    (vm.giveBack fs).entry = vm.entry ∧ (vm.giveBack fs).cr3 = vm.cr3 := by
  induction fs with
  | nil => exact fun vm => ⟨rfl, rfl⟩
  | cons f fs ih =>
    intro vm
    obtain ⟨hentry, hcr3⟩ := ih (vm.freePageFrame f)
    exact ⟨hentry.trans (entry_freePageFrame ..), hcr3.trans (cr3_freePageFrame ..)⟩

theorem giveBack_append (fs gs : List ℕ) : vm.giveBack (fs ++ gs) = (vm.giveBack fs).giveBack gs :=
  foldl_append

end GiveBack

/-! ## The user part -/

/-- The frames of table `i`: its pages, and the table. -/
def tableFrames (vm : Vm) (i : Fin 1024) : List ℕ :=
  match vm.entry vm.cr3 i with
  | none => []
  | some pde =>
    ((List.finRange 1024).filterMap fun j => (vm.entry pde.frame j).map Pte.frame) ++ [pde.frame]

/-- **The frames of the user part**, in the order they are freed. -/
def userFrames (vm : Vm) : List ℕ := userEntries.flatMap vm.tableFrames

section Teardown

variable {vm vm' : Vm}

/-- A frame of the user part is a table or a page. -/
theorem mem_userFrames {f : ℕ} : f ∈ vm.userFrames ↔
    ∃ i, UserIdx i ∧ ∃ e ∈ vm.entry vm.cr3 i,
      f = e.frame ∨ ∃ j, ∃ p ∈ vm.entry e.frame j, f = p.frame := by
  simp only [userFrames, mem_flatMap, mem_userEntries]
  refine exists_congr fun i => and_congr_right fun _ => ?_
  cases he : vm.entry vm.cr3 i with
  | none => simp [tableFrames, he]
  | some e =>
    simp only [tableFrames, he, mem_append, mem_filterMap, mem_finRange, true_and,
      Option.map_eq_some_iff, mem_singleton, Option.mem_def, Option.some.injEq,
      exists_eq_left', or_comm (a := f = e.frame)]
    refine or_congr_left (exists_congr fun j => exists_congr fun p => and_congr_right fun _ => ?_)
    exact eq_comm

theorem foldl_freeWord_eq (l : List (Fin 1024)) (g : ℕ) : ∀ vm : Vm,
    l.foldl (fun vm j => vm.freeWord (vm.entry g j)) vm =
      vm.giveBack (l.filterMap fun j => (vm.entry g j).map Pte.frame) := by
  induction l with
  | nil => exact fun vm => rfl
  | cons j l ih =>
    intro vm
    rw [foldl_cons, ih]
    cases hj : vm.entry g j with
    | none => simp [freeWord, hj]
    | some p =>
      have hentry : (vm.freeWord (some p)).entry = vm.entry := entry_freePageFrame ..
      rw [hentry, filterMap_cons, hj]
      rfl

theorem setEntry_self {g : ℕ} {i : Fin 1024} (h : vm.entry g i = none) :
    vm.setEntry g i none = vm := by
  have hwords : update (vm.entry g) i none = vm.entry g := by
    rw [← h, update_eq_self]
  simp only [setEntry, hwords, update_eq_self]

theorem freeTable_eq (vm : Vm) (i : Fin 1024) :
    vm.freeTable i = (vm.giveBack (vm.tableFrames i)).setEntry vm.cr3 i none := by
  unfold freeTable tableFrames
  cases he : vm.entry vm.cr3 i with
  | none => exact (setEntry_self he).symm
  | some e =>
    simp only
    rw [foldl_freeWord_eq, giveBack_append]
    simp only [(giveBack_entry _ vm).2]
    rfl

/-- Giving frames back does not look at the tables. -/
theorem giveBack_setEntry (fs : List ℕ) (g : ℕ) (i : Fin 1024) (e : Option Pte) : ∀ vm : Vm,
    (vm.setEntry g i e).giveBack fs = (vm.giveBack fs).setEntry g i e := by
  induction fs with
  | nil => exact fun vm => rfl
  | cons f fs ih =>
    intro vm
    exact (congrArg (giveBack · fs) (freePageFrame_setEntry ..)).trans (ih _)

/-- Another table is not touched by a round of the outer loop. -/
theorem tableFrames_freeTable {i i' : Fin 1024} (hne : i' ≠ i)
    (hframe : ∀ e ∈ vm.entry vm.cr3 i', e.frame ≠ vm.cr3) :
    (vm.freeTable i).tableFrames i' = vm.tableFrames i' := by
  have hcr3 := cr3_freeTable vm i
  have hword : (vm.freeTable i).entry vm.cr3 i' = vm.entry vm.cr3 i' := by
    rw [freeTable_eq, entry_setEntry, if_neg fun hc => hne hc.2, (giveBack_entry _ vm).1]
  simp only [tableFrames, hcr3, hword]
  cases he : vm.entry vm.cr3 i' with
  | none => rfl
  | some e => simp only [entry_freeTable vm i (hframe e he)]

/-- **The loops of `teardown_current_pd`** free the frames of some tables, and clear their entries
in the directory. -/
theorem foldl_freeTable_eq (l : List (Fin 1024)) : ∀ {vm : Vm}, l.Nodup →
    (∀ i ∈ l, ∀ e ∈ vm.entry vm.cr3 i, e.frame ≠ vm.cr3) →
    (l.foldl freeTable vm).freeq = (vm.giveBack (l.flatMap vm.tableFrames)).freeq ∧
      (l.foldl freeTable vm).refCount = (vm.giveBack (l.flatMap vm.tableFrames)).refCount ∧
      (l.foldl freeTable vm).cr3 = vm.cr3 ∧
      ∀ f i, (l.foldl freeTable vm).entry f i =
        if f = vm.cr3 ∧ i ∈ l then none else vm.entry f i := by
  induction l with
  | nil => exact fun _ _ => ⟨rfl, rfl, rfl, fun f i => by simp⟩
  | cons i l ih =>
    intro vm hnodup htables
    obtain ⟨hi, hnodup⟩ := nodup_cons.mp hnodup
    have hne : ∀ i' ∈ l, i' ≠ i := fun i' hi' hc => hi (hc ▸ hi')
    have hcr3 := cr3_freeTable vm i
    have hentry : ∀ f i', (vm.freeTable i).entry f i' =
        if f = vm.cr3 ∧ i' = i then none else vm.entry f i' := by
      intro f i'
      rw [freeTable_eq, entry_setEntry, (giveBack_entry _ vm).1]
    have hrest : l.flatMap (vm.freeTable i).tableFrames = l.flatMap vm.tableFrames := by
      refine flatMap_congr fun i' hi' => ?_
      exact tableFrames_freeTable (hne i' hi') (htables i' (mem_cons_of_mem _ hi'))
    have htables' : ∀ i' ∈ l, ∀ e ∈ (vm.freeTable i).entry (vm.freeTable i).cr3 i',
        e.frame ≠ (vm.freeTable i).cr3 := by
      intro i' hi' e he
      rw [hcr3] at he ⊢
      rw [hentry, if_neg fun hc => hne i' hi' hc.2] at he
      exact htables i' (mem_cons_of_mem _ hi') e he
    obtain ⟨hfree, hrefs, hcr3', hentry'⟩ := ih hnodup htables'
    have hback : (vm.freeTable i).giveBack (l.flatMap vm.tableFrames) =
        (vm.giveBack ((i :: l).flatMap vm.tableFrames)).setEntry vm.cr3 i none := by
      rw [freeTable_eq, giveBack_setEntry, flatMap_cons, giveBack_append]
    rw [hrest, hback] at hfree hrefs
    rw [foldl_cons]
    refine ⟨hfree, hrefs, hcr3'.trans hcr3, fun f i' => ?_⟩
    rw [hentry', hcr3, hentry]
    by_cases hf : f = vm.cr3
    · by_cases hl : i' ∈ l
      · simp [hf, hl]
      · by_cases hii : i' = i <;> simp [hf, hl, hii]
    · simp [hf]

/-- **The free list after a teardown.** -/
theorem freeq_teardown (pd target : ℕ) (htables : ∀ i, UserIdx i → ∀ e ∈ vm.entry vm.cr3 i,
      e.frame ≠ vm.cr3) (hrefs : ∀ f ∈ vm.userFrames ++ [pd], vm.refCount f ≤ 1) :
    (vm.teardownCurrentPd pd target).freeq =
      ((vm.userFrames ++ [pd]).filter inPool).reverse ++ vm.freeq := by
  obtain ⟨hfree, hcount, -, -⟩ := foldl_freeTable_eq userEntries nodup_userEntries fun i hi =>
    htables i (mem_userEntries.mp hi)
  rw [← userFrames] at hfree hcount
  obtain ⟨hback, hle⟩ := giveBack_eq vm.userFrames fun f hf => hrefs f (mem_append_left _ hf)
  rw [teardownCurrentPd]
  generalize userEntries.foldl freeTable vm = vm1 at hfree hcount
  have hpd : (vm1.loadCr3 target).refCount pd ≤ 1 := by
    have hrefs' : (vm1.loadCr3 target).refCount = (vm.giveBack vm.userFrames).refCount := hcount
    rw [hrefs']
    exact (hle pd).trans (hrefs pd (by simp))
  have hfree' : (vm1.loadCr3 target).freeq = _ := hfree.trans hback
  rw [(freePageFrame_eq_of_le hpd).1, hfree', filter_append, reverse_append,
    append_assoc]
  cases hpool : inPool pd <;> simp [hpool]

/-- A frame that is not given back keeps its count. -/
theorem refCount_giveBack (fs : List ℕ) {g : ℕ} (hg : g ∉ fs) : ∀ vm : Vm,
    (vm.giveBack fs).refCount g = vm.refCount g := by
  induction fs with
  | nil => exact fun _ => rfl
  | cons f fs ih =>
    intro vm
    have hne : g ≠ f := fun hc => hg (hc ▸ mem_cons_self)
    have hstep : (vm.freePageFrame f).refCount g = vm.refCount g := by
      have hphys : ∀ vm : Vm, (vm.freePhysPage f).refCount = vm.refCount := fun vm => by
        unfold freePhysPage
        split <;> rfl
      unfold freePageFrame
      split
      · dsimp only
        split
        · exact update_of_ne hne ..
        · rw [hphys]
          exact update_of_ne hne ..
      · rw [hphys]
    exact (ih (fun hc => hg (mem_cons_of_mem _ hc)) _).trans hstep

/-- **The teardown of a directory is exact**: its frames are free, each once, and nothing else has
changed. -/
structure TornDown (vm : Vm) (pd target : ℕ) (vm' : Vm) : Prop where
  /-- the frames of the user part and the directory are on the free list, each once -/
  back : ∃ back, vm'.freeq = back ++ vm.freeq ∧ back.Perm (vm.userFrames ++ [pd])
  /-- the other directory is loaded -/
  loaded : vm'.cr3 = target
  /-- the user part is empty -/
  cleared : ∀ i, UserIdx i → vm'.entry pd i = none
  /-- no other word of a directory or table is written -/
  kept : ∀ f i, ¬(f = pd ∧ UserIdx i) → vm'.entry f i = vm.entry f i
  /-- nor is another frame's count -/
  counts : ∀ f ∉ vm.userFrames ++ [pd], vm'.refCount f = vm.refCount f

/-- The parts of a teardown that do not depend on counts. -/
theorem entry_teardown (target : ℕ) (htables : ∀ i, UserIdx i → ∀ e ∈ vm.entry vm.cr3 i,
      e.frame ≠ vm.cr3) :
    (vm.teardownCurrentPd vm.cr3 target).cr3 = target ∧
      (∀ i, UserIdx i → (vm.teardownCurrentPd vm.cr3 target).entry vm.cr3 i = none) ∧
      (∀ f i, ¬(f = vm.cr3 ∧ UserIdx i) →
        (vm.teardownCurrentPd vm.cr3 target).entry f i = vm.entry f i) ∧
      ∀ f ∉ vm.userFrames ++ [vm.cr3],
        (vm.teardownCurrentPd vm.cr3 target).refCount f = vm.refCount f := by
  obtain ⟨-, hcount, -, hentry⟩ := foldl_freeTable_eq userEntries nodup_userEntries fun i hi =>
    htables i (mem_userEntries.mp hi)
  rw [← userFrames] at hcount
  rw [teardownCurrentPd]
  generalize userEntries.foldl freeTable vm = vm1 at hcount hentry
  have hword : ∀ f i, ((vm1.loadCr3 target).freePageFrame vm.cr3).entry f i = vm1.entry f i :=
    fun f i => by rw [entry_freePageFrame, entry_loadCr3]
  refine ⟨cr3_freePageFrame .., fun i hi => ?_, fun f i hne => ?_, fun f hf => ?_⟩
  · rw [hword, hentry, if_pos ⟨rfl, mem_userEntries.mpr hi⟩]
  · rw [hword, hentry, if_neg fun hc => hne ⟨hc.1, mem_userEntries.mp hc.2⟩]
  · have hone := refCount_giveBack [vm.cr3] (fun hc => hf (mem_append_right _ hc))
      (vm1.loadCr3 target)
    have hall := refCount_giveBack vm.userFrames (fun hc => hf (mem_append_left _ hc)) vm
    have hmid : (vm1.loadCr3 target).refCount f = (vm.giveBack vm.userFrames).refCount f :=
      congrFun hcount f
    exact hone.trans (hmid.trans hall)

/-- **A teardown is exact just if all the frames are such as `_free_phys_page` takes back.** -/
theorem tornDown_iff (target : ℕ) (hnodup : (vm.userFrames ++ [vm.cr3]).Nodup)
    (hrefs : ∀ f ∈ vm.userFrames ++ [vm.cr3], vm.refCount f ≤ 1) :
    TornDown vm vm.cr3 target (vm.teardownCurrentPd vm.cr3 target) ↔
      ∀ f ∈ vm.userFrames ++ [vm.cr3], inPool f := by
  have htables : ∀ i, UserIdx i → ∀ e ∈ vm.entry vm.cr3 i, e.frame ≠ vm.cr3 := by
    intro i hi e he hc
    have hmem : e.frame ∈ vm.userFrames := mem_userFrames.mpr ⟨i, hi, e, he, .inl rfl⟩
    exact (nodup_append.mp hnodup).2.2 _ hmem _ (mem_singleton_self _) hc
  have hfree := freeq_teardown vm.cr3 target htables hrefs
  obtain ⟨hloaded, hcleared, hkept, hcounts⟩ := entry_teardown target htables
  constructor
  · rintro ⟨⟨back, hback, hperm⟩, -, -, -, -⟩ f hf
    rw [hfree] at hback
    obtain rfl := append_cancel_right hback
    have hmem := hperm.mem_iff.mpr hf
    rw [mem_reverse, mem_filter] at hmem
    exact hmem.2
  · intro hpool
    refine ⟨⟨_, hfree, ?_⟩, hloaded, hcleared, hkept, hcounts⟩
    rw [filter_eq_self.mpr hpool]
    exact reverse_perm _

end Teardown

end Vm

end PokuOS

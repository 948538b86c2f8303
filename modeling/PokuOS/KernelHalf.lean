import PokuOS.AddressSpace
import PokuOS.ElfConfined
import PokuOS.Transition

/-!
# The kernel's half of all address spaces

Every page directory starts with a copy of the kernel's entries of the loaded one. After that
each has its own: `map_page` writes a missing page table into the loaded directory only.
Directories agree on the kernel's half as long as no kernel table is installed while there is
another directory.
-/

namespace PokuOS

open Function List

/-! ## The system -/

/-- Page tables, and the directories in use. -/
structure Spaces where
  /-- frames and tables -/
  vm : Vm
  /-- the directories -/
  live : List ℕ

/-- What happens to the kernel's half. -/
inductive SpaceEvent where
  /-- `paging_create_task_pd` -/
  | create
  /-- `load_cr3` -/
  | switch (pd : ℕ)
  /-- `map_page` -/
  | map (vaddr frame : ℕ) (user : Bool)
  /-- `unmap_page` -/
  | unmap (vaddr : ℕ)
  | expandHeap (vaddr : ℕ)

/-- The static tables are frames of their own, which are never free. -/
structure StaticTables.Apart (tables : StaticTables) : Prop where
  /-- the directory is below the free frames -/
  dirLow : tables.pageDirectory < pageStartIndex
  /-- so is the first table -/
  tableLow : tables.pageTable0 < pageStartIndex
  /-- so are the tables of the physical map -/
  physmapLow : ∀ j, tables.physmap j < pageStartIndex
  /-- the first table is not the directory -/
  table : tables.pageTable0 ≠ tables.pageDirectory
  /-- nor is a table of the physical map -/
  physmap : ∀ j, tables.physmap j ≠ tables.pageDirectory

/-- `expand_heap`, on the page tables. -/
def Vm.expandHeap (vm : Vm) (vaddr : ℕ) : Vm :=
  match vm.allocPageFrame with
  | (none, vm) => vm
  | (some f, vm) => vm.mapPage vaddr f false

/-- Directories are made and loaded, and the kernel's range is mapped, from `paging_init` on. -/
def spaceSystem : System Spaces SpaceEvent where
  init st := ∃ tables : StaticTables, tables.Apart ∧ st.vm = pagingInit tables ∧
    st.live = [tables.pageDirectory]
  allowed st
    | .create => True
    | .switch pd => pd ∈ st.live
    | .map vaddr _ _ => vaddr ∈ kernelRange
    | .unmap vaddr => vaddr ∈ kernelRange
    | .expandHeap vaddr => vaddr ∈ kernelRange
  step st
    | .create => (st.vm.pagingCreateTaskPd).map fun (pd, vm) => ⟨vm, pd.toList ++ st.live⟩
    | .switch pd => some { st with vm := st.vm.loadCr3 pd }
    | .map vaddr frame user => some { st with vm := st.vm.mapPage vaddr frame user }
    | .unmap vaddr => some { st with vm := st.vm.unmapPage vaddr }
    | .expandHeap vaddr => some { st with vm := st.vm.expandHeap vaddr }

/-- `map_page` would install a table for this address. -/
def Vm.installs (vm : Vm) (vaddr : ℕ) : Bool :=
  (vm.entry vm.cr3 (pdIdx vaddr)).isNone && !vm.freeq.isEmpty

/-- No other directory is in use. -/
def Spaces.Alone (st : Spaces) : Prop := ∀ pd ∈ st.live, pd = st.vm.cr3

/-- The event installs no table while another directory is in use. -/
def SpaceEvent.Shared (st : Spaces) : SpaceEvent → Prop
  | .create => st.vm.allocPageFrame.2.installs 0xE0002000 = true → st.Alone
  | .map vaddr _ _ => st.vm.installs vaddr = true → st.Alone
  | .expandHeap vaddr => st.vm.allocPageFrame.2.installs vaddr = true → st.Alone
  | _ => True

/-! ## The invariant -/

/-- All directories agree with the loaded one, and no kernel table is free or one of the frames
`dirs`, the directories in use and one that is being made. -/
structure Agrees (dirs : List ℕ) (st : Spaces) : Prop where
  /-- the loaded directory is in use -/
  cr3 : st.vm.cr3 ∈ st.live
  /-- directories in use are directories -/
  live : ∀ pd ∈ st.live, pd ∈ dirs
  /-- no frame is free twice -/
  nodup : st.vm.freeq.Nodup
  /-- no directory is free -/
  dirFree : ∀ pd ∈ dirs, pd ∉ st.vm.freeq
  /-- no kernel table is free -/
  tableFree : ∀ i, KernelIdx i → ∀ e ∈ st.vm.entry st.vm.cr3 i, e.frame ∉ st.vm.freeq
  /-- no kernel table is a directory -/
  tableDir : ∀ i, KernelIdx i → ∀ e ∈ st.vm.entry st.vm.cr3 i, e.frame ∉ dirs
  /-- the directories agree -/
  agree : ∀ pd ∈ st.live, ∀ i, KernelIdx i → st.vm.entry pd i = st.vm.entry st.vm.cr3 i

namespace Agrees

variable {st : Spaces} {vm : Vm} {dirs : List ℕ}

variable (h : Agrees dirs st)
include h

/-- Directories keep their entries, and no more frames are free. -/
theorem kept (hcr3 : vm.cr3 = st.vm.cr3) (hfree : vm.freeq.Sublist st.vm.freeq)
    (hdir : ∀ pd ∈ st.live, vm.entry pd = st.vm.entry pd) : Agrees dirs { st with vm := vm } := by
  have hloaded : vm.entry vm.cr3 = st.vm.entry st.vm.cr3 := by
    rw [hcr3]
    exact hdir _ h.cr3
  refine ⟨?_, h.live, h.nodup.sublist hfree,
    fun pd hpd hmem => h.dirFree pd hpd (hfree.subset hmem), ?_, ?_, fun pd hpd i hi => ?_⟩
  · rw [hcr3]
    exact h.cr3
  · rw [hloaded]
    exact fun i hi e he hmem => h.tableFree i hi e he (hfree.subset hmem)
  · rw [hloaded]
    exact h.tableDir
  · rw [hdir pd hpd, hloaded]
    exact h.agree pd hpd i hi

theorem switch {pd : ℕ} (hpd : pd ∈ st.live) : Agrees dirs { st with vm := st.vm.loadCr3 pd } := by
  have hsame := h.agree pd hpd
  refine ⟨hpd, h.live, h.nodup, h.dirFree, fun i hi e he => ?_, fun i hi e he => ?_,
    fun pd' hpd' i hi => (h.agree pd' hpd' i hi).trans (hsame i hi).symm⟩
  · exact h.tableFree i hi e (hsame i hi ▸ he)
  · exact h.tableDir i hi e (hsame i hi ▸ he)

/-- A frame taken off the free list may become a directory. -/
theorem alloc_some {f : ℕ} (hf : st.vm.allocPageFrame = (some f, vm)) :
    Agrees (f :: dirs) { st with vm := vm } ∧ f ∉ st.live := by
  unfold Vm.allocPageFrame at hf
  rcases st.vm.allocPhysPage_cases with ⟨halloc, -⟩ | ⟨g, freeq, hfree, halloc⟩
  · rw [halloc] at hf
    cases (Prod.mk.inj hf).1
  rw [halloc] at hf
  obtain ⟨rfl, hvm⟩ : g = f ∧ vm.freeq = freeq ∧ vm.cr3 = st.vm.cr3 ∧ vm.entry = st.vm.entry := by
    obtain ⟨hg, rfl⟩ := Prod.mk.inj hf
    refine ⟨Option.some.inj hg, ?_⟩
    split <;> exact ⟨rfl, rfl, rfl⟩
  obtain ⟨hfreeq, hcr3, hentry⟩ := hvm
  have hmem : g ∈ st.vm.freeq := hfree ▸ mem_cons_self
  have hnodup := h.nodup
  rw [hfree, nodup_cons] at hnodup
  have hkept : Agrees dirs { st with vm := vm } := by
    refine h.kept hcr3 ?_ fun pd _ => by rw [hentry]
    rw [hfreeq, hfree]
    exact sublist_cons_self _ _
  refine ⟨⟨hkept.cr3, fun pd hpd => mem_cons_of_mem _ (hkept.live pd hpd), hkept.nodup,
    fun pd hpd => ?_, hkept.tableFree, fun i hi e he hdir => ?_, hkept.agree⟩,
    fun hlive => h.dirFree g (h.live g hlive) hmem⟩
  · rcases mem_cons.mp hpd with rfl | hpd
    · rw [hfreeq]
      exact hnodup.1
    · exact hkept.dirFree pd hpd
  · rcases mem_cons.mp hdir with hdir | hdir
    · refine h.tableFree i hi e ?_ (hdir ▸ hmem)
      rw [← hentry, ← hcr3]
      exact he
    · exact hkept.tableDir i hi e he hdir

theorem alloc_none (hf : st.vm.allocPageFrame = (none, vm)) : Agrees dirs { st with vm := vm } := by
  unfold Vm.allocPageFrame at hf
  rcases st.vm.allocPhysPage_cases with ⟨halloc, -⟩ | ⟨g, freeq, hfree, halloc⟩
  · rw [halloc] at hf
    obtain rfl := (Prod.mk.inj hf).2
    exact h.kept rfl (List.Sublist.refl _) fun _ _ => rfl
  · rw [halloc] at hf
    cases (Prod.mk.inj hf).1

theorem setEntry {i : Fin 1024} (hi : KernelIdx i) {pde : Pte}
    (hpde : st.vm.entry st.vm.cr3 i = some pde) (j : Fin 1024) (e : Option Pte) :
    Agrees dirs { st with vm := st.vm.setEntry pde.frame j e } := by
  refine h.kept rfl (List.Sublist.refl _) fun pd hpd => funext fun k => ?_
  have hne : pd ≠ pde.frame := by
    rintro rfl
    exact h.tableDir i hi pde hpde (h.live _ hpd)
  rw [Vm.entry_setEntry, if_neg fun hc => hne hc.1]

variable {vaddr : ℕ}

theorem unmapPage (hva : vaddr ∈ kernelRange) :
    Agrees dirs { st with vm := st.vm.unmapPage vaddr } := by
  unfold Vm.unmapPage
  cases hpde : st.vm.entry st.vm.cr3 (pdIdx vaddr) with
  | none => exact h
  | some pde => exact h.setEntry (kernelIdx_pdIdx hva) hpde _ none

theorem install (halone : st.Alone) {i : Fin 1024} {pt : ℕ} {freeq : List ℕ}
    (hfree : st.vm.freeq = pt :: freeq) (j : Fin 1024) (pte : Pte) :
    Agrees dirs { st with vm := ((({ st.vm with freeq := freeq } : Vm).setEntry st.vm.cr3 i
      (some ⟨pt, true, true⟩)).clearTable pt).setEntry pt j (some pte) } := by
  have hnodup := h.nodup
  rw [hfree, nodup_cons] at hnodup
  have hpt : pt ∈ st.vm.freeq := hfree ▸ mem_cons_self
  have hne : st.vm.cr3 ≠ pt := fun hc => h.dirFree _ (h.live _ h.cr3) (hc ▸ hpt)
  have hsub : ∀ f ∈ freeq, f ∈ st.vm.freeq := fun f hf => hfree ▸ mem_cons_of_mem _ hf
  -- the entries of the directory after the change
  have hentry : ∀ k, (((({ st.vm with freeq := freeq } : Vm).setEntry st.vm.cr3 i
      (some ⟨pt, true, true⟩)).clearTable pt).setEntry pt j (some pte)).entry st.vm.cr3 k =
      if k = i then some ⟨pt, true, true⟩ else st.vm.entry st.vm.cr3 k := by
    intro k
    rw [Vm.entry_setEntry, if_neg fun hc => hne hc.1, Vm.entry_clearTable, if_neg hne,
      Vm.entry_setEntry]
    simp only [true_and]
  have hcases : ∀ k e, (if k = i then some ⟨pt, true, true⟩ else st.vm.entry st.vm.cr3 k) = some e →
      e.frame = pt ∨ st.vm.entry st.vm.cr3 k = some e := by
    intro k e he
    split at he
    · exact .inl (congrArg Pte.frame (Option.some.inj he)).symm
    · exact .inr he
  refine ⟨h.cr3, h.live, hnodup.2, fun pd hpd hmem => h.dirFree pd hpd (hsub pd hmem), ?_, ?_, ?_⟩
  · intro k hk e he hmem
    rcases hcases k e ((hentry k).symm.trans he) with hnew | hold
    · exact hnodup.1 (hnew ▸ hmem)
    · exact h.tableFree k hk e hold (hsub _ hmem)
  · intro k hk e he hmem
    rcases hcases k e ((hentry k).symm.trans he) with hnew | hold
    · exact h.dirFree pt (hnew ▸ hmem) hpt
    · exact h.tableDir k hk e hold hmem
  · intro pd hpd k _
    rw [halone pd hpd]
    rfl

/-- **`map_page` in the kernel's range.** -/
theorem mapPage (hva : vaddr ∈ kernelRange) (frame : ℕ) (user : Bool)
    (hshared : st.vm.installs vaddr = true → st.Alone) :
    Agrees dirs { st with vm := st.vm.mapPage vaddr frame user } := by
  unfold Vm.mapPage
  cases hpde : st.vm.entry st.vm.cr3 (pdIdx vaddr) with
  | some pde => exact h.setEntry (kernelIdx_pdIdx hva) hpde _ _
  | none =>
    rcases st.vm.allocPhysPage_cases with ⟨halloc, -⟩ | ⟨pt, freeq, hfree, halloc⟩
    · simp only [halloc]
      exact h
    · simp only [halloc]
      refine h.install (hshared ?_) hfree _ _
      rw [Vm.installs, hpde, hfree]
      rfl

theorem drop {dirs' : List ℕ} (hlive : ∀ pd ∈ st.live, pd ∈ dirs')
    (hsub : ∀ pd ∈ dirs', pd ∈ dirs) : Agrees dirs' st :=
  ⟨h.cr3, hlive, h.nodup, fun pd hpd => h.dirFree pd (hsub pd hpd), h.tableFree,
    fun i hi e he hmem => h.tableDir i hi e he (hsub _ hmem), h.agree⟩

theorem alloc_map {f : ℕ} (hva : vaddr ∈ kernelRange)
    (hshared : st.vm.allocPageFrame.2.installs vaddr = true → st.Alone)
    (halloc : st.vm.allocPageFrame = (some f, vm)) :
    Agrees (f :: dirs) { st with vm := vm.mapPage vaddr f false } := by
  have hnext : Agrees (f :: dirs) { st with vm := vm } := (h.alloc_some halloc).1
  refine hnext.mapPage hva f false fun hinstalls pd hpd => ?_
  have hcr3 := st.vm.cr3_allocPageFrame
  rw [halloc] at hshared hcr3
  exact (hshared hinstalls pd hpd).trans hcr3.symm

theorem expandHeap (hva : vaddr ∈ kernelRange)
    (hshared : st.vm.allocPageFrame.2.installs vaddr = true → st.Alone) :
    Agrees dirs { st with vm := st.vm.expandHeap vaddr } := by
  unfold Vm.expandHeap
  rcases halloc : st.vm.allocPageFrame with ⟨f, vm⟩
  cases f with
  | none => exact h.alloc_none halloc
  | some f =>
    exact (h.alloc_map hva hshared halloc).drop h.live fun pd hpd => mem_cons_of_mem _ hpd

omit h in
theorem fill {pd : ℕ} (h : Agrees (pd :: st.live) st) (hpd : pd ∉ st.live) :
    Agrees (pd :: st.live)
      ⟨{ st.vm with entry := update st.vm.entry pd (st.vm.newDirectory pd) },
        pd :: st.live⟩ := by
  have hsame : ∀ pd' ∈ st.live,
      update st.vm.entry pd (st.vm.newDirectory pd) pd' = st.vm.entry pd' := by
    intro pd' hpd'
    refine update_of_ne ?_ _ _
    rintro rfl
    exact hpd hpd'
  have hkept : Agrees (pd :: st.live)
      ⟨{ st.vm with entry := update st.vm.entry pd (st.vm.newDirectory pd) }, st.live⟩ :=
    h.kept rfl (List.Sublist.refl _) hsame
  refine ⟨mem_cons_of_mem _ h.cr3, fun _ h => h, h.nodup, h.dirFree, hkept.tableFree,
    hkept.tableDir, fun pd' hpd' i hi => ?_⟩
  rcases mem_cons.mp hpd' with rfl | hpd'
  · -- the kernel's part of the new directory is a copy
    simp only [update_self, hsame _ h.cr3]
    unfold Vm.newDirectory
    rw [if_neg, if_pos]
    · unfold KernelIdx at hi
      omega
    · unfold KernelIdx at hi
      omega
  · exact hkept.agree pd' hpd' i hi

omit h in
theorem create (h : Agrees st.live st)
    (hshared : st.vm.allocPageFrame.2.installs 0xE0002000 = true → st.Alone) :
    Post (spaceSystem.step st .create) fun st' => Agrees st'.live st' := by
  have hva : 0xE0002000 ∈ kernelRange := .inr ⟨by decide, by decide⟩
  refine Post.map (P := fun r => Agrees (r.1.toList ++ st.live) ⟨r.2, r.1.toList ++ st.live⟩) ?_
    fun _ h => h
  unfold Vm.pagingCreateTaskPd
  rcases halloc : st.vm.allocPageFrame with ⟨pd, vm⟩
  cases pd with
  | none => exact .some (h.alloc_none halloc)
  | some pd =>
    simp only
    split
    · have hmap : Agrees (pd :: st.live) ⟨vm.mapPage 0xE0002000 pd false, st.live⟩ :=
        h.alloc_map hva hshared halloc
      have hfill := @fill ⟨vm.mapPage 0xE0002000 pd false, st.live⟩ pd hmap (h.alloc_some halloc).2
      exact .some (hfill.unmapPage hva)
    · exact .none

omit h in
theorem init (h : spaceSystem.init st) : Agrees st.live st := by
  obtain ⟨tables, hapart, hvm, hlive⟩ := h
  obtain ⟨vm, live⟩ := st
  simp only at hvm hlive
  subst hvm hlive
  -- static frames are not on the free list, which starts with the first 4 MiB behind us
  have hfree : ∀ f, f < pageStartIndex → f ∉ (pagingInit tables).freeq := by
    intro f hf hmem
    obtain ⟨i, -, rfl⟩ := mem_range'.mp hmem
    omega
  have htable : ∀ i, KernelIdx i → ∀ e ∈ (pagingInit tables).entry tables.pageDirectory i,
      e.frame < pageStartIndex ∧ e.frame ≠ tables.pageDirectory := by
    intro i hi e he
    have he : (pagingInit tables).entry tables.pageDirectory i = some e := he
    simp only [pagingInit, if_true] at he
    split at he
    · cases he
      exact ⟨hapart.tableLow, hapart.table⟩
    split at he
    · rename_i hlast
      unfold KernelIdx at hi
      omega
    split at he
    · cases he
      exact ⟨hapart.physmapLow _, hapart.physmap _⟩
    · cases he
  refine ⟨mem_singleton.mpr rfl, fun _ h => h, nodup_range', fun pd hpd => ?_,
    fun i hi e he => hfree _ (htable i hi e he).1, fun i hi e he hmem => ?_, fun pd hpd i _ => ?_⟩
  · rw [mem_singleton.mp hpd]
    exact hfree _ hapart.dirLow
  · exact (htable i hi e he).2 (mem_singleton.mp hmem)
  · rw [mem_singleton.mp hpd]
    rfl

omit h in
theorem step (h : Agrees st.live st) {e : SpaceEvent} (hallowed : spaceSystem.allowed st e)
    (hshared : e.Shared st) : Post (spaceSystem.step st e) fun st' => Agrees st'.live st' := by
  cases e with
  | create => exact h.create hshared
  | switch pd => exact .some (h.switch hallowed)
  | map vaddr frame user => exact .some (h.mapPage hallowed frame user hshared)
  | unmap vaddr => exact .some (h.unmapPage hallowed)
  | expandHeap vaddr => exact .some (h.expandHeap hallowed hshared)

end Agrees

/-- The runs in which no kernel table is installed while another directory is in use. -/
abbrev sharedSystem : System Spaces SpaceEvent := spaceSystem.restrict fun st e => e.Shared st

/-- **The kernel's half agrees.** In every run in which no kernel table is installed while another
directory is in use, all directories have the same entries for the kernel, and translate the
kernel's addresses alike. -/
theorem kernel_half_agrees {st : Spaces} (h : sharedSystem.Reachable st) {pd pd' : ℕ}
    (hpd : pd ∈ st.live) (hpd' : pd' ∈ st.live) :
    (∀ i, KernelIdx i → st.vm.entry pd i = st.vm.entry pd' i) ∧
    ∀ vaddr ∈ kernelRange, (st.vm.loadCr3 pd).lookup vaddr = (st.vm.loadCr3 pd').lookup vaddr := by
  have hinv : Agrees st.live st := by
    refine System.Reachable.invariant (S := sharedSystem) (I := fun st => Agrees st.live st)
      (fun _ hinit => .init hinit) ?_ h
    rintro st e st' hst ⟨hallowed, hshared⟩ hstep
    exact hst.step hallowed hshared st' hstep
  have hagree : ∀ i, KernelIdx i → st.vm.entry pd i = st.vm.entry pd' i :=
    fun i hi => (hinv.agree pd hpd i hi).trans (hinv.agree pd' hpd' i hi).symm
  refine ⟨hagree, fun vaddr hva => ?_⟩
  unfold Vm.lookup
  rw [Vm.cr3_loadCr3, Vm.cr3_loadCr3, Vm.entry_loadCr3, Vm.entry_loadCr3,
    hagree _ (kernelIdx_pdIdx hva)]

/-! ## Two runs -/

instance (vaddr : ℕ) : Decidable (vaddr ∈ kernelRange) :=
  inferInstanceAs (Decidable (vaddr < 0x00400000 ∨ 0xC0000000 ≤ vaddr ∧ vaddr < 0xFFC00000))

instance (st : Spaces) : ∀ e : SpaceEvent, Decidable (spaceSystem.allowed st e)
  | .create => inferInstanceAs (Decidable True)
  | .switch pd => inferInstanceAs (Decidable (pd ∈ st.live))
  | .map vaddr _ _ => inferInstanceAs (Decidable (vaddr ∈ kernelRange))
  | .unmap vaddr => inferInstanceAs (Decidable (vaddr ∈ kernelRange))
  | .expandHeap vaddr => inferInstanceAs (Decidable (vaddr ∈ kernelRange))

instance (st : Spaces) : Decidable st.Alone := inferInstanceAs (Decidable (∀ pd ∈ st.live, _))

instance (st : Spaces) : ∀ e : SpaceEvent, Decidable (e.Shared st)
  | .create =>
    inferInstanceAs (Decidable (st.vm.allocPageFrame.2.installs 0xE0002000 = true → st.Alone))
  | .switch _ => inferInstanceAs (Decidable True)
  | .map vaddr _ _ => inferInstanceAs (Decidable (st.vm.installs vaddr = true → st.Alone))
  | .unmap _ => inferInstanceAs (Decidable True)
  | .expandHeap vaddr =>
    inferInstanceAs (Decidable (st.vm.allocPageFrame.2.installs vaddr = true → st.Alone))

/-- Static tables. -/
def someTables : StaticTables := ⟨300, 301, fun j => 302 + j.val⟩

/-- The machine after `paging_init`. -/
def spaceInit : Spaces := ⟨pagingInit someTables, [300]⟩

theorem init_spaceInit : spaceSystem.init spaceInit := by
  refine ⟨someTables, ⟨by decide, by decide, by decide, by decide, by decide⟩, rfl, rfl⟩

/-- The heap's first page, then a task's directory, which is loaded. -/
def firstTask : List SpaceEvent := [.expandHeap 0xD0000000, .create, .switch 1026]

/-- The heap grows within its first 4 MiB while the task's directory is loaded: the kernel's
directory sees the page. -/
theorem kernel_half_agrees_heap :
    ∃ st, sharedSystem.Reachable st ∧ st.live = [1026, 300] ∧ st.vm.cr3 = 1026 ∧
      (st.vm.loadCr3 300).lookup 0xD0001000 = some ⟨1028, true, false⟩ := by
  obtain ⟨st, hreach, hlive, hcr3, hlookup⟩ := System.exists_reachable (S := sharedSystem)
    (fun st e => spaceSystem.allowed st e ∧ e.Shared st) (firstTask ++ [.expandHeap 0xD0001000])
    (fun st => st.live = [1026, 300] ∧ st.vm.cr3 = 1026 ∧
      (st.vm.loadCr3 1026).lookup 0xD0001000 = some ⟨1028, true, false⟩)
    (fun _ _ => id) (.init init_spaceInit) (by decide +kernel)
  have hkernel : 300 ∈ st.live := by rw [hlive]; decide
  have htask : 1026 ∈ st.live := by rw [hlive]; decide
  have hagree := (kernel_half_agrees hreach hkernel htask).2 0xD0001000 (by decide)
  exact ⟨st, hreach, hlive, hcr3, hagree.trans hlookup⟩

/-- **The heap grows over a 4 MiB boundary while a task's directory is loaded**: the kernel's
directory does not have the new table. -/
theorem kernel_half_differs :
    ∃ st, spaceSystem.Reachable st ∧ 1026 ∈ st.live ∧ 300 ∈ st.live ∧ KernelIdx 833 ∧
      (st.vm.entry 1026 833).isSome = true ∧ st.vm.entry 300 833 = none ∧
      ((st.vm.loadCr3 1026).lookup 0xD0400000).isSome = true ∧
      (st.vm.loadCr3 300).lookup 0xD0400000 = none := by
  obtain ⟨st, hreach, hpd, hpd', hrest⟩ := System.exists_reachable (S := spaceSystem)
    spaceSystem.allowed (firstTask ++ [.expandHeap 0xD0400000])
    (fun st => 1026 ∈ st.live ∧ 300 ∈ st.live ∧
      (st.vm.entry 1026 833).isSome = true ∧ st.vm.entry 300 833 = none ∧
      ((st.vm.loadCr3 1026).lookup 0xD0400000).isSome = true ∧
      (st.vm.loadCr3 300).lookup 0xD0400000 = none)
    (fun _ _ => id) (.init init_spaceInit) (by decide +kernel)
  exact ⟨st, hreach, hpd, hpd', .inr ⟨by decide, by decide⟩, hrest⟩

end PokuOS

import Mathlib.Order.Interval.Finset.Nat
import PokuOS.Owners

/-!
# Address spaces and the ledger of the frames

What makes, copies, fills and takes down the page tables of a task keeps the ledger.

* `Owned.createTaskPd` — a new directory is in use; `Owned.copyPages`, `Owned.elfLoad`,
  `Owned.faultCow`, `Owned.spawnProtect` — the loaded one is filled and changed.
* `Owned.teardown` — **a directory that is taken down is not in use any more**: all its frames are
  free, or nobody's.
-/

namespace PokuOS

open Function List Option Set Vm

theorem Vm.freePhysPage_setEntry (vm : Vm) (f g : ℕ) (j : Fin 1024) (e : Option Pte) :
    (vm.setEntry g j e).freePhysPage f = (vm.freePhysPage f).setEntry g j e := by
  unfold freePhysPage
  split <;> rfl

theorem Vm.freePageFrame_setEntry (vm : Vm) (f g : ℕ) (j : Fin 1024) (e : Option Pte) :
    (vm.setEntry g j e).freePageFrame f = (vm.freePageFrame f).setEntry g j e := by
  have hcount : ∀ n, (vm.setEntry g j e).setRefCount f n = (vm.setRefCount f n).setEntry g j e :=
    fun _ => rfl
  have href : ∀ vm : Vm, (vm.setEntry g j e).refCount = vm.refCount := fun _ => rfl
  unfold freePageFrame
  simp only [hcount, href]
  split
  · split
    · rfl
    · exact freePhysPage_setEntry ..
  · exact freePhysPage_setEntry ..

/-! ## Reference counts -/

theorem Vm.Counted.setRefCount {vm : Vm} (h : vm.Counted) (f : ℕ) {n : ℕ} (hn : n ≤ 1) :
    (vm.setRefCount f n).Counted := by
  intro g
  by_cases hg : g = f
  · rw [hg]
    exact (update_self ..).le.trans hn
  · exact (update_of_ne hg ..).le.trans (h g)

theorem Vm.Counted.freePageFrame {vm : Vm} (h : vm.Counted) (f : ℕ) :
    (vm.freePageFrame f).Counted := by
  have hphys : ∀ {vm : Vm}, vm.Counted → (vm.freePhysPage f).Counted := by
    intro vm h
    unfold freePhysPage
    split <;> exact h
  have hless := h.setRefCount f ((Nat.sub_le _ 1).trans (h f))
  unfold Vm.freePageFrame
  split
  · dsimp only
    split
    · exact hless
    · exact hphys hless
  · exact hphys h

/-! ## The user part -/

theorem mem_userEntries {i : Fin 1024} : i ∈ userEntries ↔ UserIdx i := by
  simp [userEntries, UserIdx]

theorem nodup_userEntries : userEntries.Nodup := (nodup_finRange 1024).filter _

theorem pdIdx_page (i j : Fin 1024) : pdIdx (i.val * 2 ^ 22 + j.val * 2 ^ 12) = i := by
  refine Fin.ext ?_
  rw [pdIdx_val]
  omega

theorem ptIdx_page (i j : Fin 1024) : ptIdx (i.val * 2 ^ 22 + j.val * 2 ^ 12) = j := by
  refine Fin.ext ?_
  have hval : (ptIdx (i.val * 2 ^ 22 + j.val * 2 ^ 12)).val =
      (i.val * 2 ^ 22 + j.val * 2 ^ 12) / 2 ^ 12 % 1024 := rfl
  rw [hval]
  omega

namespace Vm

variable {vm : Vm}

/-- **The pages that are listed** are those of the tables of the user part. -/
theorem mem_userPages {p : ℕ × Pte} : p ∈ vm.userPages ↔ ∃ i j e, UserIdx i ∧
    vm.entry vm.cr3 i = some e ∧ vm.entry e.frame j = some p.2 ∧
    p.1 = i.val * 2 ^ 22 + j.val * 2 ^ 12 := by
  simp only [userPages, mem_flatMap, mem_userEntries, tablePages]
  constructor
  · rintro ⟨i, hi, hp⟩
    split at hp
    · cases hp
    rename_i e he
    obtain ⟨j, -, hj⟩ := mem_filterMap.mp hp
    obtain ⟨pte, hpte, rfl⟩ := map_eq_some_iff.mp hj
    exact ⟨i, j, e, hi, he, hpte, rfl⟩
  · obtain ⟨va, pte⟩ := p
    rintro ⟨i, j, e, hi, he, hpte, rfl⟩
    refine ⟨i, hi, ?_⟩
    simp only [he, mem_filterMap, map_eq_some_iff]
    exact ⟨j, mem_finRange _, pte, hpte, rfl⟩

theorem lookup_of_userPages {p : ℕ × Pte} (hp : p ∈ vm.userPages) :
    UserIdx (pdIdx p.1) ∧ vm.lookup p.1 = some p.2 := by
  obtain ⟨i, j, e, hi, he, hpte, hp⟩ := mem_userPages.mp hp
  rw [lookup, hp, pdIdx_page, ptIdx_page, he]
  exact ⟨hi, hpte⟩

/-- **They are all the pages.** -/
theorem exists_userPage {vaddr : ℕ} (hva : UserIdx (pdIdx vaddr)) {pte : Pte}
    (h : vm.lookup vaddr = some pte) :
    ∃ p ∈ vm.userPages, pdIdx p.1 = pdIdx vaddr ∧ ptIdx p.1 = ptIdx vaddr := by
  obtain ⟨e, he, hpte⟩ := bind_eq_some_iff.mp h
  exact ⟨(_, pte), mem_userPages.mpr ⟨_, _, e, hva, he, hpte, rfl⟩, pdIdx_page .., ptIdx_page ..⟩

theorem pairwise_userPages (vm : Vm) : (vm.userPages.map Prod.fst).Pairwise fun v w =>
    pdIdx v ≠ pdIdx w ∨ ptIdx v ≠ ptIdx w := by
  have hmem : ∀ i, ∀ p ∈ vm.tablePages i, pdIdx p.1 = i := by
    intro i p hp
    unfold tablePages at hp
    split at hp
    · cases hp
    · obtain ⟨j, -, hj⟩ := mem_filterMap.mp hp
      obtain ⟨pte, -, rfl⟩ := map_eq_some_iff.mp hj
      exact pdIdx_page i j
  rw [pairwise_map, userPages, pairwise_flatMap]
  refine ⟨fun i _ => ?_, nodup_userEntries.imp fun hne p hp q hq => .inl ?_⟩
  · unfold tablePages
    split
    · exact List.Pairwise.nil
    · refine List.Pairwise.filterMap _ ?_ (nodup_finRange 1024)
      intro j j' hne p hp q hq
      obtain ⟨_, -, rfl⟩ := map_eq_some_iff.mp hp
      obtain ⟨_, -, rfl⟩ := map_eq_some_iff.mp hq
      right
      rw [ptIdx_page, ptIdx_page]
      exact hne
  · rw [hmem _ p hp, hmem _ q hq]
    exact hne

end Vm

namespace Owned

variable {owner : ℕ → Option Owner} {h : Holders} {vm vm' : Vm} {f : ℕ}

/-! ## Taking frames -/

theorem loadCr3 (ho : Owned owner h vm) (pd : ℕ) : Owned owner h (vm.loadCr3 pd) :=
  ho.of_eq rfl rfl id

theorem alloc (ho : Owned owner h vm) (halloc : vm.allocPageFrame = (some f, vm')) :
    Owned owner { h with taken := insert f h.taken } vm' ∧ f ∉ h.taken ∧ f ∉ h.dirs ∧
      pageStartIndex ≤ f ∧ vm'.cr3 = vm.cr3 := by
  have hcr3 := vm.cr3_allocPageFrame
  rw [halloc] at hcr3
  unfold allocPageFrame at halloc
  rcases vm.allocPhysPage_cases with ⟨hnone, -⟩ | ⟨g, freeq, hfree, hsome⟩
  · rw [hnone] at halloc
    cases (Prod.mk.inj halloc).1
  · rw [hsome] at halloc
    obtain ⟨hg, hvm⟩ := Prod.mk.inj halloc
    obtain rfl := some.inj hg
    have htaken := ho.take hfree
    have hmem : g ∈ vm.freeq := hfree ▸ mem_cons_self
    have hdir := htaken.not_dir_of_taken (mem_insert ..)
    refine ⟨htaken.of_eq ?_ ?_ fun hcounts => ?_, fun hg => (ho.takenNone g hg).2.2 hmem, hdir,
      (ho.freeNone g hmem).1.1, hcr3⟩
    · rw [← hvm]
      split <;> rfl
    · rw [← hvm]
      split <;> rfl
    · rw [← hvm]
      split
      · exact hcounts.setRefCount g le_rfl
      · exact hcounts

theorem alloc_none (ho : Owned owner h vm) (halloc : vm.allocPageFrame = (none, vm')) :
    Owned owner h vm' ∧ vm'.cr3 = vm.cr3 := by
  unfold allocPageFrame at halloc
  rcases vm.allocPhysPage_cases with ⟨hnone, -⟩ | ⟨g, freeq, hfree, hsome⟩
  · rw [hnone] at halloc
    obtain rfl := (Prod.mk.inj halloc).2
    exact ⟨ho.of_eq rfl rfl id, rfl⟩
  · rw [hsome] at halloc
    cases (Prod.mk.inj halloc).1

theorem alloc_mapUser (ho : Owned owner h vm) (hcr3 : vm.cr3 ∈ h.dirs)
    (halloc : vm.allocPageFrame = (some f, vm')) {va : ℕ} (hva : UserIdx (pdIdx va))
    (hroom : (pdIdx va, ptIdx va) ∈ h.room vm.cr3) (user : Bool) :
    ∃ owner', Owned owner' h (vm'.mapPage va f user) := by
  obtain ⟨htaken, hnot, -, -, hcr3'⟩ := ho.alloc halloc
  rw [← hcr3'] at hcr3 hroom
  obtain ⟨owner', ho'⟩ := htaken.mapUser hcr3 hva hroom (mem_insert ..) user
  exact ⟨owner', settle hnot ho'⟩

/-! ## Pages for copying -/

theorem window_idx {va : ℕ} (hva : pdIdx va = 896) :
    (784 ≤ (pdIdx va).val ∧ (pdIdx va).val < 1023) ∧ ¬HeapIdx (pdIdx va) := by
  rw [hva]
  refine ⟨⟨by decide, by decide⟩, fun hheap => ?_⟩
  exact absurd hheap.2 (by decide)

/-- Any frame may be mapped at `0xE0000000` and behind. -/
theorem mapWindow (ho : Owned owner h vm) (hcr3 : vm.cr3 ∈ h.dirs) (va : ℕ) (hva : pdIdx va = 896)
    (f : ℕ) : ∃ owner', Keeps owner owner' ∧ Owned owner' h (vm.mapPage va f false) ∧
      SameUser owner h.dirs vm (vm.mapPage va f false) :=
  ho.mapKernel hcr3 (window_idx hva).1 fun hheap => absurd hheap (window_idx hva).2

theorem unmapWindow (ho : Owned owner h vm) (hcr3 : vm.cr3 ∈ h.dirs) (va : ℕ)
    (hva : pdIdx va = 896) :
    Owned owner h (vm.unmapPage va) ∧ SameUser owner h.dirs vm (vm.unmapPage va) :=
  ho.unmapKernel hcr3 (window_idx hva).1

theorem copyPhys (ho : Owned owner h vm) (hcr3 : vm.cr3 ∈ h.dirs) (old new : ℕ) :
    Post (vm.vmCopyPhys old new) fun vm' =>
      (∃ owner', Keeps owner owner' ∧ Owned owner' h vm') ∧ SameUser owner h.dirs vm vm' ∧
        vm'.cr3 = vm.cr3 := by
  obtain ⟨owner1, hkeep1, ho1, hsame1⟩ := ho.mapWindow hcr3 0xE0000000 (by decide) old
  have hcr31 := vm.cr3_mapPage 0xE0000000 old false
  obtain ⟨owner2, hkeep2, ho2, hsame2⟩ :=
    ho1.mapWindow (hcr31.symm ▸ hcr3) 0xE0001000 (by decide) new
  have hcr32 := (cr3_mapPage _ 0xE0001000 new false).trans hcr31
  obtain ⟨ho3, hsame3⟩ := ho2.unmapWindow (hcr32.symm ▸ hcr3) 0xE0000000 (by decide)
  have hcr33 := (cr3_unmapPage _ 0xE0000000).trans hcr32
  obtain ⟨ho4, hsame4⟩ := ho3.unmapWindow (hcr33.symm ▸ hcr3) 0xE0001000 (by decide)
  have hkeep := hkeep1.trans hkeep2
  have hsame := (hsame1.trans hkeep1 hsame2).trans hkeep (hsame3.trans (.refl owner2) hsame4)
  unfold vmCopyPhys
  simp only
  split
  · exact .some ⟨⟨owner2, hkeep, ho4⟩, hsame, (cr3_unmapPage _ 0xE0001000).trans hcr33⟩
  · exact .none

theorem copyPages (pages : List (ℕ × Pte)) (hpages : ∀ p ∈ pages, UserIdx (pdIdx p.1)) :
    ∀ {owner vm}, Owned owner h vm → vm.cr3 ∈ h.dirs →
      (∀ p ∈ pages, (pdIdx p.1, ptIdx p.1) ∈ h.room vm.cr3) →
      Post (Vm.copyPages pages vm) fun r => (∃ owner', Owned owner' h r.2) ∧ r.2.cr3 = vm.cr3 := by
  induction pages with
  | nil => exact fun ho _ _ => .some ⟨⟨_, ho⟩, rfl⟩
  | cons p pages ih =>
    intro owner vm ho hcr3 hroom
    obtain ⟨va, pte⟩ := p
    unfold Vm.copyPages
    rcases halloc : vm.allocPageFrame with ⟨f, vm1⟩
    cases f with
    | none =>
      obtain ⟨ho1, hcr31⟩ := ho.alloc_none halloc
      exact .some ⟨⟨owner, ho1⟩, hcr31⟩
    | some f =>
      obtain ⟨owner1, ho1⟩ :=
        ho.alloc_mapUser hcr3 halloc (hpages _ mem_cons_self) (hroom _ mem_cons_self) true
      have hcr31 : (vm1.mapPage va f true).cr3 = vm.cr3 :=
        (vm1.cr3_mapPage va f true).trans (ho.alloc halloc).2.2.2.2
      refine (ho1.copyPhys (hcr31.symm ▸ hcr3) pte.frame f).bind ?_
      rintro vm2 ⟨⟨owner2, -, ho2⟩, -, hcr32⟩
      have hcr33 := hcr32.trans hcr31
      refine (ih (fun q hq => hpages q (mem_cons_of_mem _ hq)) ho2 (hcr33.symm ▸ hcr3)
        fun q hq => hcr33.symm ▸ hroom q (mem_cons_of_mem _ hq)).mono ?_
      rintro r ⟨hr, hcr34⟩
      exact ⟨hr, hcr34.trans hcr33⟩

/-! ## A new directory -/

/-- A directory whose user part is empty comes into use. -/
theorem addDir (ho : Owned owner h vm) {pd : ℕ} (hpd : owner pd = some .dir)
    (hword : ∀ i, ∀ e ∈ vm.entry pd i, e.rw = true)
    (hself : ∀ e ∈ vm.entry pd 1023, e.frame = pd)
    (huser : ∀ i, UserIdx i → vm.entry pd i = none)
    (hkernel : ∀ i, KernelIdx i → ∀ e ∈ vm.entry pd i,
      owner e.frame = some (.kernelTable i) ∨ i.val < 784 ∧ StaticTable h.dirs vm.entry e.frame) :
    Owned owner { h with dirs := insert pd h.dirs } vm := by
  have hstatic : ∀ {f}, StaticTable h.dirs vm.entry f →
      StaticTable (insert pd h.dirs) vm.entry f := by
    rintro f ⟨hlow, hnot, hpte⟩
    refine ⟨hlow, ?_, hpte⟩
    rintro (rfl | hd)
    · exact Nat.not_lt.mpr (ho.owned hpd).1 hlow
    · exact hnot hd
  refine ⟨ho.toLedger, ⟨?_, ?_, ?_, ?_, ?_, ?_, ho.heap⟩, ho.heapTo, ho.cache, ho.counts⟩
  · rintro d (rfl | hd)
    · exact .inl hpd
    · exact ho.dir d hd
  · rintro d (rfl | hd)
    · exact hword
    · exact ho.word d hd
  · rintro d (rfl | hd)
    · exact hself
    · exact ho.self d hd
  · rintro d (rfl | hd) i hi e he
    · cases (huser i hi).symm.trans he
    · exact ho.table d hd i hi e he
  · rintro d (rfl | hd) i hi e he
    · cases (huser i hi).symm.trans he
    · exact ho.page d hd i hi e he
  · rintro d (rfl | hd) i hi e he
    · exact (hkernel i hi e he).imp_right (And.imp_right hstatic)
    · exact (ho.kernel d hd i hi e he).imp_right (And.imp_right hstatic)

variable {i : Fin 1024}

theorem newDirectory_cases (vm : Vm) (pd : ℕ) {e : Pte} (he : vm.newDirectory pd i = some e) :
    i = 1023 ∧ e = ⟨pd, true, false⟩ ∨ i ≠ 1023 ∧ ¬UserIdx i ∧ vm.entry vm.cr3 i = some e := by
  unfold newDirectory at he
  split at he
  · rename_i hi
    exact .inl ⟨Fin.ext hi, (some.inj he).symm⟩
  split at he
  · rename_i hlast hkernel
    refine .inr ⟨fun hi => hlast (congrArg Fin.val hi), fun hi => ?_, he⟩
    unfold UserIdx at hi
    omega
  · cases he

/-- **`paging_create_task_pd`.** -/
theorem createTaskPd (ho : Owned owner h vm) (hcr3 : vm.cr3 ∈ h.dirs) :
    Post vm.pagingCreateTaskPd fun r => r.2.cr3 = vm.cr3 ∧
      (r.1 = none → Owned owner h r.2) ∧
      ∀ pd, r.1 = some pd → pd ∉ h.dirs ∧ pageStartIndex ≤ pd ∧
        ∃ owner', Owned owner' { h with dirs := insert pd h.dirs } r.2 := by
  unfold pagingCreateTaskPd
  rcases halloc : vm.allocPageFrame with ⟨pd, vm1⟩
  cases pd with
  | none =>
    obtain ⟨ho1, hcr31⟩ := ho.alloc_none halloc
    exact .some ⟨hcr31, fun _ => ho1, nofun⟩
  | some pd =>
    obtain ⟨ho1, hnot, hdir, hhigh, hcr31⟩ := ho.alloc halloc
    have htaken : pd ∈ insert pd h.taken := mem_insert ..
    have hloaded1 : vm1.cr3 ∈ h.dirs := hcr31.symm ▸ hcr3
    obtain ⟨owner2, -, ho2, -⟩ := ho1.mapWindow hloaded1 0xE0002000 (by decide) pd
    have hcr32 : (vm1.mapPage 0xE0002000 pd false).cr3 = vm.cr3 :=
      (vm1.cr3_mapPage _ _ _).trans hcr31
    have hloaded2 : (vm1.mapPage 0xE0002000 pd false).cr3 ∈ h.dirs := hcr32.symm ▸ hcr3
    simp only
    split
    swap
    · exact .none
    set vm2 := vm1.mapPage 0xE0002000 pd false
    -- the new directory is filled, and is one then
    have ho3 := (ho2.writeTaken htaken (vm2.newDirectory pd)).give htaken .dir nofun
    have hne : vm2.cr3 ≠ pd := fun hc => hdir (hc ▸ hloaded2)
    have hloaded : update vm2.entry pd (vm2.newDirectory pd) vm2.cr3 =
        vm2.entry vm2.cr3 := update_of_ne hne ..
    have hnew : ∀ {i e}, update vm2.entry pd (vm2.newDirectory pd) pd i = some e →
        i = 1023 ∧ e = ⟨pd, true, false⟩ ∨ i ≠ 1023 ∧ ¬UserIdx i ∧
          update vm2.entry pd (vm2.newDirectory pd) vm2.cr3 i = some e := by
      intro i e he
      rw [update_self] at he
      rw [hloaded]
      exact newDirectory_cases vm2 pd he
    have ho4 := ho3.addDir (update_self ..) (fun i e he => ?_) (fun e he => ?_)
      (fun i hi => ?_) fun i hi e he => ?_
    · refine .some ⟨(cr3_unmapPage _ _).trans hcr32, nofun, fun pd' hpd' => ?_⟩
      cases hpd'
      obtain ⟨ho5, -⟩ := ho4.unmapWindow (mem_insert_of_mem _ hloaded2) 0xE0002000 (by decide)
      exact ⟨hdir, hhigh, _, settle (h := { h with dirs := _ }) hnot ho5⟩
    · rcases hnew he with ⟨-, rfl⟩ | ⟨-, -, he⟩
      · rfl
      · exact ho3.word vm2.cr3 hloaded2 i e he
    · rcases hnew he with ⟨-, rfl⟩ | ⟨hc, -⟩
      · rfl
      · exact absurd rfl hc
    · refine eq_none_iff_forall_not_mem.mpr fun e he => ?_
      rcases hnew he with ⟨rfl, -⟩ | ⟨-, hc, -⟩
      · exact absurd hi.2 (by decide)
      · exact hc hi
    · rcases hnew he with ⟨rfl, -⟩ | ⟨-, -, he⟩
      · exact absurd hi (by unfold KernelIdx; decide)
      · exact ho3.kernel vm2.cr3 hloaded2 i hi e he

/-! ## Filling and protecting -/

theorem elfLoad (fuel : ℕ) {data : ℕ} {l : Loader} (hok : ImageOk l.mem data)
    (ho : Owned owner h l.vm) (hcr3 : l.vm.cr3 ∈ h.dirs)
    (hroom : h.room l.vm.cr3 = univ) :
    (∃ owner', Owned owner' h (PokuOS.elfLoad fuel l data).2.2.vm) ∧
      (PokuOS.elfLoad fuel l data).2.2.vm.cr3 = l.vm.cr3 := by
  have hload : Loading fun l l' => (∃ owner, Owned owner h l.vm) →
      l.vm.cr3 ∈ h.dirs ∧ h.room l.vm.cr3 = univ →
      (∃ owner', Owned owner' h l'.vm) ∧ l'.vm.cr3 = l.vm.cr3 := by
    refine ⟨fun l ho _ => ⟨ho, rfl⟩, fun {l l' l''} h1 h2 ho hcr3 => ?_, ?_, ?_,
      fun l _ _ _ _ ho _ => ⟨ho, rfl⟩⟩
    · obtain ⟨ho1, hcr31⟩ := h1 ho hcr3
      obtain ⟨ho2, hcr32⟩ := h2 ho1 (hcr31.symm ▸ hcr3)
      exact ⟨ho2, hcr32.trans hcr31⟩
    · rintro l vm1 halloc ⟨owner, ho⟩ _
      obtain ⟨ho1, hcr31⟩ := ho.alloc_none halloc
      exact ⟨⟨owner, ho1⟩, hcr31⟩
    · rintro l va paddr vm1 hva - - halloc ⟨owner, ho⟩ ⟨hcr3, hroom⟩
      refine ⟨ho.alloc_mapUser hcr3 halloc (userIdx_pdIdx hva) (hroom ▸ mem_univ _) true, ?_⟩
      exact (vm1.cr3_mapPage va paddr true).trans (ho.alloc halloc).2.2.2.2
  exact hload.elfLoad hok ⟨owner, ho⟩ ⟨hcr3, hroom⟩

theorem protectTable (ho : Owned owner h vm) (hcr3 : vm.cr3 ∈ h.dirs) (hi : UserIdx i) :
    Owned owner h (vm.protectTable i) ∧ (vm.protectTable i).cr3 = vm.cr3 := by
  unfold Vm.protectTable
  cases he : vm.entry vm.cr3 i with
  | none => exact ⟨ho, rfl⟩
  | some e =>
    have hwords : ∀ j, ∀ p ∈ vm.readonlyTable e.frame j,
        owner p.frame = some (.userPage e.frame j) ∧ (i, j) ∈ h.room vm.cr3 := by
      intro j p hp
      obtain ⟨p', hp', rfl⟩ := map_eq_some_iff.mp hp
      have howner := ho.page vm.cr3 hcr3 i hi e he j p' hp'
      split
      · exact howner
      · exact howner
    refine ⟨(ho.writeUserTable hcr3 hi he hwords).of_eq rfl rfl fun hcounts f => ?_, rfl⟩
    simp only
    split
    · exact le_rfl
    · exact hcounts f

theorem protectTables (l : List (Fin 1024)) (hl : ∀ i ∈ l, UserIdx i) :
    ∀ {vm}, Owned owner h vm → vm.cr3 ∈ h.dirs → Owned owner h (l.foldl Vm.protectTable vm) ∧
      (l.foldl Vm.protectTable vm).cr3 = vm.cr3 := by
  induction l with
  | nil => exact fun ho _ => ⟨ho, rfl⟩
  | cons i l ih =>
    intro vm ho hcr3
    obtain ⟨ho1, hcr31⟩ := ho.protectTable hcr3 (hl i mem_cons_self)
    obtain ⟨ho2, hcr32⟩ :=
      ih (fun i' hi' => hl i' (mem_cons_of_mem _ hi')) ho1 (hcr31.symm ▸ hcr3)
    exact ⟨ho2, hcr32.trans hcr31⟩

theorem spawnProtect (ho : Owned owner h vm) (hloaded : vm.cr3 ∈ h.dirs) :
    Owned owner h vm.vmScanUserPages.vmProtectReadonly ∧
      vm.vmScanUserPages.vmProtectReadonly.cr3 = vm.cr3 := by
  have hscan : Owned owner h vm.vmScanUserPages := by
    refine ho.of_eq ?_ ?_ fun hcounts f => ?_
    · simp only [vmScanUserPages]
    · simp only [vmScanUserPages]
    · simp only [vmScanUserPages]
      split
      · exact le_rfl
      · exact hcounts f
  have hcr3 : vm.vmScanUserPages.cr3 = vm.cr3 := by simp only [vmScanUserPages]
  obtain ⟨ho, hprotect⟩ :=
    hscan.protectTables userEntries (fun _ => mem_userEntries.mp) (hcr3.symm ▸ hloaded)
  exact ⟨ho, hprotect.trans hcr3⟩

/-! ## Freeing -/

/-- The tables of the directories in use have no need of a frame with this owner. -/
def Unused (h : Holders) (vm : Vm) (f : ℕ) : Owner → Prop
  | .dir => f ∉ h.dirs
  | .userTable d _ => d ∉ h.dirs
  | .userPage table j => ∀ d ∈ h.dirs, ∀ i, UserIdx i → ∀ e ∈ vm.entry d i, e.frame = table →
      ∀ p ∈ vm.entry table j, p.frame ≠ f
  | _ => False

/-- `free_page_frame` puts the frame on the free list, or has only counted down. -/
theorem freeq_freePageFrame (vm : Vm) (f : ℕ) :
    (vm.freePageFrame f).freeq = f :: vm.freeq ∧ f ∈ frames ∨
      (vm.freePageFrame f).freeq = vm.freeq := by
  have hphys : ∀ vm : Vm, (vm.freePhysPage f).freeq = f :: vm.freeq ∧ f ∈ frames ∨
      (vm.freePhysPage f).freeq = vm.freeq := by
    intro vm
    unfold freePhysPage
    split
    · rename_i hf
      exact .inl ⟨rfl, hf⟩
    · exact .inr rfl
  unfold freePageFrame
  split
  · simp only
    split
    · exact .inr rfl
    · exact hphys _
  · exact hphys vm

/-- The other frames keep their owners. -/
theorem kept {g : ℕ} {r s : Owner} (hf : owner f = some r) (hg : owner g = some s) (hne : s ≠ r) :
    update owner f none g = some s := by
  rw [update_of_ne]
  · exact hg
  · rintro rfl
    exact hne (some.inj (hg.symm.trans hf))

section

variable (ho : Owned owner h vm)
include ho

/-- **A frame that is not needed any more is freed.** -/
theorem freeFrame {r : Owner} (hf : owner f = some r) (hunused : Unused h vm f r) :
    Owned (update owner f none) h (vm.freePageFrame f) := by
  have hkeep : ∀ {g s}, owner g = some s → s ≠ r → update owner f none g = some s := kept hf
  have hne : ∀ {s}, r = s → Unused h vm f s := fun hs => hs ▸ hunused
  refine ⟨?_, ?_, fun n hn hn' => ?_, fun i s hs => hkeep (ho.cache i s hs) fun hr => hne hr.symm,
    fun honce => (ho.counts honce).freePageFrame f⟩
  · rcases freeq_freePageFrame vm f with ⟨hfreeq, -⟩ | hfreeq
    · rw [hfreeq]
      exact ho.toLedger.release hf
    · rw [hfreeq]
      exact ho.toLedger.lose f
  · rw [entry_freePageFrame]
    refine ⟨fun d hd => ?_, ho.word, ho.self, fun d hd i hi e he => ?_,
      fun d hd i hi e he j p hp => ?_, fun d hd i hi e he => ?_, fun g i hg j p hp => ?_⟩
    · by_cases hdf : d = f
      · subst hdf
        exact (ho.dir d hd).imp_left fun hdir => (hne (some.inj (hf.symm.trans hdir)) hd).elim
      · rw [update_of_ne hdf]
        exact ho.dir d hd
    · exact hkeep (ho.table d hd i hi e he) fun hr => hne hr.symm hd
    · obtain ⟨howner, hroom⟩ := ho.page d hd i hi e he j p hp
      rw [update_of_ne]
      · exact ⟨howner, hroom⟩
      · rintro rfl
        exact hne (some.inj (hf.symm.trans howner)) d hd i hi e he rfl p hp rfl
    · exact (ho.kernel d hd i hi e he).imp_left fun hk => hkeep hk fun hr => hne hr.symm
    · rcases update_cases hg with ⟨-, hg⟩ | ⟨-, hg⟩
      · cases hg
      · obtain ⟨huser, hheap⟩ := ho.heap g i hg j p hp
        exact ⟨huser, fun hi => hkeep (hheap hi) fun hr => hne hr.symm⟩
  · obtain ⟨g, hg⟩ := ho.heapTo n hn hn'
    exact ⟨g, hkeep hg fun hr => hne hr.symm⟩

theorem freeTaken (hf : f ∈ h.taken) :
    Owned owner { h with taken := h.taken \ {f} } (vm.freePageFrame f) := by
  refine ⟨?_, ?_, ho.heapTo, ho.cache, fun honce => (ho.counts honce).freePageFrame f⟩
  · rcases freeq_freePageFrame vm f with ⟨hfreeq, -⟩ | hfreeq
    · rw [hfreeq]
      exact ho.toLedger.putBack hf
    · rw [hfreeq]
      exact ho.toLedger.mono sdiff_subset
  · rw [entry_freePageFrame]
    exact ho.toMapped

/-! ## Write faults -/

/-- Only words of the user part are repaired: in the kernel's part and in directories there is
none that user mode may read and not write. -/
theorem userIdx_of_readonly (hcr3 : vm.cr3 ∈ h.dirs) {j : Fin 1024} {e p : Pte}
    (he : vm.entry vm.cr3 i = some e) (hp : vm.entry e.frame j = some p) (huser : p.user = true)
    (hrw : p.rw = false) : UserIdx i := by
  by_contra hi
  by_cases hlast : i = 1023
  · subst hlast
    rw [ho.self vm.cr3 hcr3 e he] at hp
    cases hrw.symm.trans (ho.word vm.cr3 hcr3 j p hp)
  · have hval : i.val ≠ 1023 := fun hc => hlast (Fin.ext hc)
    have hkernel : KernelIdx i := by
      unfold UserIdx at hi
      unfold KernelIdx
      omega
    rcases ho.kernel vm.cr3 hcr3 i hkernel e he with htable | ⟨-, -, -, hstatic⟩
    · cases huser.symm.trans (ho.heap _ _ htable j p hp).1
    · cases huser.symm.trans (hstatic j p hp)

variable {d : ℕ}

theorem replacePage (hd : d ∈ h.dirs) {j : Fin 1024} (hi : UserIdx i) {e p q : Pte}
    (he : vm.entry d i = some e) (hp : vm.entry e.frame j = some p) (hnew : q.frame ∈ h.taken) :
    ∃ owner', Owned owner' { h with taken := h.taken \ {q.frame} }
      ((vm.freePageFrame p.frame).setEntry e.frame j (some q)) := by
  have htable := ho.table d hd i hi e he
  obtain ⟨hpage, hroom⟩ := ho.page d hd i hi e he j p hp
  have hne : p.frame ≠ q.frame := by
    intro hc
    rw [hc] at hpage
    cases (ho.takenNone _ hnew).2.1.symm.trans hpage
  have hgiven := ho.give hnew (.userPage e.frame j) nofun
  have hset := hgiven.setUserPage (p := q) hd hi he ⟨update_self .., hroom⟩
  have hold : update owner q.frame (some (.userPage e.frame j)) p.frame =
      some (.userPage e.frame j) := (update_of_ne hne ..).trans hpage
  -- the copy is in place of the page when that is freed
  have hfreed := hset.freeFrame hold ?_
  · rw [freePageFrame_setEntry] at hfreed
    exact ⟨_, hfreed⟩
  · intro d' _ i' _ e' _ _ r hr
    rw [entry_setEntry, if_pos ⟨rfl, rfl⟩] at hr
    cases hr
    exact hne.symm

/-- **`vm_fault_cow`.** -/
theorem faultCow (hcr3 : vm.cr3 ∈ h.dirs) (va : ℕ) :
    Post (vm.vmFaultCow va) fun r => (∃ owner', Owned owner' h r.2) ∧ r.2.cr3 = vm.cr3 := by
  unfold vmFaultCow
  cases he : vm.entry vm.cr3 (pdIdx va) with
  | none => exact .some ⟨⟨owner, ho⟩, rfl⟩
  | some e =>
    simp only
    cases hp : vm.entry e.frame (ptIdx va) with
    | none => exact .some ⟨⟨owner, ho⟩, rfl⟩
    | some p =>
      simp only
      split
      · exact .some ⟨⟨owner, ho⟩, rfl⟩
      split
      · exact .some ⟨⟨owner, ho⟩, rfl⟩
      rename_i huser hrw
      have hi := ho.userIdx_of_readonly hcr3 he hp (by simpa using huser) (by simpa using hrw)
      have hpage := ho.page vm.cr3 hcr3 _ hi e he _ p hp
      split
      · exact .some ⟨⟨owner, ho.setUserPage (p := { p with rw := true }) hcr3 hi he hpage⟩, rfl⟩
      rcases halloc : vm.allocPageFrame with ⟨f, vm1⟩
      cases f with
      | none =>
        obtain ⟨ho1, hcr31⟩ := ho.alloc_none halloc
        exact .some ⟨⟨owner, ho1⟩, hcr31⟩
      | some f =>
        obtain ⟨ho1, hnot, -, -, hcr31⟩ := ho.alloc halloc
        have hentry1 : vm1.entry = vm.entry := by
          rw [← entry_allocPageFrame vm, halloc]
        refine (ho1.copyPhys (hcr31.symm ▸ hcr3) p.frame f).bind ?_
        rintro vm2 ⟨⟨owner2, -, ho2⟩, hsame, hcr32⟩
        -- the word is where it was
        have he2 : vm2.entry vm.cr3 (pdIdx va) = some e := by
          rw [hsame.word _ hcr3 _ hi, hentry1, he]
        have hp2 : vm2.entry e.frame (ptIdx va) = some p := by
          rw [hsame.table _ _ _ (ho.table vm.cr3 hcr3 _ hi e he), hentry1, hp]
        obtain ⟨owner3, ho3⟩ := ho2.replacePage (q := { p with frame := f, rw := true }) hcr3 hi
          he2 hp2 (mem_insert ..)
        exact .some ⟨⟨owner3, settle hnot ho3⟩,
          (cr3_freePageFrame vm2 p.frame).trans (hcr32.trans hcr31)⟩

/-! ## The heap and the page cache -/

/-- There are not more pages in the heap than frames: it ends before `0xE0000000`. -/
theorem heapTop_le : h.heapTop ≤ heapStartPage + numPages := by
  have hall : ∀ n, ∃ f, heapStartPage ≤ n → n < h.heapTop → owner f = some (.heapPage n) := by
    intro n
    by_cases hn : heapStartPage ≤ n ∧ n < h.heapTop
    · obtain ⟨f, hf⟩ := ho.heapTo n hn.1 hn.2
      exact ⟨f, fun _ _ => hf⟩
    · exact ⟨0, fun hlo hhi => absurd ⟨hlo, hhi⟩ hn⟩
  choose g hg using hall
  -- different pages have different frames
  have hcard : (Finset.Ico heapStartPage h.heapTop).card ≤ (Finset.range numPages).card := by
    refine Finset.card_le_card_of_injOn g (fun n hn => ?_) fun n hn n' hn' heq => ?_
    · obtain ⟨hlo, hhi⟩ := Finset.mem_Ico.mp hn
      exact Finset.mem_coe.mpr (Finset.mem_range.mpr (ho.owned (hg n hlo hhi)).2)
    · obtain ⟨hlo, hhi⟩ := Finset.mem_Ico.mp hn
      obtain ⟨hlo', hhi'⟩ := Finset.mem_Ico.mp hn'
      have howner := hg n hlo hhi
      rw [heq, hg n' hlo' hhi'] at howner
      simpa using howner.symm
  rw [Nat.card_Ico, Finset.card_range] at hcard
  omega

/-- **The heap grows by a page.** -/
theorem growHeap (hcr3 : vm.cr3 ∈ h.dirs) (hstart : heapStartPage ≤ h.heapTop)
    (halloc : vm.allocPageFrame = (some f, vm')) :
    ∃ owner', Owned owner' { h with heapTop := h.heapTop + 1 }
      (vm'.mapPage (h.heapTop * pageSize) f false) := by
  have htop := ho.heapTop_le
  obtain ⟨htaken, hnot, -, -, hcr3'⟩ := ho.alloc halloc
  have hgiven := htaken.give (mem_insert ..) (.heapPage h.heapTop) nofun
  have hgrown : Owned (update owner f (some (.heapPage h.heapTop)))
      { h with heapTop := h.heapTop + 1 } vm' := by
    have hsettled := settle hnot hgiven
    refine ⟨hsettled.toLedger, hsettled.toMapped, fun n hlo hhi => ?_, hsettled.cache,
      hsettled.counts⟩
    rcases Nat.lt_succ_iff_lt_or_eq.mp hhi with hlt | rfl
    · exact hsettled.heapTo n hlo hlt
    · exact ⟨f, update_self ..⟩
  -- the page lies between `0xD0000000` and `0xE0000000`
  have hbounds : 0xD0000 ≤ h.heapTop ∧ h.heapTop ≤ 0xD4000 := ⟨hstart, htop⟩
  have hpd : (pdIdx (h.heapTop * pageSize)).val = h.heapTop / 1024 := by
    rw [pdIdx_val]
    unfold pageSize
    omega
  have hpt : (ptIdx (h.heapTop * pageSize)).val = h.heapTop % 1024 := by
    change h.heapTop * pageSize / 2 ^ 12 % 1024 = h.heapTop % 1024
    unfold pageSize
    omega
  have hkernel : 784 ≤ (pdIdx (h.heapTop * pageSize)).val ∧
      (pdIdx (h.heapTop * pageSize)).val < 1023 := by
    rw [hpd]
    omega
  obtain ⟨owner', -, ho', -⟩ := hgrown.mapKernel (f := f) (hcr3'.symm ▸ hcr3) hkernel fun _ => by
    rw [hpd, hpt, Nat.div_add_mod', update_self]
  exact ⟨owner', ho'⟩

/-- A failed attempt leaves the heap where it was. -/
theorem lowerHeap {n : ℕ} (hn : n ≤ h.heapTop) : Owned owner { h with heapTop := n } vm :=
  ⟨ho.toLedger, ho.toMapped, fun m hlo hhi => ho.heapTo m hlo (Nat.lt_of_lt_of_le hhi hn), ho.cache,
    ho.counts⟩

/-- **A page comes into the page cache.** -/
theorem fillCache (hf : f ∈ h.taken) (slot ino pgoff : ℕ) :
    Owned (update owner f (some (.cachePage slot)))
      { h with taken := h.taken \ {f}, slots := h.slots.set slot (some ⟨ino, pgoff, f⟩) } vm := by
  have hgiven := ho.give hf (.cachePage slot) nofun
  refine ⟨hgiven.toLedger, hgiven.toMapped, hgiven.heapTo, fun i s hs => ?_, hgiven.counts⟩
  by_cases hi : slot = i
  · subst hi
    obtain ⟨-, hs⟩ : slot < h.slots.length ∧ (⟨ino, pgoff, f⟩ : CacheSlot) = s := by
      simpa [getElem?_set] using hs
    rw [← hs]
    exact update_self ..
  · rw [getElem?_set_ne hi] at hs
    exact hgiven.cache i s hs

end

/-! ## Taking a directory down -/

/-- A directory that is not in use any more, with what is left of it. -/
structure Falling (owner : ℕ → Option Owner) (h : Holders) (d : ℕ) (vm : Vm) : Prop where
  /-- the ledger -/
  owned : Owned owner h vm
  /-- it is not in use -/
  unused : d ∉ h.dirs
  /-- it is a directory -/
  self : owner d = some .dir
  /-- its tables -/
  table : ∀ i, UserIdx i → ∀ e ∈ vm.entry d i, owner e.frame = some (.userTable d i)
  /-- its pages -/
  page : ∀ i, UserIdx i → ∀ e ∈ vm.entry d i, ∀ j, ∀ p ∈ vm.entry e.frame j,
    owner p.frame = some (.userPage e.frame j)

/-- The inner loop of `teardown_current_pd`: the pages of a table. -/
theorem freeWords {table : ℕ} (l : List (Fin 1024)) : ∀ {owner vm}, Owned owner h vm → l.Nodup →
    (∀ d ∈ h.dirs, ∀ i, UserIdx i → ∀ e ∈ vm.entry d i, e.frame ≠ table) →
    (∀ j ∈ l, ∀ p ∈ vm.entry table j, owner p.frame = some (.userPage table j)) →
    ∃ owner', Owned owner' h (l.foldl (fun vm j => vm.freeWord (vm.entry table j)) vm) ∧
      ∀ g r, owner g = some r → (∀ j, r ≠ .userPage table j) → owner' g = some r := by
  induction l with
  | nil => exact fun ho _ _ _ => ⟨_, ho, fun _ _ hg _ => hg⟩
  | cons j l ih =>
    intro owner vm ho hnodup hunused hpages
    obtain ⟨hj, hnodup⟩ := nodup_cons.mp hnodup
    rw [foldl_cons]
    cases hp : vm.entry table j with
    | none => exact ih ho hnodup hunused fun j' hj' => hpages j' (mem_cons_of_mem _ hj')
    | some p =>
      have howner := hpages j mem_cons_self p hp
      have ho1 := ho.freeFrame howner fun d hd i hi e he hc => absurd hc (hunused d hd i hi e he)
      have hentry : (vm.freeWord (some p)).entry = vm.entry := entry_freePageFrame ..
      have ho1 : Owned _ h (vm.freeWord (some p)) := ho1
      obtain ⟨owner', ho', hkeep⟩ := ih ho1 hnodup (by rw [hentry]; exact hunused) (by
        rw [hentry]
        intro j' hj' p' hp'
        refine kept howner (hpages j' (mem_cons_of_mem _ hj') p' hp') ?_
        rintro hc
        obtain rfl : j' = j := by simpa using hc
        exact hj hj')
      exact ⟨owner', ho', fun g r hg hr => hkeep g r (kept howner hg (hr j)) hr⟩

theorem clearUnused (ho : Owned owner h vm) (hunused : d ∉ h.dirs) (hself : owner d = some .dir)
    (i : Fin 1024) : Owned owner h (vm.setEntry d i none) := by
  refine ⟨ho.toLedger, ho.toMapped.write (.of_not_dir hunused (ho.owned hself).1 ?_ ?_),
    ho.heapTo, ho.cache, ho.counts⟩
  · exact fun _ _ howner => nomatch hself.symm.trans howner
  · exact fun _ howner => nomatch hself.symm.trans howner

/-- **The outer loop of `teardown_current_pd`**: a table and its pages. -/
theorem Falling.freeTable (hd : Falling owner h d vm) (hcr3 : vm.cr3 = d) (hi : UserIdx i) :
    ∃ owner', Falling owner' h d (vm.freeTable i) := by
  unfold Vm.freeTable
  rw [hcr3]
  cases he : vm.entry d i with
  | none => exact ⟨owner, hd⟩
  | some e =>
    have htable := hd.table i hi e he
    have hunused : ∀ d' ∈ h.dirs, ∀ i', UserIdx i' → ∀ e' ∈ vm.entry d' i', e'.frame ≠ e.frame := by
      intro d' hd' i' hi' e' he' hc
      have howner := hd.owned.table d' hd' i' hi' e' he'
      rw [hc] at howner
      obtain ⟨rfl, -⟩ : d = d' ∧ i = i' := by simpa using htable.symm.trans howner
      exact hd.unused hd'
    obtain ⟨owner1, ho1, hkeep⟩ := freeWords (finRange 1024) hd.owned
      (nodup_finRange 1024) hunused fun j _ => hd.page i hi e he j
    obtain ⟨hentry1, hcr31⟩ := foldl_freeWord (fun vm j => vm.entry e.frame j)
      (finRange 1024) vm
    simp only
    generalize (finRange 1024).foldl (fun vm j => vm.freeWord (vm.entry e.frame j)) vm = vm1
      at ho1 hentry1 hcr31
    have htable1 := hkeep _ _ htable nofun
    have ho2 := ho1.freeFrame htable1 hd.unused
    -- what is left of the directory has its owners
    have hother : ∀ {g r}, owner g = some r → (∀ j, r ≠ .userPage e.frame j) →
        r ≠ .userTable d i → update owner1 e.frame none g = some r := fun hg hr =>
      kept htable1 (hkeep _ _ hg hr)
    have hne : ∀ {i' e'}, UserIdx i' → vm.entry d i' = some e' → i' ≠ i → e'.frame ≠ e.frame := by
      intro i' e' hi' he' hii hc
      have howner := hd.table i' hi' e' he'
      rw [hc] at howner
      obtain ⟨-, rfl⟩ : d = d ∧ i = i' := by simpa using htable.symm.trans howner
      exact hii rfl
    have hentry : (vm1.freePageFrame e.frame).entry = vm.entry :=
      (entry_freePageFrame ..).trans hentry1
    have hself : update owner1 e.frame none d = some .dir := hother hd.self nofun nofun
    have hword : ∀ {i' e'}, ((vm1.freePageFrame e.frame).setEntry d i none).entry d i' = some e' →
        i' ≠ i ∧ vm.entry d i' = some e' := by
      intro i' e' he'
      rw [entry_setEntry, hentry] at he'
      split at he'
      · cases he'
      · rename_i hii
        exact ⟨fun hc => hii ⟨rfl, hc⟩, he'⟩
    rw [hcr31, hcr3]
    refine ⟨_, ho2.clearUnused hd.unused hself i, hd.unused, hself, fun i' hi' e' he' => ?_,
      fun i' hi' e' he' j p hp => ?_⟩
    · obtain ⟨hii, he'⟩ := hword he'
      refine hother (hd.table i' hi' e' he') nofun fun hc => ?_
      obtain rfl : i' = i := by simpa using hc
      exact hii rfl
    · obtain ⟨hii, he'⟩ := hword he'
      have hdir : e'.frame ≠ d := by
        intro hc
        have howner := hd.table i' hi' e' he'
        rw [hc] at howner
        cases hd.self.symm.trans howner
      have hp : vm.entry e'.frame j = some p := by
        rw [← hentry]
        refine Eq.trans ?_ hp
        rw [entry_setEntry, if_neg fun hc => hdir hc.1]
      refine hother (hd.page i' hi' e' he' j p hp) (fun j' hc => ?_) nofun
      obtain ⟨hc, -⟩ : e'.frame = e.frame ∧ j = j' := by simpa using hc
      exact hne hi' he' hii hc

theorem Falling.foldl (l : List (Fin 1024)) (hl : ∀ i ∈ l, UserIdx i) :
    ∀ {owner vm}, Falling owner h d vm → vm.cr3 = d →
      ∃ owner', Falling owner' h d (l.foldl Vm.freeTable vm) := by
  induction l with
  | nil => exact fun hd _ => ⟨_, hd⟩
  | cons i l ih =>
    intro owner vm hd hcr3
    obtain ⟨owner1, hd1⟩ := hd.freeTable hcr3 (hl i mem_cons_self)
    exact ih (fun i' hi' => hl i' (mem_cons_of_mem _ hi')) hd1
      ((vm.cr3_freeTable i).trans hcr3)

/-- **`teardown_current_pd`**: the loaded directory is not in use any more. -/
theorem teardown (ho : Owned owner h vm) (hd : d ∈ h.dirs) (hhigh : pageStartIndex ≤ d)
    (hcr3 : vm.cr3 = d) (target : ℕ) :
    ∃ owner', Owned owner' { h with dirs := h.dirs \ {d} } (vm.teardownCurrentPd d target) := by
  have hself := (ho.dir d hd).resolve_right (Nat.not_lt.mpr hhigh)
  have hfalling : Falling owner { h with dirs := h.dirs \ {d} } d vm :=
    ⟨ho.mono sdiff_subset fun _ ht => ht, fun hc => hc.2 rfl, hself, ho.table d hd,
      fun i hi e he j p hp => (ho.page d hd i hi e he j p hp).1⟩
  obtain ⟨owner1, hd1⟩ := hfalling.foldl userEntries (fun _ => mem_userEntries.mp) hcr3
  exact ⟨_, (hd1.owned.loadCr3 target).freeFrame hd1.self hd1.unused⟩

end Owned

end PokuOS

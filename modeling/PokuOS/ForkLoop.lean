import Mathlib.Data.Finset.Card
import PokuOS.ElfConfined
import PokuOS.FrameBytes

/-!
# Single steps of the copy loop of `sys_fork`

The loop runs in the child's directory. Each page takes a frame, and the first page of every 4 MiB
another one for the table; `map_page` does not say when it finds none. The copy itself goes by two
pages that are mapped for it, so it is made all the same, into a frame that no table names.

* `Vm.mapPage_present`, `Vm.mapPage_link`, `Vm.mapPage_short` — what `map_page` does, with a table,
  with a frame for one, and without.
* `Vm.vmCopyPhys_window` — **`vm_copy_phys` writes to the table of its pages and to the new frame.**
-/

namespace PokuOS

open Function

namespace Vm

variable {vm : Vm} {vaddr f : ℕ} {user : Bool} {e : Pte}

/-! ## Single calls -/

theorem allocPageFrame_cons {freeq : List ℕ} (h : vm.freeq = f :: freeq) :
    ∃ refs, vm.allocPageFrame = (some f, { vm with freeq := freeq, refCount := refs }) := by
  unfold allocPageFrame allocPhysPage
  rw [h]
  simp only
  split
  · exact ⟨_, rfl⟩
  · exact ⟨vm.refCount, rfl⟩

/-- The first frame becomes the new directory. -/
theorem createTaskPd_some {pd : ℕ} {vm1 : Vm} (h : vm.pagingCreateTaskPd = some (some pd, vm1)) :
    ∃ freeq refs vm2, vm.freeq = pd :: freeq ∧
      vm.allocPageFrame = (some pd, { vm with freeq := freeq, refCount := refs }) ∧
      ({ vm with freeq := freeq, refCount := refs } : Vm).mapPage 0xE0002000 pd false = vm2 ∧
      vm2.pagePresent 0xE0002000 = true ∧
      vm1 = Vm.unmapPage { vm2 with entry := update vm2.entry pd (vm2.newDirectory pd) }
        0xE0002000 := by
  unfold pagingCreateTaskPd at h
  cases hfree : vm.freeq with
  | nil =>
    simp only [allocPageFrame, allocPhysPage, hfree] at h
    cases h
  | cons f freeq =>
    obtain ⟨refs, halloc⟩ := allocPageFrame_cons hfree
    simp only [halloc] at h
    split at h
    · rename_i hpresent
      cases h
      exact ⟨freeq, refs, _, rfl, halloc, rfl, hpresent, rfl⟩
    · cases h

theorem mapPage_present (h : vm.entry vm.cr3 (pdIdx vaddr) = some e) :
    vm.mapPage vaddr f user = vm.setEntry e.frame (ptIdx vaddr) (some ⟨f, true, user⟩) := by
  simp only [mapPage, h]

/-- The first frame becomes an empty table of the loaded directory. -/
def linkTable (vm : Vm) (i : Fin 1024) (pt : ℕ) (freeq : List ℕ) : Vm :=
  (({ vm with freeq := freeq } : Vm).setEntry vm.cr3 i (some ⟨pt, true, true⟩)).clearTable pt

/-- Without a table, `map_page` makes one first. -/
theorem mapPage_link {pt : ℕ} {freeq : List ℕ} (h : vm.entry vm.cr3 (pdIdx vaddr) = none)
    (hfree : vm.freeq = pt :: freeq) (hne : pt ≠ vm.cr3) :
    vm.mapPage vaddr f user = (vm.linkTable (pdIdx vaddr) pt freeq).mapPage vaddr f user := by
  have hlinked : (vm.linkTable (pdIdx vaddr) pt freeq).entry vm.cr3 (pdIdx vaddr) =
      some ⟨pt, true, true⟩ := by
    simp [linkTable, clearTable, setEntry, update_of_ne hne.symm]
  have hpresent : (vm.linkTable (pdIdx vaddr) pt freeq).mapPage vaddr f user = _ :=
    mapPage_present hlinked
  rw [hpresent]
  simp only [mapPage, h, allocPhysPage, hfree]
  rfl

theorem mapPage_short (h : vm.entry vm.cr3 (pdIdx vaddr) = none) (hfree : vm.freeq = []) :
    vm.mapPage vaddr f user = vm := by
  simp only [mapPage, h, allocPhysPage, hfree]

/-- How many frames `map_page` takes. -/
theorem freeq_mapPage (vm : Vm) (vaddr f : ℕ) (user : Bool) :
    (vm.mapPage vaddr f user).freeq =
      if (vm.entry vm.cr3 (pdIdx vaddr)).isSome then vm.freeq else vm.freeq.tail := by
  unfold mapPage allocPhysPage
  cases vm.entry vm.cr3 (pdIdx vaddr) with
  | some e => rfl
  | none =>
    cases hfree : vm.freeq with
    | nil => exact hfree
    | cons pt freeq => rfl

theorem freeq_unmapPage (vm : Vm) (vaddr : ℕ) : (vm.unmapPage vaddr).freeq = vm.freeq := by
  unfold unmapPage
  split <;> rfl

/-- Write all words of a table. -/
def setTable (vm : Vm) (g : ℕ) (words : Fin 1024 → Option Pte) : Vm :=
  { vm with entry := Function.update vm.entry g words }

section Table

variable {words : Fin 1024 → Option Pte}

variable (h : vm.entry vm.cr3 (pdIdx vaddr) = some e)
include h

theorem entry_setTable_cr3 (hne : e.frame ≠ vm.cr3) :
    (vm.setTable e.frame words).entry vm.cr3 (pdIdx vaddr) = some e :=
  (congrFun (update_of_ne hne.symm ..) _).trans h

omit h in
theorem setEntry_setTable (vm : Vm) (g : ℕ) (words : Fin 1024 → Option Pte) (j : Fin 1024)
    (p : Option Pte) :
    (vm.setTable g words).setEntry g j p = vm.setTable g (update words j p) := by
  simp [setTable, setEntry]

theorem mapPage_setTable (hne : e.frame ≠ vm.cr3) :
    (vm.setTable e.frame words).mapPage vaddr f user =
      vm.setTable e.frame (update words (ptIdx vaddr) (some ⟨f, true, user⟩)) := by
  have hpresent : (vm.setTable e.frame words).mapPage vaddr f user = _ :=
    mapPage_present (entry_setTable_cr3 h hne)
  rw [hpresent, setEntry_setTable]

theorem unmapPage_setTable (hne : e.frame ≠ vm.cr3) : (vm.setTable e.frame words).unmapPage vaddr =
      vm.setTable e.frame (update words (ptIdx vaddr) none) := by
  have hdir : (vm.setTable e.frame words).entry (vm.setTable e.frame words).cr3 (pdIdx vaddr) =
      some e := entry_setTable_cr3 h hne
  simp only [unmapPage, hdir, setEntry_setTable]

theorem lookup_setTable (hne : e.frame ≠ vm.cr3) :
    (vm.setTable e.frame words).lookup vaddr = words (ptIdx vaddr) := by
  have hdir : (vm.setTable e.frame words).entry (vm.setTable e.frame words).cr3 (pdIdx vaddr) =
      some e := entry_setTable_cr3 h hne
  rw [lookup, bind_of_some hdir]
  exact congrFun (update_self ..) _

end Table

/-- **`vm_copy_phys`, with the table for the two pages there**: it writes to that table and to the
new frame. -/
theorem vmCopyPhys_window (h : vm.entry vm.cr3 896 = some e) (hne : e.frame ≠ vm.cr3)
    (c : Contents) {old new : ℕ} (hold : old ≠ new) :
    ∃ words, vm.vmCopyPhysBytes c old new =
      some (vm.setTable e.frame words, update c new (c old)) := by
  have h0 : vm.entry vm.cr3 (pdIdx 0xE0000000) = some e := h
  have h1 : vm.entry vm.cr3 (pdIdx 0xE0001000) = some e := h
  have hpt : ptIdx 0xE0000000 ≠ ptIdx 0xE0001000 := by decide
  have hmap : vm.mapPage 0xE0000000 old false = vm.setTable e.frame _ := mapPage_present h0
  unfold vmCopyPhysBytes
  simp only [hmap, mapPage_setTable h1 hne]
  set words := update (update (vm.entry e.frame) (ptIdx 0xE0000000)
    (some ⟨old, true, false⟩)) (ptIdx 0xE0001000) (some ⟨new, true, false⟩) with hwords
  have hp : (vm.setTable e.frame words).lookup 0xE0000000 = some ⟨old, true, false⟩ := by
    rw [lookup_setTable h0 hne, hwords, update_of_ne hpt, update_self]
  have hq : (vm.setTable e.frame words).lookup 0xE0001000 = some ⟨new, true, false⟩ := by
    rw [lookup_setTable h1 hne, hwords, update_self]
  have hall : (fun o : Fin 4096 => if ∃ i ∈ List.finRange 1024, o.val / 4 = i.val then c old o
      else c new o) = c old :=
    funext fun o => if_pos ⟨⟨o.val / 4, by omega⟩, List.mem_finRange _, rfl⟩
  have hcopy := copyWords_eq (by decide) (by decide) hp hq hold (List.finRange 1024) c
  simp only [hall] at hcopy
  rw [hcopy, Option.map_some, unmapPage_setTable h0 hne, unmapPage_setTable h1 hne]
  exact ⟨_, rfl⟩

end Vm

/-- The directory entries that some pages need tables for. -/
def tablesOf (pages : List (ℕ × Pte)) : Finset (Fin 1024) :=
  (pages.map fun p => pdIdx p.1).toFinset

end PokuOS

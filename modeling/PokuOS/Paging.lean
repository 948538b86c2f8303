import Mathlib.Algebra.GroupWithZero.Nat
import Mathlib.Data.Fin.Basic
import Mathlib.Logic.Function.Basic
import PokuOS.Memory

/-!
# Frames and page tables

`kernel/paging.c`. A frame is named by its number, the physical address divided by the page
size. A page directory and a page table are frames of 1024 words; `Vm.entry f i` is word `i`
of frame `f` when its present bit is set.

The kernel reads and writes the loaded directory and its tables through the recursive entry
1023, at `0xFFFFF000` and `0xFFC00000`. Here that is `entry cr3` and the entries of the
frames it names. What else lies in memory is not part of this state, and neither are the
processor's address caches, which every change flushes.
-/

namespace PokuOS

/-- `PAGE_START_INDEX`. -/
def pageStartIndex : ℕ := 1024

/-- A present word of a page directory or page table. -/
structure Pte where
  /-- the frame it names -/
  frame : ℕ
  /-- `PTE_RW` -/
  rw : Bool
  /-- `PTE_USER` -/
  user : Bool
  deriving DecidableEq

instance neZero_tableSize : NeZero 1024 := ⟨by decide⟩

/-- The state of `paging.c`, the page tables and the `cr3` register. -/
structure Vm where
  /-- `vm_page_freeq` -/
  freeq : List ℕ
  /-- `vm_page_array[f].ref_count` -/
  refCount : ℕ → ℕ
  /-- the present words of directories and tables -/
  entry : ℕ → Fin 1024 → Option Pte
  /-- the loaded page directory -/
  cr3 : ℕ
  /-- `alloc_page_frame` has failed and called `vm_handle_pressure` -/
  pressure : Bool

/-- `vaddr >> 22`. -/
def pdIdx (vaddr : ℕ) : Fin 1024 := Fin.ofNat 1024 (vaddr / 2 ^ 22)

/-- `(vaddr >> 12) & 0x3FF`. -/
def ptIdx (vaddr : ℕ) : Fin 1024 := Fin.ofNat 1024 (vaddr / 2 ^ 12)

namespace Vm

/-! ## Frames -/

/-- `_alloc_phys_page`. -/
def allocPhysPage (vm : Vm) : Option ℕ × Vm :=
  match vm.freeq with
  | [] => (none, vm)
  | f :: freeq => (some f, { vm with freeq := freeq })

/-- `_free_phys_page`. -/
def freePhysPage (vm : Vm) (f : ℕ) : Vm :=
  if pageStartIndex ≤ f ∧ f < numPages then { vm with freeq := f :: vm.freeq } else vm

/-- Set the reference count of a frame. -/
def setRefCount (vm : Vm) (f n : ℕ) : Vm :=
  { vm with refCount := Function.update vm.refCount f n }

/-- `alloc_page_frame`. When there is no free frame, `vm_handle_pressure` runs and the list
is tried again; that does not free one. What it does to the running task is noted. -/
def allocPageFrame (vm : Vm) : Option ℕ × Vm :=
  match vm.allocPhysPage with
  | (none, vm) => (none, { vm with pressure := true })
  | (some f, vm) => (some f, if f < numPages then vm.setRefCount f 1 else vm)

/-- `free_page_frame`. -/
def freePageFrame (vm : Vm) (f : ℕ) : Vm :=
  if f < numPages then
    let vm := vm.setRefCount f (vm.refCount f - 1)
    if 0 < vm.refCount f then vm else vm.freePhysPage f
  else vm.freePhysPage f

/-! ## Tables -/

/-- Write a word of a directory or table. -/
def setEntry (vm : Vm) (f : ℕ) (i : Fin 1024) (e : Option Pte) : Vm :=
  { vm with entry := Function.update vm.entry f (Function.update (vm.entry f) i e) }

/-- Clear a new table. -/
def clearTable (vm : Vm) (f : ℕ) : Vm :=
  { vm with entry := Function.update vm.entry f fun _ => none }

/-- `page_present`. -/
def pagePresent (vm : Vm) (vaddr : ℕ) : Bool :=
  match vm.entry vm.cr3 (pdIdx vaddr) with
  | none => false
  | some pde => (vm.entry pde.frame (ptIdx vaddr)).isSome

theorem pagePresent_congr {vm vm' : Vm} {vaddr : ℕ} (hcr3 : vm'.cr3 = vm.cr3)
    (hdir : vm'.entry vm.cr3 = vm.entry vm.cr3)
    (htable : ∀ pde ∈ vm.entry vm.cr3 (pdIdx vaddr), vm'.entry pde.frame = vm.entry pde.frame) :
    vm'.pagePresent vaddr = vm.pagePresent vaddr := by
  unfold pagePresent
  rw [hcr3, hdir]
  cases hpde : vm.entry vm.cr3 (pdIdx vaddr) with
  | none => rfl
  | some pde =>
    simp only
    rw [htable pde hpde]

/-- `map_page`, with the flags `PTE_PRESENT | PTE_RW` and, if `user`, `PTE_USER`. Without a
free frame for a missing table it returns and has done nothing. -/
def mapPage (vm : Vm) (vaddr frame : ℕ) (user : Bool) : Vm :=
  match vm.entry vm.cr3 (pdIdx vaddr) with
  | some pde => vm.setEntry pde.frame (ptIdx vaddr) (some ⟨frame, true, user⟩)
  | none =>
    match vm.allocPhysPage with
    | (none, vm) => vm
    | (some pt, vm) =>
      ((vm.setEntry vm.cr3 (pdIdx vaddr) (some ⟨pt, true, true⟩)).clearTable pt).setEntry pt
        (ptIdx vaddr) (some ⟨frame, true, user⟩)

/-- `unmap_page`. -/
def unmapPage (vm : Vm) (vaddr : ℕ) : Vm :=
  match vm.entry vm.cr3 (pdIdx vaddr) with
  | none => vm
  | some pde => vm.setEntry pde.frame (ptIdx vaddr) none

theorem cr3_allocPageFrame (vm : Vm) : vm.allocPageFrame.2.cr3 = vm.cr3 := by
  unfold allocPageFrame allocPhysPage
  cases vm.freeq with
  | nil => rfl
  | cons f freeq =>
    simp only
    split <;> rfl

theorem entry_allocPageFrame (vm : Vm) : vm.allocPageFrame.2.entry = vm.entry := by
  unfold allocPageFrame allocPhysPage
  cases vm.freeq with
  | nil => rfl
  | cons f freeq =>
    simp only
    split <;> rfl

theorem cr3_mapPage (vm : Vm) (vaddr frame : ℕ) (user : Bool) :
    (vm.mapPage vaddr frame user).cr3 = vm.cr3 := by
  unfold mapPage allocPhysPage
  split
  · rfl
  · cases vm.freeq <;> rfl

theorem cr3_unmapPage (vm : Vm) (vaddr : ℕ) : (vm.unmapPage vaddr).cr3 = vm.cr3 := by
  unfold unmapPage
  split <;> rfl

/-- What an address is translated to. -/
def lookup (vm : Vm) (vaddr : ℕ) : Option Pte := do
  let pde ← vm.entry vm.cr3 (pdIdx vaddr)
  vm.entry pde.frame (ptIdx vaddr)

end Vm

/-! ## Start -/

/-- The frames of the tables that are part of the kernel's image. -/
structure StaticTables where
  pageDirectory : ℕ
  /-- `page_table_0` -/
  pageTable0 : ℕ
  /-- `page_table_physmap` -/
  physmap : Fin 16 → ℕ

/-- `paging_init`: the first 4 MiB and, from `0xC0000000` on, 64 MiB of physical memory are
mapped, and the frames after the first 1024 are free. -/
def pagingInit (tables : StaticTables) : Vm where
  freeq := List.range' pageStartIndex (numPages - pageStartIndex)
  refCount _ := 0
  entry f i :=
    if f = tables.pageDirectory then
      if i.val = 0 then some ⟨tables.pageTable0, true, false⟩
      else if i.val = 1023 then some ⟨tables.pageDirectory, true, false⟩
      else if 768 ≤ i.val ∧ i.val < 784 then
        some ⟨tables.physmap (Fin.ofNat 16 (i.val - 768)), true, false⟩
      else none
    else if f = tables.pageTable0 then some ⟨i.val, true, false⟩
    else ((List.finRange 16).find? fun j => tables.physmap j == f).map fun j =>
      ⟨j.val * 1024 + i.val, true, false⟩
  cr3 := tables.pageDirectory
  pressure := false

end PokuOS

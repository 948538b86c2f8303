import Mathlib.Data.List.FinRange
import PokuOS.Paging

/-!
# Address spaces

The parts of `kernel/paging.c`, `kernel/process.c` and `vm/vm.c` that make, copy, count and
take down the page tables of a task. All of them work on the loaded directory.

Kernel code that touches a page which `map_page` could not map takes a page fault in kernel
mode, and `exception_trap` halts the machine: such a function returns `none`.
-/

namespace PokuOS

/-- `MAX_USER_PAGES`. -/
def maxUserPages : ℕ := 256

/-- `USER_STACK_VIRT`. -/
def userStackVirt : ℕ := 0xBFFFF000

/-- The directory entries `1 … 767`, the user part. -/
def userEntries : List (Fin 1024) :=
  (List.finRange 1024).filter fun i => decide (1 ≤ i.val) && decide (i.val < 768)

namespace Vm

/-- `load_cr3`. -/
def loadCr3 (vm : Vm) (pd : ℕ) : Vm := { vm with cr3 := pd }

@[simp] theorem entry_loadCr3 (vm : Vm) (pd : ℕ) : (vm.loadCr3 pd).entry = vm.entry := rfl

@[simp] theorem cr3_loadCr3 (vm : Vm) (pd : ℕ) : (vm.loadCr3 pd).cr3 = pd := rfl

/-! ## Scanning the user part -/

/-- The present pages of table `i`, with their addresses. -/
def tablePages (vm : Vm) (i : Fin 1024) : List (ℕ × Pte) :=
  match vm.entry vm.cr3 i with
  | none => []
  | some pde =>
    (List.finRange 1024).filterMap fun j =>
      (vm.entry pde.frame j).map fun pte => (i.val * 2 ^ 22 + j.val * 2 ^ 12, pte)

/-- The present user pages, in the order of the two nested loops. -/
def userPages (vm : Vm) : List (ℕ × Pte) := userEntries.flatMap vm.tablePages

/-- `count_user_pages`. -/
def countUserPages (vm : Vm) : ℕ := vm.userPages.length

/-! ## A new directory -/

/-- The words of a new directory: the kernel's part is copied, the user part is empty, and the
last entry is the directory itself. -/
def newDirectory (vm : Vm) (pd : ℕ) : Fin 1024 → Option Pte := fun i =>
  if i.val = 1023 then some ⟨pd, true, false⟩
  else if i.val = 0 ∨ 768 ≤ i.val then vm.entry vm.cr3 i
  else none

/-- `paging_create_task_pd`; the new directory is filled through a page at `0xE0002000`. -/
def pagingCreateTaskPd (vm : Vm) : Option (Option ℕ × Vm) :=
  match vm.allocPageFrame with
  | (none, vm) => some (none, vm)
  | (some pd, vm) =>
    let vm := vm.mapPage 0xE0002000 pd false
    if vm.pagePresent 0xE0002000 then
      let vm := { vm with entry := Function.update vm.entry pd (vm.newDirectory pd) }
      some (some pd, vm.unmapPage 0xE0002000)
    else none

/-! ## Taking a directory down -/

/-- Free the frame a word names. -/
def freeWord (vm : Vm) (e : Option Pte) : Vm :=
  match e with
  | none => vm
  | some pte => vm.freePageFrame pte.frame

/-- The body of the outer loop of `teardown_current_pd`. -/
def freeTable (vm : Vm) (i : Fin 1024) : Vm :=
  match vm.entry vm.cr3 i with
  | none => vm
  | some pde =>
    let vm := (List.finRange 1024).foldl (fun vm j => vm.freeWord (vm.entry pde.frame j)) vm
    (vm.freePageFrame pde.frame).setEntry vm.cr3 i none

/-- `teardown_current_pd`. -/
def teardownCurrentPd (vm : Vm) (pdPhys targetCr3 : ℕ) : Vm :=
  ((userEntries.foldl freeTable vm).loadCr3 targetCr3).freePageFrame pdPhys

section Teardown

variable (vm : Vm)

theorem freePhysPage_eq (f : ℕ) : ∃ freeq, vm.freePhysPage f = { vm with freeq := freeq } := by
  unfold freePhysPage
  split
  · exact ⟨_, rfl⟩
  · exact ⟨vm.freeq, rfl⟩

/-- Freeing a frame changes the free list and reference counts only. -/
theorem freePageFrame_eq (f : ℕ) : ∃ freeq refCount,
    vm.freePageFrame f = { vm with freeq := freeq, refCount := refCount } := by
  unfold freePageFrame
  split
  · dsimp only
    split
    · exact ⟨_, _, rfl⟩
    · obtain ⟨freeq, hfree⟩ := (vm.setRefCount f (vm.refCount f - 1)).freePhysPage_eq f
      exact ⟨freeq, _, hfree⟩
  · obtain ⟨freeq, hfree⟩ := vm.freePhysPage_eq f
    exact ⟨freeq, vm.refCount, hfree⟩

@[simp] theorem entry_freePageFrame (f : ℕ) : (vm.freePageFrame f).entry = vm.entry := by
  obtain ⟨_, _, hfree⟩ := vm.freePageFrame_eq f
  rw [hfree]

@[simp] theorem cr3_freePageFrame (f : ℕ) : (vm.freePageFrame f).cr3 = vm.cr3 := by
  obtain ⟨_, _, hfree⟩ := vm.freePageFrame_eq f
  rw [hfree]

/-- Freeing the frames of some words changes neither tables nor the loaded directory. -/
theorem foldl_freeWord {α : Type} (words : Vm → α → Option Pte) (l : List α) :
    ∀ vm : Vm, (l.foldl (fun vm a => vm.freeWord (words vm a)) vm).entry = vm.entry ∧
      (l.foldl (fun vm a => vm.freeWord (words vm a)) vm).cr3 = vm.cr3 := by
  induction l with
  | nil => exact fun vm => ⟨rfl, rfl⟩
  | cons a l ih =>
    intro vm
    have hword : (vm.freeWord (words vm a)).entry = vm.entry ∧
        (vm.freeWord (words vm a)).cr3 = vm.cr3 := by
      unfold freeWord
      split
      · exact ⟨rfl, rfl⟩
      · exact ⟨entry_freePageFrame .., cr3_freePageFrame ..⟩
    exact ⟨(ih _).1.trans hword.1, (ih _).2.trans hword.2⟩

theorem cr3_freeTable (i : Fin 1024) : (vm.freeTable i).cr3 = vm.cr3 := by
  unfold freeTable
  split
  · rfl
  · exact (cr3_freePageFrame ..).trans (foldl_freeWord _ _ vm).2

/-- Only the loaded directory is written. -/
theorem entry_freeTable (i : Fin 1024) {f : ℕ} (hf : f ≠ vm.cr3) :
    (vm.freeTable i).entry f = vm.entry f := by
  unfold freeTable
  split
  · rfl
  · rename_i pde _
    obtain ⟨hentry, hcr3⟩ := foldl_freeWord (fun vm j => vm.entry pde.frame j)
      (List.finRange 1024) vm
    simp only [setEntry, entry_freePageFrame]
    rw [hcr3, Function.update_of_ne hf, hentry]

theorem entry_foldl_freeTable (l : List (Fin 1024)) {f : ℕ} :
    ∀ {vm : Vm}, f ≠ vm.cr3 → (l.foldl freeTable vm).entry f = vm.entry f := by
  induction l with
  | nil => exact fun _ => rfl
  | cons i l ih =>
    intro vm hf
    exact (ih (by rwa [cr3_freeTable])).trans (entry_freeTable vm i hf)

/-- **Taking down a directory leaves every other directory and table alone.** -/
theorem entry_teardownCurrentPd (pdPhys targetCr3 : ℕ) {f : ℕ} (hf : f ≠ vm.cr3) :
    (vm.teardownCurrentPd pdPhys targetCr3).entry f = vm.entry f := by
  rw [teardownCurrentPd, entry_freePageFrame, entry_loadCr3]
  exact entry_foldl_freeTable _ hf

/-- A page of another directory, in a table that is not the one taken down, stays. -/
theorem pagePresent_teardown {old pd vaddr : ℕ} (target : ℕ) (hpd : pd ≠ old)
    (htable : ∀ pde ∈ vm.entry pd (pdIdx vaddr), pde.frame ≠ old) :
    (((vm.loadCr3 old).teardownCurrentPd old target).loadCr3 pd).pagePresent vaddr =
      (vm.loadCr3 pd).pagePresent vaddr := by
  have hentry : ∀ f, f ≠ old →
      ((vm.loadCr3 old).teardownCurrentPd old target).entry f = vm.entry f :=
    fun f hf => entry_teardownCurrentPd (vm.loadCr3 old) old target hf
  refine pagePresent_congr rfl ?_ fun pde hpde => ?_
  · rw [entry_loadCr3, cr3_loadCr3, entry_loadCr3]
    exact hentry pd hpd
  · rw [entry_loadCr3, entry_loadCr3]
    exact hentry _ (htable pde hpde)

end Teardown

/-! ## Copying -/

/-- `vm_copy_phys`, through pages at `0xE0000000` and `0xE0001000`. -/
def vmCopyPhys (vm : Vm) (oldPhys newPhys : ℕ) : Option Vm :=
  let vm := (vm.mapPage 0xE0000000 oldPhys false).mapPage 0xE0001000 newPhys false
  if vm.pagePresent 0xE0000000 ∧ vm.pagePresent 0xE0001000 then
    some ((vm.unmapPage 0xE0000000).unmapPage 0xE0001000)
  else none

/-- The copy loop of `sys_fork`; `false` when there is no frame left. -/
def copyPages : List (ℕ × Pte) → Vm → Option (Bool × Vm)
  | [], vm => some (true, vm)
  | (vaddr, pte) :: pages, vm =>
    match vm.allocPageFrame with
    | (none, vm) => some (false, vm)
    | (some newPhys, vm) => do
      let vm ← (vm.mapPage vaddr newPhys true).vmCopyPhys pte.frame newPhys
      copyPages pages vm

/-! ## Write faults -/

/-- `vm_scan_user_pages`: every present user page has one reference. -/
def vmScanUserPages (vm : Vm) : Vm :=
  { vm with refCount := fun f =>
      if vm.userPages.any fun page => page.2.frame == f then 1 else vm.refCount f }

/-- The words of a table of user pages, read-only. -/
def readonlyTable (vm : Vm) (f : ℕ) : Fin 1024 → Option Pte := fun j =>
  (vm.entry f j).map fun pte => if pte.user then { pte with rw := false } else pte

/-- The body of the outer loop of `vm_protect_readonly`. -/
def protectTable (vm : Vm) (i : Fin 1024) : Vm :=
  match vm.entry vm.cr3 i with
  | none => vm
  | some pde =>
    let refs := fun f =>
      if (List.finRange 1024).any fun j =>
        (vm.entry pde.frame j).any fun pte => pte.user && pte.frame == f
      then 1 else vm.refCount f
    { vm with entry := Function.update vm.entry pde.frame (vm.readonlyTable pde.frame),
              refCount := refs }

/-- `vm_protect_readonly`. -/
def vmProtectReadonly (vm : Vm) : Vm := userEntries.foldl protectTable vm

/-- `vm_fault_cow`, with its result. -/
def vmFaultCow (vm : Vm) (vaddr : ℕ) : Option (ℤ × Vm) :=
  match vm.entry vm.cr3 (pdIdx vaddr) with
  | none => some (-1, vm)
  | some pde =>
    match vm.entry pde.frame (ptIdx vaddr) with
    | none => some (-1, vm)
    | some pte =>
      if !pte.user then some (-1, vm)
      else if pte.rw then some (0, vm)
      else if vm.refCount pte.frame = 1 then
        some (0, vm.setEntry pde.frame (ptIdx vaddr) (some { pte with rw := true }))
      else
        match vm.allocPageFrame with
        | (none, vm) => some (-1, vm)
        | (some newPhys, vm) => do
          let vm ← vm.vmCopyPhys pte.frame newPhys
          let vm := vm.freePageFrame pte.frame
          return (0, vm.setEntry pde.frame (ptIdx vaddr)
            (some { pte with frame := newPhys, rw := true }))

end Vm

end PokuOS

import PokuOS.ElfConfined
import PokuOS.Process

/-!
# New address spaces

`sys_fork`, `sys_exec` and `spawn_user_process` make a directory, load it, fill it, and either use
it or give it up. What is known while it is filled is a property `B` of the directory and the page
tables; what is known if there is no frame for it is a property `F`. There is one rule for each of
the three functions, which asks for what is to be shown at each of its exits.
-/

namespace PokuOS

theorem Vm.cr3_pagingCreateTaskPd (vm : Vm) :
    Post vm.pagingCreateTaskPd fun r => r.2.cr3 = vm.cr3 := by
  have hcr3 := vm.cr3_allocPageFrame
  unfold pagingCreateTaskPd
  rcases halloc : vm.allocPageFrame with ⟨pd, vm1⟩
  rw [halloc] at hcr3
  cases pd with
  | none => exact .some hcr3
  | some pd =>
    simp only
    split
    · exact .some ((cr3_unmapPage _ _).trans ((vm1.cr3_mapPage _ _ _).trans hcr3))
    · exact .none

namespace Kernel

/-- An image in order leaves the process table alone. -/
theorem sched_runElfLoad (L : Layout) (k : Kernel) {mem : Mem} {data : ℕ} (h : ImageOk mem data) :
    Post (k.runElfLoad L mem data) fun r => r.2.2.sched = k.sched := by
  have hconf : Confined ⟨k.vm, mem, []⟩ (elfLoad loaderFuel ⟨k.vm, mem, []⟩ data).2.2 :=
    Confined.elfLoad h
  unfold runElfLoad
  rcases hload : elfLoad loaderFuel ⟨k.vm, mem, []⟩ data with ⟨r, rest⟩
  cases r with
  | none => exact .none
  | some r =>
    refine .some ?_
    rw [hload] at hconf
    rw [L.reload_same k.sched hconf.mem]

/-- What `paging_create_task_pd` leaves: `B` of the new directory once it is loaded, or `F`. -/
def Makes (F : Vm → Prop) (B : ℕ → Vm → Prop) : Option ℕ × Vm → Prop
  | (none, vm) => F vm
  | (some pd, vm) => B pd (vm.loadCr3 pd)

/-- The image at `data` is in order, and `B` lasts while it is loaded into a new directory. -/
structure Builds (k : Kernel) (mem : Mem) (data : ℕ) (F : Vm → Prop) (B : ℕ → Vm → Prop) :
    Prop where
  /-- the image -/
  image : ImageOk mem data
  /-- `paging_create_task_pd` -/
  create : Post k.vm.pagingCreateTaskPd (Makes F B)
  /-- `elf_load` -/
  load : ∀ {pd vm}, B pd vm → B pd (elfLoad loaderFuel ⟨vm, mem, []⟩ data).2.2.vm
  /-- there is no frame for the stack -/
  full : ∀ {pd vm vm'}, vm.allocPageFrame = (none, vm') → B pd vm → B pd vm'
  /-- the stack page -/
  stack : ∀ {pd vm f vm'}, vm.allocPageFrame = (some f, vm') → B pd vm →
    B pd (vm'.mapPage userStackVirt f true)

variable {k : Kernel} {L : Layout} {F : Vm → Prop} {B : ℕ → Vm → Prop}

/-- Page tables do not matter. -/
theorem makes_const {p : Prop} (hp : p) (x : Option (Option ℕ × Vm)) :
    Post x (Makes (fun _ => True) fun _ _ => p) := by
  rintro ⟨_ | _, _⟩ -
  · trivial
  · exact hp

theorem Builds.const {mem : Mem} {data : ℕ} (h : ImageOk mem data) {p : Prop} (hp : p) :
    k.Builds mem data (fun _ => True) fun _ _ => p :=
  ⟨h, makes_const hp _, fun h => h, fun _ h => h, fun _ h => h⟩

/-- The new directory is loaded, and the image into it. -/
theorem Builds.runElfLoad {mem : Mem} {data : ℕ} (hB : k.Builds mem data F B) {pd : ℕ} {vm : Vm}
    (h : B pd (vm.loadCr3 pd)) :
    Post ((({ k with vm := vm } : Kernel).loadCr3 pd).runElfLoad L mem data) fun r =>
      r.2.2.sched = { k.sched with cr3 := pd } ∧ B pd r.2.2.vm := by
  intro r hr
  have hload := hB.load h
  refine ⟨sched_runElfLoad L _ hB.image r hr, ?_⟩
  unfold Kernel.runElfLoad at hr
  split at hr
  · cases hr
  · rename_i heq
    cases hr
    rw [show (({ k with vm := vm } : Kernel).loadCr3 pd).vm = vm.loadCr3 pd from rfl] at heq
    rw [heq] at hload
    exact hload

variable {P : ℤ × Kernel → Prop}

/-- **`sys_exec`.** -/
theorem sysExec_rule {file : FileRead} (path : CStr) (argv : List CStr)
    (hB : ∀ mem data, file = .image mem data → k.Builds mem data F B)
    (hsame : ∀ code, P (code, k))
    (hnone : ∀ vm, F vm → P (-eNomem, handlePressure { k with vm := vm }))
    (hfree : ∀ code pd vm, B pd vm → P (code, freeBuiltPd ⟨{ k.sched with cr3 := pd }, vm⟩ pd
      (k.sched.task k.sched.currentTask).cr3))
    (hswap : ∀ pd vm entry, B pd vm → Post (execSwap ⟨{ k.sched with cr3 := pd }, vm⟩
      k.sched.currentTask pd entry
      (resolvePath (k.sched.task k.sched.currentTask).rootPath path resolvedSize) argv) P) :
    Post (k.sysExec L path argv file) P := by
  unfold sysExec
  cases file with
  | missing => exact .some (hsame _)
  | noMemory => exact .some (hsame _)
  | unreadable => exact .some (hsame _)
  | image mem data =>
    have hB := hB mem data rfl
    refine hB.create.bind ?_
    rintro ⟨_ | pd, vm⟩ hvm
    · exact .some (hnone vm hvm)
    · refine (hB.runElfLoad hvm).bind ?_
      rintro ⟨r, entry, _, vm1⟩ ⟨rfl, h1⟩
      simp only
      split
      · exact .some (hfree _ pd _ h1)
      · split
        · rename_i halloc
          exact .some (hfree _ pd _ (hB.full halloc h1))
        · rename_i halloc
          exact hswap pd _ _ (hB.stack halloc h1)

/-- **`spawn_user_process`.** -/
theorem spawnUserProcess_rule {P : Option (Fin maxTasks) × Kernel → Prop} {file : FileRead}
    (path : CStr) (mapped : Bool)
    (hB : ∀ mem data, file = .image mem data → k.Builds mem data F B) (hsame : P (none, k))
    (hnone : ∀ vm, F vm → P (none, handlePressure { k with vm := vm }))
    (hback : ∀ pd vm, B pd vm →
      P (none, (loadCr3 ⟨{ k.sched with cr3 := pd }, vm⟩ k.vm.cr3).handlePressure))
    (htask : ∀ pd vm entry, B pd vm →
      P (spawnTask ⟨{ k.sched with cr3 := pd }, vm⟩ path pd k.vm.cr3 entry mapped)) :
    Post (k.spawnUserProcess L path file mapped) P := by
  unfold spawnUserProcess
  cases file with
  | missing => exact .some hsame
  | noMemory => exact .some hsame
  | unreadable => exact .some hsame
  | image mem data =>
    have hB := hB mem data rfl
    refine (hB.create.and k.vm.cr3_pagingCreateTaskPd).bind ?_
    rintro ⟨_ | pd, vm⟩ ⟨hvm, hcr3⟩
    · exact .some (hnone vm hvm)
    · refine (hB.runElfLoad hvm).bind ?_
      rintro ⟨r, entry, _, vm1⟩ ⟨rfl, h1⟩
      rw [show vm.cr3 = k.vm.cr3 from hcr3]
      simp only
      split
      · exact .some (hback pd _ h1)
      · split
        · rename_i halloc
          exact .some (hback pd _ (hB.full halloc h1))
        · rename_i halloc
          split
          · exact .some (htask pd _ _ (hB.stack halloc h1))
          · exact .none

theorem forkCopy_rule {child : Fin maxTasks} {pages : List (ℕ × Pte)}
    (hcreate : Post k.vm.pagingCreateTaskPd (Makes F B))
    (hcopy : ∀ pd vm, B pd vm → Post (vm.copyPages pages) fun r => B pd r.2)
    (hnone : ∀ vm, F vm → P (forkFail { k with vm := vm } child (-1)))
    (hshort : ∀ pd vm, B pd vm → P (forkFail (({ k with
      vm := vm.teardownCurrentPd pd (k.sched.task k.sched.currentTask).cr3 } : Kernel).loadCr3
        (k.sched.task k.sched.currentTask).cr3) child (-1))) (hdone : ∀ (pid : ℕ) pd vm s, B pd vm →
      s = (k.sched.modify (.slot child) fun task => { task with
        cr3 := pd, userEntry := (k.sched.task k.sched.currentTask).userEntry,
        userStack := (k.sched.task k.sched.currentTask).userStack, pagesCharged := pages.length }) →
      P (pid, ⟨Sched.enqueueTask { s with cr3 := (k.sched.task k.sched.currentTask).cr3 }
        (.slot child), vm.loadCr3 (k.sched.task k.sched.currentTask).cr3⟩)) :
    Post (k.forkCopy child pages) P := by
  refine hcreate.bind ?_
  rintro ⟨_ | pd, vm⟩ hvm
  · exact .some (hnone vm hvm)
  · refine (hcopy pd _ hvm).bind ?_
    rintro ⟨_ | _, vm⟩ hvm
    · exact .some (hshort pd vm hvm)
    · exact .some (hdone _ pd vm _ hvm rfl)

/-- **`sys_fork`.** -/
theorem sysFork_rule {sb : SandboxConfig} (hsame : P (-1, k))
    (hfail : ∀ child s f code, k.sched.createTaskSlot = (some child, s) →
      P (forkFail ⟨s.modify (.slot child) f, k.vm⟩ child code))
    (hcopy : ∀ child s fields, k.sched.createTaskSlot = (some child, s) →
      applySandbox (s.task s.currentTask) (forkFields s.currentTask (s.task (.slot child))) sb =
        .ok fields → k.vm.userPages.length ≤ maxUserPages →
      ¬(fields.memLimit / pageSize % 2 ^ 32 ≠ 0 ∧
        fields.memLimit / pageSize % 2 ^ 32 < k.vm.userPages.length) →
      Post (forkCopy ⟨s.modify (.slot child) fun _ => fields, k.vm⟩ child k.vm.userPages) P) :
    Post (k.sysFork sb) P := by
  unfold sysFork
  simp only
  split
  · exact .some hsame
  · rename_i hpages
    rcases hslot : k.sched.createTaskSlot with ⟨child, s⟩
    cases child with
    | none => exact .some hsame
    | some child =>
      simp only
      split
      · rename_i code _
        have hkept := hfail child s id code hslot
        rw [Sched.modify, id, Function.update_eq_self] at hkept
        exact .some hkept
      · rename_i fields hfields
        split
        · exact .some (hfail child s _ (-1) hslot)
        · rename_i hlimit
          exact hcopy child s fields hslot hfields (Nat.le_of_not_lt hpages) hlimit

end Kernel

end PokuOS

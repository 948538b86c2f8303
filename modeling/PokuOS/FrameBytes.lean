import PokuOS.Process

/-!
# What the frames hold

`vm_copy_phys` and `sys_fork` once more, with the bytes of the frames: every word is read and
written where the loaded directory maps it. What directories and tables hold is `Vm.entry`, here
as there; `Contents` is about the frames that are pages.

* `Vm.vmCopyPhys_eq`, `Vm.copyPages_eq`, `Kernel.sysFork_eq` — frames and tables do not depend on
  the bytes: the calls are the ones of `AddressSpace` and `Process`.
* `Vm.copyWords_eq` — **the loop of `vm_copy_phys` copies the page**.
-/

namespace PokuOS

open Function

/-- The bytes of a frame. -/
abbrev PageBytes : Type := Fin 4096 → UInt8

/-- What the frames hold. -/
abbrev Contents : Type := ℕ → PageBytes

/-- `new_v[i] = old_v[i]`: the four bytes of a word. -/
def copyWord (old new : PageBytes) (i : Fin 1024) : PageBytes := fun o =>
  if o.val / 4 = i.val then old o else new o

namespace Vm

/-! ## Copying -/

/-- The loop of `vm_copy_phys` over words: `none` when an address is not mapped. -/
def copyWords (vm : Vm) (oldV newV : ℕ) : List (Fin 1024) → Contents → Option Contents
  | [], c => some c
  | i :: is, c => do
    let old ← vm.lookup (oldV + 4 * i.val)
    let new ← vm.lookup (newV + 4 * i.val)
    vm.copyWords oldV newV is
      (Function.update c new.frame (copyWord (c old.frame) (c new.frame) i))

/-- `vm_copy_phys`. -/
def vmCopyPhysBytes (vm : Vm) (c : Contents) (oldPhys newPhys : ℕ) : Option (Vm × Contents) :=
  let vm := (vm.mapPage 0xE0000000 oldPhys false).mapPage 0xE0001000 newPhys false
  (vm.copyWords 0xE0000000 0xE0001000 (List.finRange 1024) c).map fun c =>
    ((vm.unmapPage 0xE0000000).unmapPage 0xE0001000, c)

/-- The copy loop of `sys_fork`; `false` when there is no frame left. -/
def copyPagesBytes : List (ℕ × Pte) → Vm → Contents → Option (Bool × Vm × Contents)
  | [], vm, c => some (true, vm, c)
  | (vaddr, pte) :: pages, vm, c =>
    match vm.allocPageFrame with
    | (none, vm) => some (false, vm, c)
    | (some newPhys, vm) => do
      let (vm, c) ← (vm.mapPage vaddr newPhys true).vmCopyPhysBytes c pte.frame newPhys
      copyPagesBytes pages vm c

theorem lookup_isSome (vm : Vm) (vaddr : ℕ) : (vm.lookup vaddr).isSome = vm.pagePresent vaddr := by
  unfold lookup pagePresent
  cases vm.entry vm.cr3 (pdIdx vaddr) <;> rfl

/-- An address of the same page. -/
theorem lookup_add (vm : Vm) {base o : ℕ} (hbase : base % 4096 = 0) (ho : o < 4096) :
    vm.lookup (base + o) = vm.lookup base := by
  have hpage : (base + o) / 2 ^ 12 = base / 2 ^ 12 := by omega
  have htable : (base + o) / 2 ^ 22 = base / 2 ^ 22 := by omega
  unfold lookup pdIdx ptIdx
  rw [hpage, htable]

section Words

variable {vm : Vm} {oldV newV : ℕ} {p q : Pte}

section

variable (hold : oldV % 4096 = 0) (hnew : newV % 4096 = 0)
include hold hnew

/-- **Words that are mapped are copied**, one page to another. -/
theorem copyWords_eq (hp : vm.lookup oldV = some p) (hq : vm.lookup newV = some q)
    (hne : p.frame ≠ q.frame) (is : List (Fin 1024)) :
    ∀ c, vm.copyWords oldV newV is c =
      some (update c q.frame fun o =>
        if ∃ i ∈ is, o.val / 4 = i.val then c p.frame o else c q.frame o) := by
  induction is with
  | nil => simp [copyWords]
  | cons i is ih =>
    intro c
    have hi : 4 * i.val < 4096 := by omega
    have hp' := (vm.lookup_add hold hi).trans hp
    have hq' := (vm.lookup_add hnew hi).trans hq
    rw [copyWords, bind_of_some hp', bind_of_some hq', ih, update_of_ne hne,
      update_self, update_idem]
    refine congrArg (fun page => some (update c q.frame page)) (funext fun o => ?_)
    by_cases hrest : ∃ i ∈ is, o.val / 4 = i.val
    · rw [if_pos hrest, if_pos (by simp [hrest])]
    · rw [if_neg hrest, copyWord]
      by_cases ho : o.val / 4 = i.val
      · rw [if_pos ho, if_pos ⟨i, List.mem_cons_self, ho⟩]
      · rw [if_neg ho, if_neg (by simpa [ho] using hrest)]

theorem copyWords_none (h : vm.lookup oldV = none ∨ vm.lookup newV = none) (i : Fin 1024)
    (is : List (Fin 1024)) (c : Contents) : vm.copyWords oldV newV (i :: is) c = none := by
  have hi : 4 * i.val < 4096 := by omega
  rw [copyWords, vm.lookup_add hold hi, vm.lookup_add hnew hi]
  rcases h with h | h <;> rw [h]
  · rfl
  · cases vm.lookup oldV <;> rfl

theorem copyWords_isSome (hp : vm.lookup oldV = some p) (hq : vm.lookup newV = some q)
    (is : List (Fin 1024)) : ∀ c, (vm.copyWords oldV newV is c).isSome := by
  induction is with
  | nil => exact fun _ => rfl
  | cons i is ih =>
    intro c
    have hi : 4 * i.val < 4096 := by omega
    rw [copyWords, bind_of_some ((vm.lookup_add hold hi).trans hp),
      bind_of_some ((vm.lookup_add hnew hi).trans hq)]
    exact ih _

end

end Words

/-! ## The same calls -/

theorem vmCopyPhys_eq (vm : Vm) (c : Contents) (oldPhys newPhys : ℕ) :
    (vm.vmCopyPhysBytes c oldPhys newPhys).map Prod.fst = vm.vmCopyPhys oldPhys newPhys := by
  unfold vmCopyPhysBytes vmCopyPhys
  simp only [← lookup_isSome, Option.map_map]
  generalize (vm.mapPage 0xE0000000 oldPhys false).mapPage 0xE0001000 newPhys false = vm
  cases hp : vm.lookup 0xE0000000 with
  | none =>
    rw [List.finRange_succ, copyWords_none (by decide) (by decide) (.inl hp)]
    rfl
  | some p =>
    cases hq : vm.lookup 0xE0001000 with
    | none =>
      rw [List.finRange_succ, copyWords_none (by decide) (by decide) (.inr hq)]
      rfl
    | some q =>
      obtain ⟨c', hc'⟩ := Option.isSome_iff_exists.mp
        (copyWords_isSome (by decide) (by decide) hp hq (List.finRange 1024) c)
      rw [hc']
      rfl

theorem copyPages_eq (pages : List (ℕ × Pte)) : ∀ (vm : Vm) (c : Contents),
    (copyPagesBytes pages vm c).map (fun r => (r.1, r.2.1)) = copyPages pages vm := by
  induction pages with
  | nil => exact fun _ _ => rfl
  | cons page pages ih =>
    intro vm c
    obtain ⟨vaddr, pte⟩ := page
    unfold copyPagesBytes copyPages
    rcases vm.allocPageFrame with ⟨f, vm⟩
    cases f with
    | none => rfl
    | some f =>
      simp only
      rw [← vmCopyPhys_eq (vm.mapPage vaddr f true) c pte.frame f]
      cases (vm.mapPage vaddr f true).vmCopyPhysBytes c pte.frame f with
      | none => rfl
      | some r => exact ih r.1 r.2

end Vm

/-! ## `sys_fork` -/

namespace Kernel

/-- `sys_fork` from the end of the copy loop on, with the new directory `pd` loaded. -/
def forkEnd (k : Kernel) (child : Fin maxTasks) (pages : List (ℕ × Pte)) (pd : ℕ) (ok : Bool)
    (vm : Vm) : ℤ × Kernel :=
  let parent := k.sched.task k.sched.currentTask
  if ok then
    let s := k.sched.modify (.slot child) fun task =>
      { task with cr3 := pd, userEntry := parent.userEntry, userStack := parent.userStack,
                  pagesCharged := pages.length }
    let k := ({ sched := s, vm := vm } : Kernel).loadCr3 parent.cr3
    ((s.task (.slot child)).pid, { k with sched := k.sched.enqueueTask (.slot child) })
  else
    let k : Kernel := { k with vm := vm.teardownCurrentPd pd parent.cr3 }
    forkFail (k.loadCr3 parent.cr3) child (-1)

/-- `sys_fork` from the new directory on. -/
def forkCopyBytes (k : Kernel) (c : Contents) (child : Fin maxTasks) (pages : List (ℕ × Pte)) :
    Option ((ℤ × Kernel) × Contents) := do
  let (pd, vm) ← k.vm.pagingCreateTaskPd
  match pd with
  | none => return (forkFail { k with vm := vm } child (-1), c)
  | some pd => do
    let (ok, vm, c) ← (vm.loadCr3 pd).copyPagesBytes pages c
    return (k.forkEnd child pages pd ok vm, c)

/-- `sys_fork`. -/
def sysForkBytes (k : Kernel) (c : Contents) (sb : SandboxConfig) :
    Option ((ℤ × Kernel) × Contents) :=
  let pages := k.vm.userPages
  if maxUserPages < pages.length then some ((-1, k), c)
  else
    match k.sched.createTaskSlot with
    | (none, _) => some ((-1, k), c)
    | (some child, s) =>
      let parent := s.currentTask
      match applySandbox (s.task parent) (forkFields parent (s.task (.slot child))) sb with
      | .error code => some (forkFail { k with sched := s } child code, c)
      | .ok fields =>
        let k : Kernel := { k with sched := s.modify (.slot child) fun _ => fields }
        let limitPages := fields.memLimit / pageSize % 2 ^ 32
        if limitPages ≠ 0 ∧ limitPages < pages.length then some (forkFail k child (-1), c)
        else k.forkCopyBytes c child pages

theorem forkCopy_eq (k : Kernel) (c : Contents) (child : Fin maxTasks) (pages : List (ℕ × Pte)) :
    (k.forkCopyBytes c child pages).map Prod.fst = k.forkCopy child pages := by
  unfold forkCopyBytes forkCopy
  cases k.vm.pagingCreateTaskPd with
  | none => rfl
  | some r =>
    obtain ⟨pd, vm⟩ := r
    cases pd with
    | none => rfl
    | some pd =>
      simp only [Option.bind_eq_bind, Option.bind_some]
      rw [← Vm.copyPages_eq pages (vm.loadCr3 pd) c]
      cases (vm.loadCr3 pd).copyPagesBytes pages c with
      | none => rfl
      | some r =>
        obtain ⟨ok, vm, c⟩ := r
        cases ok <;> rfl

/-- **Frames, tables and tasks after the call do not depend on the bytes.** -/
theorem sysFork_eq (k : Kernel) (c : Contents) (sb : SandboxConfig) :
    (k.sysForkBytes c sb).map Prod.fst = k.sysFork sb := by
  unfold sysForkBytes sysFork
  simp only
  split
  · rfl
  rcases k.sched.createTaskSlot with ⟨child, s⟩
  cases child with
  | none => rfl
  | some child =>
    simp only
    cases applySandbox (s.task s.currentTask)
        (forkFields s.currentTask (s.task (.slot child))) sb with
    | error code => rfl
    | ok fields =>
      simp only
      split
      · rfl
      · exact forkCopy_eq ..

end Kernel

end PokuOS

import PokuOS.ForkFrames

/-!
# A fork that fails

`sys_fork` has eight exits with an error, the last of them in the middle of the copy loop, under the
child's directory. Each frees the child's slot, and the last one takes the directory down. What is
left to ask is whether the frames come back, and whether the slot was clear before.

* `Kernel.Undone` — **the call has left no trace** but in `pid_counter`.
* `Kernel.ForkUndoes` — when that is so, by what is there before the call.
* `fork_undone_iff` — the two agree for every call that fails.
-/

namespace PokuOS

open Function

deriving instance DecidableEq for Task

namespace Kernel

/-- **Nothing is left of the call**: `k` is before it and `k'` after it. -/
structure Undone (k k' : Kernel) : Prop where
  /-- the same frames are free -/
  free : ∀ f, f ∈ k'.vm.freeq ↔ f ∈ k.vm.freeq
  loaded : k'.vm.cr3 = k.vm.cr3
  /-- it maps the same user pages -/
  space : ∀ va, UserIdx (pdIdx va) → k'.vm.lookup va = k.vm.lookup va
  /-- the slots of other tasks, and the free ones -/
  others : ∀ t, t ≠ k.sched.currentTask → k'.sched.task t = k.sched.task t
  /-- the running task, which may have become critical -/
  running : k'.sched.task k.sched.currentTask = k.sched.task k.sched.currentTask ∨
    k'.sched.task k.sched.currentTask = makeCritical (k.sched.task k.sched.currentTask)
  /-- the queues, and all else but `pid_counter` -/
  rest : { k'.sched with task := k.sched.task, pidCounter := k.sched.pidCounter,
                         cr3 := k.sched.cr3 } = k.sched

/-- The checks of `sys_fork` between the slot and the directory: the sandbox is refused, or the
parent has more pages than the child may have. -/
def forkRefused (k : Kernel) (sb : SandboxConfig) (child : Fin maxTasks) (s : Sched) : Prop :=
  match applySandbox (s.task s.currentTask)
    (forkFields s.currentTask (s.task (.slot child))) sb with
  | .error _ => True
  | .ok fields =>
    fields.memLimit / pageSize % 2 ^ 32 ≠ 0 ∧
      fields.memLimit / pageSize % 2 ^ 32 < k.vm.userPages.length

/-- **When a fork that fails undoes itself**: it fails before it takes a slot; or the slot it takes
was clear, and it fails before it takes a frame, or it loses none. -/
def ForkUndoes (k : Kernel) (sb : SandboxConfig) : Prop :=
  maxUserPages < k.vm.userPages.length ∨
    match k.sched.createTaskSlot with
    | (none, _) => True
    | (some child, s) => k.sched.task (.slot child) = Task.zero ∧
        (k.forkRefused sb child s ∨ k.vm.freeq = [] ∨ k.vm.ForkSpared)

instance (k : Kernel) (sb : SandboxConfig) (child : Fin maxTasks) (s : Sched) :
    Decidable (k.forkRefused sb child s) :=
  match h : applySandbox (s.task s.currentTask)
    (forkFields s.currentTask (s.task (.slot child))) sb with
  | .error _ => isTrue (by rw [forkRefused, h]; trivial)
  | .ok fields =>
    decidable_of_iff (fields.memLimit / pageSize % 2 ^ 32 ≠ 0 ∧
      fields.memLimit / pageSize % 2 ^ 32 < k.vm.userPages.length) (by rw [forkRefused, h])

instance (k : Kernel) (sb : SandboxConfig) : Decidable (k.ForkUndoes sb) :=
  match h : k.sched.createTaskSlot with
  | (none, _) => isTrue (by rw [ForkUndoes, h]; exact Or.inr trivial)
  | (some child, s) =>
    decidable_of_iff (maxUserPages < k.vm.userPages.length ∨
      k.sched.task (.slot child) = Task.zero ∧
        (k.forkRefused sb child s ∨ k.vm.freeq = [] ∨ k.vm.ForkSpared)) (by rw [ForkUndoes, h])

section Exits

variable {k : Kernel} {sb : SandboxConfig} {child : Fin maxTasks} {s : Sched}

theorem Undone.refl (k : Kernel) : k.Undone k :=
  ⟨fun _ => Iff.rfl, rfl, fun _ _ => rfl, fun _ _ => rfl, .inl rfl, rfl⟩

/-- **The exits of `sys_fork`**: at once, after the checks, or in the copy. -/
theorem sysFork_cases : Post (k.sysFork sb) fun r =>
    (maxUserPages < k.vm.userPages.length ∨ k.sched.createTaskSlot.1 = none) ∧ r = (-1, k) ∨
    ¬maxUserPages < k.vm.userPages.length ∧
      ∃ child s f, k.sched.createTaskSlot = (some child, s) ∧
        (k.forkRefused sb child s ∧
            (∃ code, r = forkFail ⟨s.modify (.slot child) f, k.vm⟩ child code) ∨
          ¬k.forkRefused sb child s ∧
            forkCopy ⟨s.modify (.slot child) f, k.vm⟩ child k.vm.userPages = some r) := by
  unfold sysFork
  simp only
  split
  · rename_i hmany
    exact .some (.inl ⟨.inl hmany, rfl⟩)
  rename_i hfew
  rcases hslot : k.sched.createTaskSlot with ⟨child, s⟩
  cases child with
  | none => exact .some (.inl ⟨.inr rfl, rfl⟩)
  | some child =>
    simp only
    cases hfields : applySandbox (s.task s.currentTask)
        (forkFields s.currentTask (s.task (.slot child))) sb with
    | error code =>
      refine .some (.inr ⟨hfew, child, s, id, rfl, .inl ⟨?_, code, ?_⟩⟩)
      · rw [forkRefused, hfields]
        trivial
      · have hsame : s.modify (.slot child) id = s := by
          simp only [Sched.modify, id_eq, update_eq_self]
        rw [hsame]
    | ok fields =>
      have hiff : k.forkRefused sb child s ↔ fields.memLimit / pageSize % 2 ^ 32 ≠ 0 ∧
          fields.memLimit / pageSize % 2 ^ 32 < k.vm.userPages.length := by
        rw [forkRefused, hfields]
      simp only
      split
      · rename_i hlimit
        exact .some (.inr ⟨hfew, child, s, _, rfl, .inl ⟨hiff.mpr hlimit, -1, rfl⟩⟩)
      · rename_i hlimit
        intro r hr
        exact .inr ⟨hfew, child, s, _, rfl, .inr ⟨fun hc => hlimit (hiff.mp hc), hr⟩⟩

/-- A promotion is all `vm_handle_pressure` does. -/
theorem task_handlePressure (k : Kernel) (t : TaskPtr) :
    (t ≠ k.sched.currentTask → k.handlePressure.sched.task t = k.sched.task t) ∧
      (k.handlePressure.sched.task t = k.sched.task t ∨
        k.handlePressure.sched.task t = makeCritical (k.sched.task t)) := by
  unfold handlePressure
  split
  · simp only [Sched.task_modify]
    by_cases ht : t = k.sched.currentTask
    · rw [if_pos ht, ht]
      exact ⟨fun hc => absurd rfl hc, .inr rfl⟩
    · rw [if_neg ht]
      exact ⟨fun _ => rfl, .inl rfl⟩
  · exact ⟨fun _ => rfl, .inl rfl⟩

theorem rest_handlePressure (k : Kernel) :
    k.handlePressure.vm = { k.vm with pressure := k.handlePressure.vm.pressure } ∧
      k.handlePressure.sched = { k.sched with task := k.handlePressure.sched.task } := by
  unfold handlePressure
  split <;> exact ⟨rfl, rfl⟩

/-- The scheduler once the new slot is given up. -/
theorem freeTaskSlot_createTaskSlot (hslot : k.sched.createTaskSlot = (some child, s))
    (f : Task → Task) (cr3 : ℕ) :
    ({ s.modify (.slot child) f with cr3 := cr3 } : Sched).freeTaskSlot (.slot child) =
      { k.sched with task := update k.sched.task (.slot child) Task.zero,
                     pidCounter := k.sched.pidCounter + 1, cr3 := cr3 } := by
  unfold Sched.createTaskSlot at hslot
  split at hslot
  · cases (Prod.mk.inj hslot).1
  · obtain ⟨hi, rfl⟩ := Prod.mk.inj hslot
    cases hi
    simp only [Sched.freeTaskSlot, Sched.modify, update_idem]

/-- **The child is given up**: what is left is the slot, and the frames. -/
theorem undone_forkFail_iff (hslot : k.sched.createTaskSlot = (some child, s))
    (hne : k.sched.currentTask ≠ .slot child) (f : Task → Task) (cr3 : ℕ) (vm : Vm)
    (hloaded : vm.cr3 = k.vm.cr3)
    (hspace : ∀ va, UserIdx (pdIdx va) → vm.lookup va = k.vm.lookup va) (code : ℤ) :
    k.Undone (forkFail ⟨{ s.modify (.slot child) f with cr3 := cr3 }, vm⟩ child code).2 ↔
      k.sched.task (.slot child) = Task.zero ∧ ∀ f, f ∈ vm.freeq ↔ f ∈ k.vm.freeq := by
  rw [forkFail]
  simp only [freeTaskSlot_createTaskSlot hslot]
  generalize hk1 : (⟨{ k.sched with
    task := update k.sched.task (.slot child) Task.zero,
    pidCounter := k.sched.pidCounter + 1, cr3 := cr3 }, vm⟩ : Kernel) = k1
  have hvm1 : k1.vm = vm := by rw [← hk1]
  have hcurrent : k1.sched.currentTask = k.sched.currentTask := by rw [← hk1]
  have htask : ∀ t, k1.sched.task t =
      if t = .slot child then Task.zero else k.sched.task t := fun t => by
    rw [← hk1]
    exact update_apply ..
  have hsched : { k1.sched with task := k.sched.task, pidCounter := k.sched.pidCounter,
                                cr3 := k.sched.cr3 } = k.sched := by
    rw [← hk1]
  obtain ⟨hvm, hrest⟩ := k1.rest_handlePressure
  have hfree : k1.handlePressure.vm.freeq = vm.freeq := by rw [hvm, hvm1]
  constructor
  · intro h
    refine ⟨?_, fun g => ?_⟩
    · have hsame := h.others (.slot child) hne.symm
      rw [(k1.task_handlePressure _).1 (by rw [hcurrent]; exact hne.symm), htask, if_pos rfl]
        at hsame
      exact hsame.symm
    · rw [← hfree]
      exact h.free g
  · rintro ⟨hzero, hall⟩
    have htask' : ∀ t, k1.sched.task t = k.sched.task t := fun t => by
      rw [htask]
      split
      · rename_i ht
        rw [ht, hzero]
      · rfl
    refine ⟨fun g => ?_, ?_, fun va hva => ?_, fun t ht => ?_, ?_, ?_⟩
    · rw [hfree]
      exact hall g
    · rw [hvm, hvm1]
      exact hloaded
    · rw [hvm, hvm1]
      exact hspace va hva
    · rw [(k1.task_handlePressure t).1 (by rw [hcurrent]; exact ht), htask']
    · rw [← htask']
      exact (k1.task_handlePressure _).2
    · rw [hrest]
      exact hsched

/-- What is asked of a call that takes a slot. -/
theorem forkUndoes_iff (hfew : ¬maxUserPages < k.vm.userPages.length)
    (hslot : k.sched.createTaskSlot = (some child, s)) :
    k.ForkUndoes sb ↔ k.sched.task (.slot child) = Task.zero ∧
      (k.forkRefused sb child s ∨ k.vm.freeq = [] ∨ k.vm.ForkSpared) := by
  rw [ForkUndoes, hslot]
  exact or_iff_right hfew

variable {owner : ℕ → Option Owner} {cache : List (Option CacheSlot)}

/-- **The exits after the checks.** -/
theorem Isolated.undone_forkCopy {dirs : Set ℕ} {top : ℕ} (hk : k.Isolated owner dirs cache top)
    (hcounted : k.vm.Counted) (hslot : k.sched.createTaskSlot = (some child, s)) (f : Task → Task)
    {code : ℤ} {k' : Kernel}
    (hcopy : Kernel.forkCopy ⟨s.modify (.slot child) f, k.vm⟩ child k.vm.userPages =
      some (code, k')) (hneg : code < 0) :
    k.Undone k' ↔ k.sched.task (.slot child) = Task.zero ∧ (k.vm.freeq = [] ∨ k.vm.ForkSpared) := by
  have hnew := Sched.newSlot_of_createTaskSlot hslot
  have hne := hk.runs.ne hnew.free
  have hat : AtSlot k.sched (s.modify (.slot child) f) child := (NewSlot.atSlot hnew).modify _
  have hparent : ((s.modify (.slot child) f).task (s.modify (.slot child) f).currentTask).cr3 =
      k.vm.cr3 := by
    rw [hk.cr3, hat.currentTask, hat.others _ hne]
  obtain ⟨⟨pd, vm1⟩, hpd, hcopy⟩ := Option.bind_eq_some_iff.mp hcopy
  simp only at hpd hcopy
  cases pd with
  | none =>
    obtain ⟨hfree, rfl⟩ := Vm.createTaskPd_none hpd
    cases hcopy
    have hiff := undone_forkFail_iff hslot hne f (s.modify (.slot child) f).cr3
      { k.vm with pressure := true } rfl (fun _ _ => rfl) (-1)
    refine hiff.trans (and_congr_right fun _ => iff_of_true (fun _ => Iff.rfl) (.inl hfree))
  | some pd =>
    obtain ⟨ok, vm2, hloop, -, hrestored, hspace, -⟩ := hk.forkLoop hcounted hpd
    obtain ⟨w, hfree, -⟩ := Vm.createTaskPd_freeq hpd
    obtain ⟨r, hr, hcopy⟩ := Option.bind_eq_some_iff.mp hcopy
    cases hloop.symm.trans hr
    cases ok with
    | true =>
      obtain ⟨rfl, -⟩ := Prod.mk.inj (Option.some.inj hcopy)
      exact absurd hneg (Int.not_lt.mpr (Int.natCast_nonneg _))
    | false =>
      simp only [Bool.false_eq_true, if_false, hparent] at hcopy
      specialize hrestored k.vm.cr3
      specialize hspace k.vm.cr3 k.vm.cr3
      generalize vm2.teardownCurrentPd pd k.vm.cr3 = vm3 at hcopy hrestored hspace
      cases hcopy
      have hiff := undone_forkFail_iff hslot hne f k.vm.cr3 (vm3.loadCr3 k.vm.cr3) rfl
        (fun va hva => hspace va hk.loaded hva) (-1)
      refine hiff.trans (and_congr_right fun _ => hrestored.trans ?_)
      rw [hfree]
      exact (or_iff_right nofun).symm

/-- **All exits.** -/
theorem Isolated.undone_sysFork {dirs : Set ℕ} {top : ℕ} (hk : k.Isolated owner dirs cache top)
    (hcounted : k.vm.Counted) {code : ℤ} {k' : Kernel} (hfork : k.sysFork sb = some (code, k'))
    (hneg : code < 0) : k.Undone k' ↔ k.ForkUndoes sb := by
  rcases sysFork_cases _ hfork with
    ⟨hearly, hr⟩ | ⟨hfew, child, s, f, hslot, ⟨hrefused, code', hr⟩ | ⟨hpassed, hcopy⟩⟩
  · rw [(Prod.mk.inj hr).2]
    refine iff_of_true (.refl _) (hearly.imp_right fun hnone => ?_)
    rcases hslot : k.sched.createTaskSlot with ⟨child, s⟩
    rw [hslot] at hnone
    rw [show child = none from hnone]
    trivial
  · have hne := hk.runs.ne (Sched.newSlot_of_createTaskSlot hslot).free
    obtain ⟨-, rfl⟩ := Prod.mk.inj hr
    rw [forkUndoes_iff hfew hslot]
    have hiff := undone_forkFail_iff hslot hne f (s.modify (.slot child) f).cr3 k.vm rfl
      (fun _ _ => rfl) code'
    exact hiff.trans (and_congr_right fun _ => iff_of_true (fun _ => Iff.rfl) (.inl hrefused))
  · rw [forkUndoes_iff hfew hslot, or_iff_right hpassed]
    exact hk.undone_forkCopy hcounted hslot f hcopy hneg

end Exits

end Kernel

/-- **When a fork that fails leaves no trace.** For every machine whose frames are in order, every
sandbox and every free list: if `sys_fork` returns an error, then the free frames, the loaded
directory and what it maps, all slots and all queues are what they were, if and only if the call
failed before it took a slot, or the slot it took was clear and no frame was lost. -/
theorem fork_undone_iff {st : FrameState} (h : st.Isolated) (hcounted : st.Counted)
    (sb : SandboxConfig) {code : ℤ} {k' : Kernel}
    (hfork : st.kernel.sysFork sb = some (code, k')) (hneg : code < 0) :
    st.kernel.Undone k' ↔ st.kernel.ForkUndoes sb := by
  obtain ⟨owner, dirs, top, hk, -, -⟩ := h
  exact hk.undone_sysFork hcounted hfork hneg

/-- With three free frames, the program's fork fails and leaves no trace: they are the directory, a
page and its table. -/
theorem fork_undone_iff_program : ∃ st code k', FrameState.Isolated st ∧ st.Counted ∧
    st.kernel.sysFork .inherit = some (code, k') ∧ code < 0 ∧ st.kernel.Undone k' := by
  obtain ⟨st, hiso, hcounted, ⟨⟨code, k'⟩, hfork, hneg⟩, hundoes⟩ := exists_program 3
    (fun st => (∃ r ∈ st.kernel.sysFork .inherit, r.1 < 0) ∧ st.kernel.ForkUndoes .inherit)
    (by decide +kernel)
  refine ⟨st, code, k', hiso, hcounted, hfork, hneg, ?_⟩
  exact (fork_undone_iff hiso hcounted .inherit hfork hneg).mpr hundoes

/-- **With two, a frame is gone**: the call fails, and not all is what it was. -/
theorem failed_fork_loses_frame : ∃ st code k', FrameState.Isolated st ∧ st.Counted ∧
    st.kernel.vm.freeq.length = 2 ∧ st.kernel.sysFork .inherit = some (code, k') ∧ code < 0 ∧
    ¬st.kernel.Undone k' := by
  obtain ⟨st, hiso, hcounted, ⟨⟨code, k'⟩, hfork, hneg⟩, htwo, hnot⟩ := exists_program 2
    (fun st => (∃ r ∈ st.kernel.sysFork .inherit, r.1 < 0) ∧ st.kernel.vm.freeq.length = 2 ∧
      ¬st.kernel.ForkUndoes .inherit) (by decide +kernel)
  obtain ⟨owner, dirs, top, hk, -, -⟩ := id hiso
  exact ⟨st, code, k', hiso, hcounted, htwo, hfork, hneg, fun hundone =>
    hnot ((hk.undone_sysFork hcounted hfork hneg).mp hundone)⟩

end PokuOS

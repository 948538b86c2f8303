import PokuOS.ForkFrames

/-!
# When a child is an exact copy

`fork_copies_iff` — **the child is an exact copy if and only if the pool has all the frames**: for
the directory, the pages and their tables. With one frame less the call may return a task all the
same, and its last page is missing.
-/

namespace PokuOS

open Kernel Option Vm

section Done

variable {vm vm2 : Vm} {c0 c' : Contents} {pool : List ℕ}

/-- **With all pages copied, the same pages are mapped.** -/
theorem Vm.Copied.isSome_iff (h : Vm.Copied c0 pool vm.userPages vm2 c') {va : ℕ}
    (hva : UserIdx (pdIdx va)) : (vm2.lookup va).isSome ↔ (vm.lookup va).isSome := by
  constructor
  · intro hsome
    obtain ⟨q, hq⟩ := isSome_iff_exists.mp hsome
    obtain ⟨p, hp, hi, hj, -⟩ := h.page va hva q hq
    rw [← lookup_congr hi hj, (lookup_of_userPages hp).2]
    rfl
  · intro hsome
    obtain ⟨q, hq⟩ := isSome_iff_exists.mp hsome
    obtain ⟨p, hp, hi, hj⟩ := exists_userPage hva hq
    rw [← lookup_congr hi hj]
    exact (h.mapped p hp).2

/-- **They have the same bytes.** -/
theorem Vm.Copied.bytes_eq (h : Vm.Copied c0 pool vm.userPages vm2 c') {va : ℕ}
    (hva : UserIdx (pdIdx va)) {p q : Pte} (hp : vm.lookup va = some p)
    (hq : vm2.lookup va = some q) : c' q.frame = c0 p.frame := by
  obtain ⟨p', hp', hi, hj, hcopy⟩ := h.page va hva q hq
  have hsame := (lookup_of_userPages hp').2.symm.trans ((lookup_congr hi hj).trans hp)
  rw [← some.inj hsame]
  exact hcopy

end Done

/-- **When the child is an exact copy.** For every machine whose frames are in order, all that the
frames hold and every free list: if `sys_fork` returns a task, that task has the parent's user pages
with their bytes in frames of its own, and nothing has changed for the parent, if and only if the
free list had a frame for the directory, for every page and for every table. -/
theorem fork_copies_iff {st : FrameState} (h : st.Isolated) (c : Contents) (sb : SandboxConfig)
    {pid : ℤ} {k' : Kernel} {c' : Contents}
    (hfork : st.kernel.sysForkBytes c sb = some ((pid, k'), c')) (hpos : 0 < pid) :
    ∃ child, st.kernel.sched.createTaskSlot.1 = some child ∧
      (k'.sched.task (.slot child)).pid = pid ∧
      (ExactCopy st c (st.setKernel k') c' child ↔
        st.kernel.vm.forkFrames ≤ st.kernel.vm.freeq.length) := by
  obtain ⟨owner, dirs, top, hk, hbrk, htop⟩ := h
  obtain ⟨child, s, fields, pd, vm1, vm2, hslot, hfields, hpd, hcopy, hend⟩ :=
    sysForkBytes_pos _ hfork hpos
  have hnew := Sched.newSlot_of_createTaskSlot hslot
  have hne := hk.runs.ne hnew.free
  have hat : AtSlot st.kernel.sched (s.modify (.slot child) fun _ => fields) child :=
    (NewSlot.atSlot hnew).modify _
  obtain ⟨hvm, hchild, hpid, hlive, hothers⟩ := forkEnd_true _ _ _ _ _ hend
  have hparent : (k'.sched.task st.kernel.sched.currentTask).cr3 = st.kernel.vm.cr3 := by
    rw [hothers _ hne, hk.cr3]
    exact congrArg Task.cr3 (hat.others _ hne)
  -- the state after the call is in order, and the child is one of its tasks
  have hsys : st.kernel.sysFork sb = some (pid, k') := by
    rw [← sysFork_eq st.kernel c sb, hfork]
    rfl
  obtain ⟨owner', dirs', room', hk'⟩ := hk.sysFork sb False.elim _ hsys
  have hlive' : k'.sched.Live child := hlive.mpr (live_forked hnew hfields)
  refine ⟨child, by rw [hslot], hpid, ?_⟩
  -- the loop
  obtain ⟨hsame, -, -, hlen⟩ := hk.owned.createTaskPd_eq hk.loaded hpd
  obtain ⟨-, -, hsome⟩ := hk.owned.createTaskPd hk.loaded _ hpd
  have hold : pd ∉ dirs := (hsome pd rfl).1
  obtain ⟨wt, owner1, ok, vm2', c2, lost, ho1, hdir, hwt, hloop, hdone, hspared, henough⟩ :=
    hk.copyLoop c hpd
  obtain ⟨rfl, heq⟩ := Prod.mk.inj (some.inj (hloop.symm.trans hcopy))
  obtain ⟨rfl, rfl⟩ := Prod.mk.inj heq
  have hpool := notMem_pool_of_userPages hk hsame ho1 (Set.subset_insert ..)
  have hmapped : ∀ vaddr, st.kernel.mapped st.kernel.sched.currentTask vaddr =
      st.kernel.vm.lookup vaddr := by
    intro vaddr
    rw [mapped, ← hk.cr3]
    rfl
  have hcopied : ∀ vaddr, k'.mapped (.slot child) vaddr = vm2'.lookup vaddr := by
    intro vaddr
    rw [mapped, hchild, hvm, ← hdone.cr3]
    rfl
  by_cases hlost : lost = []
  · -- all pages are copied
    have hall := hdone.copied rfl hlost
    rw [List.nil_append] at hall
    refine iff_of_true ⟨fun va hva => ?_, fun va hva p hp q hq => ?_,
      fun va hva q hq r hr => FrameState.Holds.eq_userPage hk'.isolated hlive' hva hq hr,
      fun va hva => ?_,
      fun va hva p hp => ?_⟩ ?_
    · rw [hmapped]
      exact (hcopied va).symm ▸ hall.isSome_iff hva
    · exact hall.bytes_eq hva ((hmapped va).symm.trans hp) ((hcopied va).symm.trans hq)
    · have hneq : st.kernel.vm.cr3 ≠ pd := fun hc => hold (hc ▸ hk.loaded)
      have hlookup1 := Owned.SameUser.lookup hk.owned hsame hk.loaded hva
      have hlookup2 := lookup_copyEnd hdone ho1 hdir hwt (fun _ _ => rfl)
        (Set.mem_insert_of_mem _ hk.loaded) hneq hva
      have hafter : k'.mapped st.kernel.sched.currentTask va =
          (vm2'.loadCr3 st.kernel.vm.cr3).lookup va := by
        rw [mapped, hparent, hvm]
        rfl
      exact hafter.trans (hlookup2.trans (hlookup1.trans (hmapped va).symm))
    · rw [hmapped] at hp
      obtain ⟨p', hp', hi, hj⟩ := exists_userPage hva hp
      have hsame := (lookup_of_userPages hp').2.symm.trans ((lookup_congr hi hj).trans hp)
      rw [← some.inj hsame]
      exact hall.bytes _ (hpool p' hp').2
    · have hle := henough rfl hlost
      rw [forkFrames]
      omega
  · -- the table of a page is missing
    refine iff_of_false (fun hexact => ?_) fun hframes => hlost (hspared.mpr (.inl ?_))
    · obtain ⟨p, hp, hmissing⟩ := hdone.missing rfl hlost
      obtain ⟨hva, hlookup⟩ := lookup_of_userPages hp
      have hsome : (st.kernel.mapped st.kernel.sched.currentTask p.1).isSome := by
        rw [hmapped, hlookup]
        rfl
      have hchildSome : (k'.mapped (.slot child) p.1).isSome := (hexact.pages p.1 hva).mpr hsome
      rw [hcopied, hmissing] at hchildSome
      cases hchildSome
    · rw [forkFrames] at hframes
      omega

/-- The program runs, with this many free frames, and forks. -/
theorem exists_forked (n : ℕ) (P : FrameState → ℤ × Kernel → Prop)
    (hrun : ∃ st ∈ (frameSystem capsLayout).run frameBoot programRun,
      ∃ r ∈ (st.withPool n).kernel.sysFork .inherit, P (st.withPool n) r) :
    ∃ (st : FrameState) (pid : ℤ) (k' : Kernel) (c' : Contents), st.Isolated ∧
      st.kernel.sysForkBytes (fun _ _ => 0) .inherit = some ((pid, k'), c') ∧ P st (pid, k') := by
  obtain ⟨st, hst, ⟨pid, k'⟩, hsys, hp⟩ := hrun
  have hreach := reachable_programRun hst
  rw [mem_def, ← sysFork_eq _ fun _ _ => 0] at hsys
  obtain ⟨⟨r, c'⟩, hbytes, rfl⟩ := map_eq_some_iff.mp hsys
  exact ⟨st.withPool n, pid, k', c', (FrameState.isolated_of_reachable hreach).withPool n, hbytes,
    hp⟩

/-- With five free frames, the child is an exact copy. -/
theorem fork_copies_iff_program : ∃ st c pid k' c' child, FrameState.Isolated st ∧
    st.kernel.sysForkBytes c .inherit = some ((pid, k'), c') ∧ 0 < pid ∧
    ExactCopy st c (st.setKernel k') c' child := by
  obtain ⟨st, pid, k', c', hiso, hfork, hpos, hframes⟩ := exists_forked 5
    (fun st r => 0 < r.1 ∧ st.kernel.vm.forkFrames ≤ st.kernel.vm.freeq.length)
    (by decide +kernel)
  obtain ⟨child, -, -, hiff⟩ := fork_copies_iff hiso _ _ hfork hpos
  exact ⟨st, _, pid, k', c', child, hiso, hfork, hpos, hiff.mpr hframes⟩

/-- **With four, the child has no stack**: its directory does not map the parent's stack page. -/
theorem fork_loses_page : ∃ st c pid k' c' child, FrameState.Isolated st ∧
    st.kernel.vm.userPages.length ≤ maxUserPages ∧
    st.kernel.sysForkBytes c .inherit = some ((pid, k'), c') ∧ 0 < pid ∧
    st.kernel.sched.createTaskSlot.1 = some child ∧
    (st.kernel.mapped st.kernel.sched.currentTask userStackVirt).isSome ∧
    k'.mapped (.slot child) userStackVirt = none := by
  obtain ⟨st, pid, k', c', hiso, hfork, hpos, hpages, hslot, hparent, hchild⟩ := exists_forked 4
    (fun st r => 0 < r.1 ∧ st.kernel.vm.userPages.length ≤ maxUserPages ∧
      st.kernel.sched.createTaskSlot.1 = some 1 ∧
      (st.kernel.mapped st.kernel.sched.currentTask userStackVirt).isSome ∧
      r.2.mapped (.slot 1) userStackVirt = none) (by decide +kernel)
  exact ⟨st, _, pid, k', c', 1, hiso, hpages, hfork, hpos, hslot, hparent, hchild⟩

end PokuOS

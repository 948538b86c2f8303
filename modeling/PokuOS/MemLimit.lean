import PokuOS.ForkCopy

/-!
# Memory limits

`sys_fork` refuses a child whose pages do not fit its memory limit, counted in whole pages, and
takes a limit of no whole page for no limit. `sys_exec` charges the pages of the new program and
compares them with nothing. So the limit holds in the runs in which a child's limit is a page or
more and no limited task executes a program, and it holds of every task then. What a task is charged
is never less than the user pages it has.
-/

namespace PokuOS

/-- **No task has more user pages than it is charged for.** -/
theorem Kernel.Housed.countUserPages_le {owner : ℕ → Option Owner} {dirs : Set ℕ}
    {room : ℕ → Set (Fin 1024 × Fin 1024)} {cache : List (Option CacheSlot)} {top : ℕ} {k : Kernel}
    (h : Housed True False owner dirs room cache top k) {i : Fin maxTasks} (hi : k.sched.Live i) :
    (k.vm.loadCr3 (k.sched.task (.slot i)).cr3).countUserPages ≤
      (k.sched.task (.slot i)).pagesCharged := by
  obtain ⟨⟨l, hlen, hl⟩, -⟩ := h.spaced.charge i hi trivial
  have hpages := (k.vm.loadCr3 (k.sched.task (.slot i)).cr3).pairwise_userPages
  rw [List.pairwise_map] at hpages
  -- the places of the pages are distinct, and all are in the list
  have hnodup : ((k.vm.loadCr3 (k.sched.task (.slot i)).cr3).userPages.map fun p =>
      (pdIdx p.1, ptIdx p.1)).Nodup := by
    refine List.pairwise_map.mpr (hpages.imp fun hne hc => ?_)
    obtain ⟨hpd, hpt⟩ := Prod.mk.inj hc
    exact hne.elim (absurd hpd) (absurd hpt)
  have hsub : ((k.vm.loadCr3 (k.sched.task (.slot i)).cr3).userPages.map fun p =>
      (pdIdx p.1, ptIdx p.1)) ⊆ l := by
    intro x hx
    obtain ⟨p, hp, rfl⟩ := List.mem_map.mp hx
    obtain ⟨i', j, e, hi', he, hpte, hva⟩ := Vm.mem_userPages.mp hp
    rw [hva, pdIdx_page, ptIdx_page]
    exact hl _ (h.owned.page _ (h.spaced.mem i hi) i' hi' e he j _ hpte).2
  have hle := (List.subperm_of_subset hnodup hsub).length_le
  rw [List.length_map] at hle
  exact hle.trans hlen

/-- The machine runs, and no change of an address space escapes the check. -/
abbrev limitSystem (L : Layout) : System FrameState FrameEvent :=
  (frameSystem L).restrict fun st e => e.Checked st.kernel

/-- **Memory limits hold** in every state of a run in which a fork gives a limit of a page or more,
or none, and no task with a limit executes a program: every task is charged for all user pages that
are present in its address space, and is within its limit. -/
theorem memLimit_enforced (L : Layout) {st : FrameState} (h : (limitSystem L).Reachable st) :
    ∀ i, st.kernel.sched.Live i →
      (st.kernel.vm.loadCr3 (st.kernel.sched.task (.slot i)).cr3).countUserPages ≤
        (st.kernel.sched.task (.slot i)).pagesCharged ∧
      ((st.kernel.sched.task (.slot i)).memLimit ≠ 0 →
        (st.kernel.sched.task (.slot i)).pagesCharged * pageSize ≤
          (st.kernel.sched.task (.slot i)).memLimit) := by
  have horderly : st.Orderly True False := by
    refine System.Reachable.invariant (S := limitSystem L) (fun _ => .init (L := L)) ?_ h
    rintro st e st' hst ⟨hallowed, hchecked⟩ hstep
    exact hst.step hallowed (fun _ => hchecked) st' hstep
  obtain ⟨_, ⟨_, _, _, hk⟩, -⟩ := horderly
  exact fun i hi => ⟨hk.countUserPages_le hi, (hk.spaced.charge i hi trivial).2⟩

/-! ## Two runs -/

/-- A fork with a memory limit. -/
def forkLimited (limit : ℕ) : FrameEvent :=
  .fork { SandboxConfig.inherit with memLimit := limit }

/-- The program runs, forks with a limit, and its child has two pages. -/
def LimitedRun (limit : ℕ) (st : FrameState) : Prop :=
  st.kernel.sched.Live 1 ∧ (st.kernel.sched.task (.slot 1)).memLimit = limit ∧
    (st.kernel.sched.task (.slot 1)).pagesCharged = 2 ∧
    (st.kernel.vm.loadCr3 (st.kernel.sched.task (.slot 1)).cr3).countUserPages = 2

instance (limit : ℕ) (st : FrameState) : Decidable (LimitedRun limit st) :=
  inferInstanceAs (Decidable (_ ∧ _))

/-- A program of two pages forks with a limit of two pages, and the child is within it. -/
theorem memLimit_enforced_two :
    ∃ st, (limitSystem capsLayout).Reachable st ∧ LimitedRun 8192 st ∧
      (st.kernel.sched.task (.slot 1)).pagesCharged * pageSize ≤
        (st.kernel.sched.task (.slot 1)).memLimit := by
  obtain ⟨st, hst, hcur, hlimit, st', hst', hrun⟩ :
      ∃ st ∈ (frameSystem capsLayout).run frameBoot programRun,
        st.kernel.sched.currentTask = .slot 0 ∧
        pageSize ≤ clampLimit (st.kernel.sched.task st.kernel.sched.currentTask).memLimit 8192 ∧
        ∃ st' ∈ (limitSystem capsLayout).step st (forkLimited 8192), LimitedRun 8192 st' := by
    decide +kernel
  have hprogram : (limitSystem capsLayout).Reachable st := by
    refine System.reachable_run (.init ⟨someTables, ?_, rfl⟩) (System.allowedRun_of_forall ?_ _)
      ((System.run_restrict _ _).trans hst)
    · exact ⟨by decide, by decide, by decide, by decide, by decide⟩
    · simp only [programRun, List.forall_mem_cons]
      exact ⟨fun _ => ⟨imageOk_program, trivial⟩, fun _ => ⟨trivial, trivial⟩, List.forall_mem_nil _⟩
  have hreach : (limitSystem capsLayout).Reachable st' := by
    refine hprogram.step (e := forkLimited 8192) ⟨fun hc => ?_, .inr (.inl hlimit)⟩ hst'
    cases hcur.symm.trans hc
  refine ⟨st', hreach, hrun, (memLimit_enforced capsLayout hreach 1 hrun.1).2 ?_⟩
  rw [hrun.2.1]
  decide

/-- **A limit of less than a page is none**: the program forks with a limit of one byte, and its
child has two pages. -/
theorem memLimit_exceeded :
    ∃ st, (frameSystem capsLayout).Reachable st ∧ LimitedRun 1 st ∧
      ¬(st.kernel.sched.task (.slot 1)).pagesCharged * pageSize ≤
        (st.kernel.sched.task (.slot 1)).memLimit := by
  obtain ⟨st, hst, hcur, st', hst', hrun⟩ :
      ∃ st ∈ (frameSystem capsLayout).run frameBoot programRun,
        st.kernel.sched.currentTask = .slot 0 ∧
        ∃ st' ∈ (frameSystem capsLayout).step st (forkLimited 1), LimitedRun 1 st' := by
    decide +kernel
  have hreach : (frameSystem capsLayout).Reachable st' := by
    refine (reachable_programRun hst).step (e := forkLimited 1) (fun hc => ?_) hst'
    cases hcur.symm.trans hc
  refine ⟨st', hreach, hrun, ?_⟩
  rw [hrun.2.1, hrun.2.2.1]
  decide

end PokuOS

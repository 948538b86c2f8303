import PokuOS.Process
import PokuOS.Profile

/-!
# Waiting for children

`sys_wait` blocks its task until a child ends, looks again, and blocks again if the child that
`task_find_child` finds is not one that has ended. Runs interleave its rounds, of any number of
tasks, with everything else that happens to the scheduler.

What keeps a waiting parent from missing an exit is one relation between the states before and
after an event: `Heeds`. No task begins to wait, and a child of a waiting task that has ended
after the event had ended before it — `task_exit` wakes the parent.
-/

namespace PokuOS

open Function List

open Kernel

/-! ## `sys_wait` -/

/-- What `sys_wait` returns for a child: `(child_pid << 8) | (code & 0xFF)`. -/
def waitStatus (child : Task) : BitVec 32 :=
  BitVec.ofNat 32 child.pid <<< 8 ||| BitVec.ofInt 32 child.exitCode &&& 0xFF

variable {pid : ℤ} {i : Fin maxTasks}

namespace Sched

/-- A round of the loop of `sys_wait`, with its result if it is the last one. -/
def waitRound (s : Sched) (pid : ℤ) : Option (Option (BitVec 32) × Sched) :=
  match taskFindChild s s.currentTask pid with
  | none => some (some (-1), s)
  | some i =>
    if (s.task (.slot i)).state = .exited then
      some (some (waitStatus (s.task (.slot i))), s.freeTaskSlot (.slot i))
    else do
      let s ← s.waitCurrent
      let s ← s.schedule
      return (none, s)

/-- It is what the system call does to the scheduler. -/
theorem sched_sysWait (k : Kernel) (pid : ℤ) :
    (k.sysWait pid).map Kernel.sched = (k.sched.waitRound pid).map Prod.snd := by
  unfold sysWait waitRound
  cases taskFindChild k.sched k.sched.currentTask pid with
  | none => rfl
  | some i =>
    simp only
    split
    · rfl
    · cases k.sched.waitCurrent with
      | none => rfl
      | some s =>
        unfold Kernel.schedule
        cases hs : s.schedule with
        | none => simp [setSched, hs]
        | some s' => simp [setSched, hs]

/-- `tasks[i]` is a child of `p` that an argument `pid` of `sys_wait` names. -/
structure IsChild (s : Sched) (p : TaskPtr) (pid : ℤ) (i : Fin maxTasks) : Prop where
  /-- it is in use -/
  inUse : (s.task (.slot i)).inUse = true
  /-- `p` is its parent -/
  parent : (s.task (.slot i)).parent = some p
  /-- `-1` is any child -/
  pid : pid = -1 ∨ ((s.task (.slot i)).pid : ℤ) = pid

instance (s : Sched) (p : TaskPtr) (pid : ℤ) (i : Fin maxTasks) : Decidable (s.IsChild p pid i) :=
  decidable_of_iff ((s.task (.slot i)).inUse = true ∧ (s.task (.slot i)).parent = some p ∧
    (pid = -1 ∨ ((s.task (.slot i)).pid : ℤ) = pid))
    ⟨fun h => ⟨h.1, h.2.1, h.2.2⟩, fun h => ⟨h.inUse, h.parent, h.pid⟩⟩

/-- `task_find_child` gives the first child of the table. -/
theorem taskFindChild_eq_some {s : Sched} {p : TaskPtr} (h : taskFindChild s p pid = some i) :
    s.IsChild p pid i ∧ ∀ j < i, ¬ s.IsChild p pid j := by
  obtain ⟨hi, l1, l2, hl, hbefore⟩ := find?_eq_some_iff_append.mp h
  refine ⟨?_, fun j hj hchild => ?_⟩
  · simp only [Bool.and_eq_true, beq_iff_eq, Bool.or_eq_true] at hi
    exact ⟨hi.1.1, hi.1.2, hi.2⟩
  · -- the table is searched in order, so an earlier slot has been looked at
    have hsorted : (l1 ++ i :: l2).Pairwise (· < ·) := hl ▸ pairwise_lt_finRange _
    have hmem : j ∈ l1 ++ i :: l2 := hl ▸ mem_finRange j
    have hj1 : j ∈ l1 := by
      rcases mem_append.mp hmem with hj1 | hj2
      · exact hj1
      · rcases mem_cons.mp hj2 with rfl | hj2
        · exact absurd hj (lt_irrefl _)
        · exact absurd hj
            ((pairwise_cons.mp (pairwise_append.mp hsorted).2.1).1 j hj2).asymm
    have hskipped := hbefore j hj1
    simp only [hchild.inUse, hchild.parent, Bool.not_eq_true', beq_self_eq_true, Bool.true_and,
      Bool.or_eq_false_iff, beq_eq_false_iff_ne] at hskipped
    exact hchild.pid.elim hskipped.1 hskipped.2

theorem taskFindChild_isSome {s : Sched} {p : TaskPtr} (h : s.IsChild p pid i) :
    ∃ j, taskFindChild s p pid = some j := by
  refine Option.isSome_iff_exists.mp (find?_isSome.mpr ⟨i, mem_finRange i, ?_⟩)
  simp [h.inUse, h.parent, h.pid]

/-! ## Identities -/

/-- Tasks in use have different identities, which have been given. -/
structure PidsOk (s : Sched) : Prop where
  /-- given -/
  lt : ∀ i, (s.task (.slot i)).inUse = true → (s.task (.slot i)).pid < s.pidCounter
  /-- different -/
  inj : ∀ i j, (s.task (.slot i)).inUse = true → (s.task (.slot j)).inUse = true →
    (s.task (.slot i)).pid = (s.task (.slot j)).pid → i = j

variable {s s' s'' : Sched}

theorem pidsOk_taskInit (pageDirectory : ℕ) : PidsOk (taskInit pageDirectory) :=
  ⟨nofun, fun _ _ h => nomatch h⟩

/-- A task in use had the identity it has. -/
theorem Keeps.inUse (h : Keeps s s') {t : TaskPtr} (ht : (s'.task t).inUse = true) :
    (s.task t).inUse = true ∧ (s'.task t).pid = (s.task t).pid := by
  rcases h.task t with hsame | ⟨-, hgone⟩
  · have huse : (s'.task t).inUse = (s.task t).inUse := congrArg Profile.inUse hsame
    exact ⟨huse ▸ ht, congrArg Profile.pid hsame⟩
  · cases ht.symm.trans (congrArg Profile.inUse hgone)

theorem PidsOk.of_inUse (h : PidsOk s) (hpid : s'.pidCounter = s.pidCounter)
    (huse : ∀ t, (s'.task t).inUse = true →
      (s.task t).inUse = true ∧ (s'.task t).pid = (s.task t).pid) : PidsOk s' := by
  refine ⟨fun i hi => ?_, fun i j hi hj heq => ?_⟩
  · rw [(huse _ hi).2, hpid]
    exact h.lt i (huse _ hi).1
  · rw [(huse _ hi).2, (huse _ hj).2] at heq
    exact h.inj i j (huse _ hi).1 (huse _ hj).1 heq

theorem PidsOk.keeps (h : PidsOk s) (hk : Keeps s s') : PidsOk s' :=
  h.of_inUse hk.pidCounter fun _ => hk.inUse

/-- A new slot has an identity of its own. -/
theorem PidsOk.newSlot (h : PidsOk s) (hnew : NewSlot s s' i) : PidsOk s' := by
  have hpid : (s'.task (.slot i)).pid = s.pidCounter := by rw [hnew.slot]
  have hother : ∀ j, j ≠ i → s'.task (.slot j) = s.task (.slot j) :=
    fun j hj => hnew.others _ fun hc => hj (TaskPtr.slot.inj hc)
  have hold : ∀ j, j ≠ i → (s'.task (.slot j)).inUse = true →
      (s'.task (.slot j)).pid < s.pidCounter := by
    intro j hj huse
    rw [hother j hj] at huse ⊢
    exact h.lt j huse
  refine ⟨fun j hj => ?_, fun j k hj hk heq => ?_⟩
  · rw [hnew.pidCounter]
    by_cases hji : j = i
    · rw [hji, hpid]
      exact Nat.lt_succ_self _
    · exact (hold j hji hj).trans (Nat.lt_succ_self _)
  · by_cases hji : j = i <;> by_cases hki : k = i
    · exact hji.trans hki.symm
    · rw [hji, hpid] at heq
      exact absurd heq (hold k hki hk).ne'
    · rw [hki, hpid] at heq
      exact absurd heq (hold j hji hj).ne
    · rw [hother j hji] at hj heq
      rw [hother k hki] at hk heq
      exact h.inj j k hj hk heq

theorem PidsOk.modify (h : PidsOk s) (t : TaskPtr) {f : Task → Task}
    (hf : ∀ task, (f task).pid = task.pid ∧ (f task).inUse = task.inUse) :
    PidsOk (s.modify t f) := by
  refine h.of_inUse rfl fun p hp => ?_
  rw [task_modify] at hp ⊢
  split at hp
  · rename_i hpt
    rw [if_pos hpt, hpt]
    exact ⟨(hf _).2 ▸ hp, (hf _).1⟩
  · rename_i hpt
    rw [if_neg hpt]
    exact ⟨hp, rfl⟩

theorem PidsOk.createAndEnqueue (h : PidsOk s) (fields : Task) :
    PidsOk (s.createAndEnqueue fields) := by
  unfold Sched.createAndEnqueue
  rcases hslot : s.createTaskSlot with ⟨i, s1⟩
  cases i with
  | none => exact createTaskSlot_none hslot ▸ h
  | some i =>
    have hnew := h.newSlot (newSlot_of_createTaskSlot hslot)
    refine PidsOk.keeps ?_ (keeps_enqueueTask _ _)
    exact hnew.modify (.slot i) fun _ => ⟨rfl, rfl⟩

/-! ## What an event does to families -/

/-- `b` is `a` after a while: the same task, which has neither begun to wait nor ended. It may
have lost its parent. -/
structure Goes (a b : Task) : Prop where
  pid : b.pid = a.pid
  inUse : b.inUse = a.inUse
  /-- no new parent -/
  parent : ∀ p, b.parent = some p → a.parent = some p
  /-- it has not begun to wait -/
  waiting : b.state = .waiting → a.state = .waiting
  /-- it has not ended -/
  exited : b.state = .exited → a.state = .exited

theorem Goes.of_eq {a b : Task} (hpid : b.pid = a.pid) (huse : b.inUse = a.inUse)
    (hparent : b.parent = a.parent) (hstate : b.state = a.state) : Goes a b :=
  ⟨hpid, huse, fun _ h => hparent ▸ h, fun h => hstate ▸ h, fun h => hstate ▸ h⟩

theorem leveling_goes : Leveling Goes where
  refl _ := .of_eq rfl rfl rfl rfl
  trans h h' := ⟨h'.pid.trans h.pid, h'.inUse.trans h.inUse,
    fun p hp => h.parent p (h'.parent p hp),
    fun hw => h.waiting (h'.waiting hw), fun he => h.exited (h'.exited he)⟩
  links _ _ _ := .of_eq rfl rfl rfl rfl
  ready _ := ⟨rfl, rfl, fun _ h => h, nofun, nofun⟩
  running _ := ⟨rfl, rfl, fun _ h => h, nofun, nofun⟩
  timeslice _ _ := .of_eq rfl rfl rfl rfl
  level _ _ := .of_eq rfl rfl rfl rfl
  contTicks _ _ := .of_eq rfl rfl rfl rfl

/-- A child of `p` has ended. -/
structure Ended (s : Sched) (p : TaskPtr) (c : TaskPtr) : Prop where
  /-- it is in use -/
  inUse : (s.task c).inUse = true
  /-- `p` is its parent -/
  parent : (s.task c).parent = some p
  /-- it has ended -/
  exited : (s.task c).state = .exited

/-- **No exit is missed**: who waits has waited before, and an ended child of a waiting task had
ended before. -/
structure Heeds (s s' : Sched) : Prop where
  /-- who waits has waited -/
  waiting : ∀ p, (s'.task p).state = .waiting → (s.task p).state = .waiting
  /-- who has ended had ended -/
  ended : ∀ p c, (s'.task p).state = .waiting → Ended s' p c →
    Ended s p c ∧ (s'.task c).pid = (s.task c).pid

namespace Heeds

theorem trans (h : Heeds s s') (h' : Heeds s' s'') : Heeds s s'' := by
  refine ⟨fun p hp => h.waiting p (h'.waiting p hp), fun p c hp hc => ?_⟩
  obtain ⟨hc', hpid'⟩ := h'.ended p c hp hc
  obtain ⟨hc, hpid⟩ := h.ended p c (h'.waiting p hp) hc'
  exact ⟨hc, hpid'.trans hpid⟩

/-- Each task goes on, or its slot is now one of a task that neither waits nor has ended. -/
theorem of_tasks (h : ∀ t, Goes (s.task t) (s'.task t) ∨
    (s'.task t).state ≠ .waiting ∧ (s'.task t).state ≠ .exited) : Heeds s s' := by
  refine ⟨fun p hp => ?_, fun p c _ hc => ?_⟩
  · rcases h p with hgoes | hother
    · exact hgoes.waiting hp
    · exact absurd hp hother.1
  · rcases h c with hgoes | hother
    · exact ⟨⟨hgoes.inUse ▸ hc.inUse, hgoes.parent p hc.parent, hgoes.exited hc.exited⟩, hgoes.pid⟩
    · exact absurd hc.exited hother.2

theorem of_goes (h : ∀ t, Goes (s.task t) (s'.task t)) : Heeds s s' := .of_tasks fun t => .inl (h t)

theorem of_same (h : s'.task = s.task) : Heeds s s' :=
  .of_goes fun _ => h ▸ leveling_goes.refl _

theorem modify (s : Sched) (t : TaskPtr) {f : Task → Task} (hf : Goes (s.task t) (f (s.task t))) :
    Heeds s (s.modify t f) := .of_goes (Via.modify leveling_goes.toQueueing s t hf).task

end Heeds

theorem Via.heeds (h : Via Goes s s') : Heeds s s' := .of_goes h.task

theorem heeds_freeTaskSlot (s : Sched) (t : TaskPtr) : Heeds s (s.freeTaskSlot t) := by
  cases t with
  | idle => exact .of_same rfl
  | slot i =>
    refine .of_tasks fun t => ?_
    rw [freeTaskSlot, task_modify]
    split
    · exact .inr ⟨fun h => (by cases h), fun h => (by cases h)⟩
    · exact .inl (leveling_goes.refl _)

theorem heeds_createAndEnqueue (s : Sched) (fields : Task) :
    Heeds s (s.createAndEnqueue fields) := by
  rcases s.createAndEnqueue_cases fields with ⟨-, hsame⟩ | ⟨i, s1, -, -, hbody⟩
  · exact .of_same (congrArg Sched.task hsame)
  · have hnew : Heeds s (s.created i fields) := by
      refine .of_tasks fun t => ?_
      rw [created, task_modify]
      split
      · exact .inr ⟨fun h => (by cases h), fun h => (by cases h)⟩
      · exact .inl (leveling_goes.refl _)
    exact hnew.trans (Via.of_body leveling_goes.toQueueing hbody).heeds

/-- **A task that ends wakes its parent.** -/
theorem heeds_exitCurrent (s : Sched) (code : ℤ) : Post (s.exitCurrent code) (Heeds s) := by
  refine (exits_exitCurrent s code).mono fun s' hs' => ?_
  have h := hs'.2.2
  refine ⟨fun p hp => ((h p).waiting hp).1, fun p c hp hc => ?_⟩
  have hparent := (h c).parent.symm.trans hc.parent
  split at hparent
  · cases hparent
  -- the task that ends is no child of one that still waits
  · have hct : c ≠ s.currentTask := by
      rintro rfl
      exact ((h p).waiting hp).2 hparent
    refine ⟨⟨(h c).inUse ▸ hc.inUse, hparent, ?_⟩, (h c).pid⟩
    exact ((h c).exited.mp hc.exited).resolve_left hct

/-- A task that blocks is the only one that begins to wait, and no task ends. -/
theorem ended_waitCurrent (s : Sched) : Post s.waitCurrent fun s' =>
    (∀ p, (s'.task p).state = .waiting → p = s.currentTask ∨ (s.task p).state = .waiting) ∧
    ∀ p c, Ended s' p c → Ended s p c ∧ (s'.task c).pid = (s.task c).pid := by
  refine (via_dequeueTask leveling_goes.toQueueing _ _).mono fun s' h' => ?_
  have htask : ∀ q, (s.setState s.currentTask .waiting).task q =
      if q = s.currentTask then { s.task s.currentTask with state := .waiting } else s.task q :=
    fun q => task_modify s _ q _
  refine ⟨fun p hp => ?_, fun p c hc => ?_⟩
  · have hp := (h'.task p).waiting hp
    rw [htask] at hp
    split at hp
    · rename_i hcur
      exact .inl hcur
    · exact .inr hp
  · have hgoes := h'.task c
    rw [htask] at hgoes
    split at hgoes
    · cases hgoes.exited hc.exited
    · exact ⟨⟨hgoes.inUse ▸ hc.inUse, hgoes.parent p hc.parent, hgoes.exited hc.exited⟩, hgoes.pid⟩

theorem charging_goes : Charging Goes where
  toLeveling := leveling_goes
  quota _ _ _ := .of_eq rfl rfl rfl rfl

/-- Events heed exits, and keep identities in order. -/
theorem eventful_heeds : Eventful Goes fun s s' => Heeds s s' ∧ (PidsOk s → PidsOk s') where
  allows := charging_goes
  tier _ _ := .of_eq rfl rfl rfl rfl
  trans h h' := ⟨h.1.trans h'.1, fun hp => h'.2 (h.2 hp)⟩
  via h := ⟨h.heeds, fun hp => hp.of_inUse h.pidCounter fun t ht =>
    ⟨(h.task t).inUse ▸ ht, (h.task t).pid⟩⟩
  count _ _ := ⟨.of_same rfl, fun hp => hp.of_inUse rfl fun _ ht => ⟨ht, rfl⟩⟩
  kill s _ := ⟨.modify s _ (.of_eq rfl rfl rfl rfl), fun hp => hp.modify _ fun _ => ⟨rfl, rfl⟩⟩
  dies s _ := ⟨.modify s _ (.of_eq rfl rfl rfl rfl), fun hp => hp.modify _ fun _ => ⟨rfl, rfl⟩⟩
  free s _ _ := ⟨heeds_freeTaskSlot s _, fun hp => hp.keeps (keeps_freeTaskSlot s _)⟩
  register s path tier t := ⟨watchdogRegister_rule (P := Heeds s)
    (fun _ _ h => h.trans (.of_same rfl))
    (fun s1 t h => h.trans (.modify s1 t (.of_eq rfl rfl rfl rfl))) (.of_same rfl) path tier t,
    fun hp => hp.keeps (keeps_watchdogRegister s path tier t)⟩
  create s fields := ⟨heeds_createAndEnqueue s fields, fun hp => hp.createAndEnqueue fields⟩
  exit s code := (heeds_exitCurrent s code).and
    ((keeps_exitCurrent s code).mono fun _ hk hp => hp.keeps hk)

/-- An event other than a round of `sys_wait`. -/
theorem heeds_step {e : SchedEvent} (hallowed : schedSystem.allowed s e) (he : e ≠ .wait) :
    Post (schedSystem.step s e) fun s' => Heeds s s' ∧ (PidsOk s → PidsOk s') := by
  refine eventful_heeds.step hallowed (fun hwait => absurd hwait he) fun _ _ _ s1 => ?_
  refine ⟨?_, fun hp => hp.keeps (keeps_watchdogTick s1)⟩
  exact watchdogTick_rule (P := Heeds s1) (fun _ _ _ h => h.trans (.of_same rfl))
    (fun s2 t _ h => h.trans (heeds_freeTaskSlot s2 t)) (.of_same rfl)

theorem heeds_schedule (s : Sched) : Post s.schedule (Heeds s) :=
  (via_schedule leveling_goes.toScheduling s).mono fun _ h => h.heeds

end Sched

/-! ## Runs -/

/-- The scheduler, and for each task the argument of the `sys_wait` it is in. -/
structure WaitState where
  /-- the scheduler -/
  sched : Sched
  /-- the arguments -/
  waits : TaskPtr → Option ℤ

/-- What happens. -/
inductive WaitEvent where
  /-- a round of `sys_wait`, the first or one after the task was woken -/
  | wait (pid : ℤ)
  /-- any other event -/
  | other (e : SchedEvent)

/-- Rounds of `sys_wait` and everything else that happens to the scheduler, in any order. -/
def waitSystem : System WaitState WaitEvent where
  init st := schedSystem.init st.sched ∧ ∀ t, st.waits t = none
  allowed st
    | .wait _ => st.sched.currentTask ≠ .idle
    | .other e => schedSystem.allowed st.sched e ∧ e ≠ .wait
  step st
    | .wait pid => (st.sched.waitRound pid).map fun (result, s) =>
      ⟨s, Function.update st.waits st.sched.currentTask (if result.isNone then some pid else none)⟩
    | .other e => (schedSystem.step st.sched e).map fun s => { st with sched := s }

/-- One child is asked for; or if any child of the task has ended, the first in the table has. -/
def WaitEvent.SeesEnded (st : WaitState) : WaitEvent → Prop
  | .wait pid => pid = -1 → ∀ i, st.sched.IsChild st.sched.currentTask (-1) i →
      (∀ j < i, ¬ st.sched.IsChild st.sched.currentTask (-1) j) →
      (st.sched.task (.slot i)).state ≠ .exited →
      ∀ j, st.sched.IsChild st.sched.currentTask (-1) j →
        (st.sched.task (.slot j)).state ≠ .exited
  | .other _ => True

/-- A round that sees ended children finds one if there is one. -/
theorem exited_of_taskFindChild {st : WaitState} (hpids : st.sched.PidsOk)
    (hsees : (WaitEvent.wait pid).SeesEnded st) {j : Fin maxTasks}
    (hfind : taskFindChild st.sched st.sched.currentTask pid = some i)
    (hj : st.sched.IsChild st.sched.currentTask pid j)
    (hexited : (st.sched.task (.slot j)).state = .exited) :
    (st.sched.task (.slot i)).state = .exited := by
  obtain ⟨hi, hfirst⟩ := Sched.taskFindChild_eq_some hfind
  by_cases hpid : pid = -1
  · subst hpid
    by_contra hne
    exact hsees rfl i hi hfirst hne j hj hexited
  · -- only one child has the identity asked for
    have heq : ((st.sched.task (.slot i)).pid : ℤ) = (st.sched.task (.slot j)).pid :=
      (hi.pid.resolve_left hpid).trans (hj.pid.resolve_left hpid).symm
    rw [hpids.inj i j hi.inUse hj.inUse (Int.ofNat_inj.mp heq)]
    exact hexited

/-- Identities are in order, and no waiting task has an ended child that it waits for. -/
structure WaitState.NoneMissed (st : WaitState) : Prop where
  /-- identities -/
  pids : st.sched.PidsOk
  /-- who waits has nothing to wait for -/
  alive : ∀ p pid i, (st.sched.task p).state = .waiting → st.waits p = some pid →
    st.sched.IsChild p pid i → (st.sched.task (.slot i)).state ≠ .exited

namespace WaitState.NoneMissed

open Sched

variable {st : WaitState}

theorem init (h : waitSystem.init st) : NoneMissed st := by
  obtain ⟨⟨pageDirectory, hsched⟩, hwaits⟩ := h
  refine ⟨hsched ▸ pidsOk_taskInit _, fun p pid i _ hp => ?_⟩
  rw [hwaits p] at hp
  cases hp

/-- An event that heeds every exit, and after which no other task waits in another call. -/
theorem heeds (h : NoneMissed st) {s : Sched} {waits : TaskPtr → Option ℤ} (hs : Heeds st.sched s)
    (hpids : s.PidsOk) (hwaits : ∀ p pid, (s.task p).state = .waiting → waits p = some pid →
      st.waits p = some pid) : NoneMissed ⟨s, waits⟩ := by
  refine ⟨hpids, fun p pid i hp hpid hchild hexited => ?_⟩
  obtain ⟨hended, hsame⟩ := hs.ended p (.slot i) hp ⟨hchild.inUse, hchild.parent, hexited⟩
  refine h.alive p pid i (hs.waiting p hp) (hwaits p pid hp hpid) ⟨hended.inUse, hended.parent, ?_⟩
    hended.exited
  rw [← hsame]
  exact hchild.pid

theorem wait (h : NoneMissed st) (hsees : (WaitEvent.wait pid).SeesEnded st) :
    Post (waitSystem.step st (.wait pid)) NoneMissed := by
  have hreturn : ∀ (r : BitVec 32) (s : Sched), Heeds st.sched s → s.PidsOk →
      NoneMissed ⟨s, update st.waits st.sched.currentTask
        (if (some r).isNone then some pid else none)⟩ := by
    intro r s hs hpids
    refine h.heeds hs hpids fun p pid' _ hp => ?_
    by_cases hcur : p = st.sched.currentTask
    · rw [hcur, update_self] at hp
      cases hp
    · rwa [update_of_ne hcur] at hp
  refine Post.map (P := fun r => NoneMissed ⟨r.2, update st.waits st.sched.currentTask
    (if r.1.isNone then some pid else none)⟩) ?_ fun _ h => h
  unfold waitRound
  split
  · exact .some (hreturn _ _ (.of_same rfl) h.pids)
  rename_i i hfind
  split
  · exact .some (hreturn _ _ (heeds_freeTaskSlot _ (.slot i))
      (h.pids.keeps (keeps_freeTaskSlot _ (.slot i))))
  rename_i halive
  refine Post.bind (P := fun s1 => NoneMissed ⟨s1, update st.waits st.sched.currentTask
    (some pid)⟩) (fun s1 hs1 => ?_) fun s1 h1 => ?_
  · obtain ⟨hwaiting, hended⟩ := ended_waitCurrent _ s1 hs1
    refine ⟨h.pids.keeps (keeps_waitCurrent _ s1 hs1), ?_⟩
    intro p pid' j (hp : (s1.task p).state = .waiting)
      (hpid : update st.waits st.sched.currentTask (some pid) p = some pid')
      (hchild : s1.IsChild p pid' j) hexited
    obtain ⟨hj, hsame⟩ := hended p (.slot j) ⟨hchild.inUse, hchild.parent, hexited⟩
    have hchild' : st.sched.IsChild p pid' j := ⟨hj.inUse, hj.parent, hsame ▸ hchild.pid⟩
    by_cases hcur : p = st.sched.currentTask
    · -- the task blocks because no child that it waits for has ended
      subst hcur
      rw [update_self] at hpid
      cases hpid
      exact halive (exited_of_taskFindChild h.pids hsees hfind hchild' hj.exited)
    · rw [update_of_ne hcur] at hpid
      exact h.alive p pid' j ((hwaiting p hp).resolve_left hcur) hpid hchild' hj.exited
  · refine Post.bind (P := fun s2 => Heeds s1 s2 ∧ s2.PidsOk) (fun s2 hs2 => ?_)
      fun s2 h2 => .some ?_
    · exact ⟨heeds_schedule s1 s2 hs2, h1.pids.keeps (keeps_schedule s1 s2 hs2)⟩
    · exact h1.heeds h2.1 h2.2 fun _ _ _ hp => hp

theorem step (h : NoneMissed st) {e : WaitEvent} (hallowed : waitSystem.allowed st e)
    (hsees : e.SeesEnded st) : Post (waitSystem.step st e) NoneMissed := by
  cases e with
  | wait pid => exact h.wait hsees
  | other e =>
    refine Post.map (P := fun s => Heeds st.sched s ∧ s.PidsOk) (fun s hs => ?_) fun s hs => ?_
    · obtain ⟨hheeds, hpids⟩ := heeds_step hallowed.1 hallowed.2 s hs
      exact ⟨hheeds, hpids h.pids⟩
    · exact h.heeds hs.1 hs.2 fun _ _ _ hp => hp

end WaitState.NoneMissed

/-- The runs in which every round of `sys_wait` sees ended children. -/
abbrev seeingSystem : System WaitState WaitEvent :=
  waitSystem.restrict fun st e => e.SeesEnded st

/-- **No missed exit.** In every run whose rounds of `sys_wait` see ended children, no task is
blocked in `sys_wait` while a child it asks for has ended, and a round in which there is such a
child returns the status of one and frees its slot. -/
theorem wait_complete {st : WaitState} (h : seeingSystem.Reachable st) :
    (∀ p pid i, (st.sched.task p).state = .waiting → st.waits p = some pid →
      st.sched.IsChild p pid i → (st.sched.task (.slot i)).state ≠ .exited) ∧
    ∀ pid j, (WaitEvent.wait pid).SeesEnded st →
      st.sched.IsChild st.sched.currentTask pid j → (st.sched.task (.slot j)).state = .exited →
      ∃ i, st.sched.IsChild st.sched.currentTask pid i ∧
        (st.sched.task (.slot i)).state = .exited ∧
        st.sched.waitRound pid =
          some (some (waitStatus (st.sched.task (.slot i))), st.sched.freeTaskSlot (.slot i)) := by
  have hinv : st.NoneMissed := by
    refine System.Reachable.invariant (S := seeingSystem) (I := WaitState.NoneMissed)
      (fun _ hinit => .init hinit) ?_ h
    rintro st e st' hst ⟨hallowed, hsees⟩ hstep
    exact hst.step hallowed hsees st' hstep
  refine ⟨hinv.alive, fun pid j hsees hj hexited => ?_⟩
  obtain ⟨i, hfind⟩ := Sched.taskFindChild_isSome hj
  have hi := exited_of_taskFindChild hinv.pids hsees hfind hj hexited
  refine ⟨i, (Sched.taskFindChild_eq_some hfind).1, hi, ?_⟩
  unfold Sched.waitRound
  rw [hfind]
  exact if_pos hi

/-! ## Two runs -/

instance (st : WaitState) : ∀ e : WaitEvent, Decidable (e.SeesEnded st)
  | .wait pid => inferInstanceAs (Decidable (pid = -1 → ∀ i,
      st.sched.IsChild st.sched.currentTask (-1) i →
      (∀ j < i, ¬ st.sched.IsChild st.sched.currentTask (-1) j) →
      (st.sched.task (.slot i)).state ≠ .exited →
      ∀ j, st.sched.IsChild st.sched.currentTask (-1) j →
        (st.sched.task (.slot j)).state ≠ .exited))
  | .other _ => inferInstanceAs (Decidable True)

/-- A test for being allowed, for the events of the runs below. -/
def WaitEvent.check (st : WaitState) : WaitEvent → Bool
  | .wait _ | .other (.exit _) => decide (st.sched.currentTask ≠ .idle)
  | .other (.create _) | .other .schedule | .other .tick => true
  | .other _ => false

theorem WaitEvent.allowed_of_check (st : WaitState) (e : WaitEvent) (h : e.check st = true) :
    waitSystem.allowed st e := by
  have hrunning : decide (st.sched.currentTask ≠ .idle) = true → st.sched.currentTask ≠ .idle :=
    of_decide_eq_true
  cases e with
  | wait pid => exact hrunning h
  | other e =>
    cases e with
    | exit code => exact ⟨hrunning h, nofun⟩
    | create fields => exact ⟨trivial, nofun⟩
    | schedule => exact ⟨trivial, nofun⟩
    | tick => exact ⟨trivial, nofun⟩
    | yield | wait | setTier | setLevel | kill | register | reap => cases h

/-- The machine after `task_init`. -/
def waitInit : WaitState := ⟨.taskInit 300, fun _ => none⟩

theorem init_waitInit : waitSystem.init waitInit := ⟨⟨300, rfl⟩, fun _ => rfl⟩

/-- A user task with this parent. -/
def userTask (parent : Option TaskPtr) : Task := { Task.zero with tier := .user, parent := parent }

/-- A task in slot 0 with a child in slot 1, for which it waits, and which ends. -/
def oneChild : List WaitEvent :=
  [.other (.create (userTask none)), .other .schedule, .other (.create (userTask (some (.slot 0)))),
    .wait (-1), .other (.exit 7)]

/-- When the child has ended its parent runs, and `sys_wait` returns the child's identity and
code. -/
theorem wait_complete_one :
    ∃ st, seeingSystem.Reachable st ∧ st.sched.currentTask = .slot 0 ∧
      st.sched.waitRound (-1) = some (some 0x207, st.sched.freeTaskSlot (.slot 1)) := by
  obtain ⟨st, hreach, hcur, hsees, honly, hchild, hexited, hstatus⟩ := System.exists_reachable
    (S := seeingSystem) (fun st e => e.check st ∧ e.SeesEnded st) oneChild
    (fun st => st.sched.currentTask = .slot 0 ∧
      (WaitEvent.wait (-1)).SeesEnded st ∧ (∀ i, st.sched.IsChild (.slot 0) (-1) i → i = 1) ∧
      st.sched.IsChild (.slot 0) (-1) 1 ∧ (st.sched.task (.slot 1)).state = .exited ∧
      waitStatus (st.sched.task (.slot 1)) = 0x207)
    (fun st e h => ⟨e.allowed_of_check st h.1, h.2⟩) (.init init_waitInit) (by decide +kernel)
  obtain ⟨i, hi, -, hround⟩ := (wait_complete hreach).2 (-1) 1 hsees (hcur ▸ hchild) hexited
  rw [honly i (hcur ▸ hi), hstatus] at hround
  exact ⟨st, hreach, hcur, hround⟩

/-- A task in slot 0 with children in slots 1 and 2, of which the second ends while the task
waits for any of them. -/
def twoChildren : List WaitEvent :=
  [.other (.create (userTask none)), .other .schedule, .other (.create (userTask (some (.slot 0)))),
    .other (.create (userTask (some (.slot 0)))), .wait (-1), .other .tick, .other .tick,
    .other .tick, .other (.exit 7), .wait (-1)]

/-- **A parent of two children misses an exit**: it is woken, finds the first child, which is
alive, and blocks again. -/
theorem wait_misses_exit :
    ∃ st, waitSystem.Reachable st ∧ (st.sched.task (.slot 0)).state = .waiting ∧
      st.waits (.slot 0) = some (-1) ∧ st.sched.IsChild (.slot 0) (-1) 2 ∧
      (st.sched.task (.slot 2)).state = .exited := by
  refine System.exists_reachable (S := waitSystem) (fun st e => e.check st) twoChildren _
    WaitEvent.allowed_of_check (.init init_waitInit) ?_
  decide +kernel

end PokuOS

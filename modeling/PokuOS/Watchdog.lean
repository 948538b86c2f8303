import PokuOS.Wait

/-!
# The watchdog under preemption

`watchdog_check` runs in the idle loop with interrupts enabled, and `watchdog_tick` in the timer
interrupt; both change the entries of the table. The check of one entry is three steps here:
test and clear `spawn_due`, call `spawn_user_process`, store the task. Between any two of them
anything may happen to the scheduler.

Between the first step and the last an entry looks as if it had no task and nothing under way,
and a `watchdog_tick` in this window asks for another instance. Without such a tick every entry
has at most one.
-/

namespace PokuOS

open List Option

/-! ## `watchdog_check` in steps -/

/-- Where `watchdog_check` is. -/
inductive CheckPc where
  /-- before the test of entry `i` -/
  | test (i : ℕ)
  /-- `spawn_due` of entry `i` is cleared -/
  | cleared (i : ℕ)
  /-- `spawn_user_process` has returned, and its result is not stored -/
  | spawned (i : ℕ) (task : Option (Fin maxTasks))
  deriving DecidableEq

/-- The entry that is between its first step and its last. -/
def CheckPc.window : CheckPc → Option ℕ
  | test _ => none
  | cleared i => some i
  | spawned i _ => some i

/-- The scheduler with the watchdog's table, and `watchdog_check`. -/
structure CheckState where
  /-- tasks and entries -/
  sched : Sched
  /-- where the check is -/
  pc : CheckPc
  /-- the tasks it has spawned: entry and identity -/
  spawned : List (ℕ × ℕ)

namespace CheckState

/-- Change an entry. -/
def modifyEntry (s : Sched) (i : ℕ) (f : WdEntry → WdEntry) : Sched :=
  { s with wdTable := s.wdTable.modify i f }

/-- `spawn_user_process`: it fails, or a task with any fields is created. -/
def spawn (s : Sched) : Option Task → Option (Fin maxTasks) × Sched
  | none => (none, s)
  | some fields => (s.createTaskSlot.1, s.createAndEnqueue fields)

/-- The stored task is marked, and the entry says when it was spawned. -/
def store (s : Sched) (i : ℕ) : Option (Fin maxTasks) → Sched
  | some t =>
    modifyEntry (s.modify (.slot t) fun task => { task with wdManaged := true }) i fun e =>
      { e with task := some (.slot t), spawnTick := s.wdTick }
  | none => modifyEntry s i fun e => { e with task := none, spawnDue := true }

/-- One step of `watchdog_check`; `fields` is what `spawn_user_process` makes of the program. -/
def checkStep (st : CheckState) (fields : Option Task) : CheckState :=
  match st.pc with
  | .test i =>
    match st.sched.wdTable[i]? with
    | none => { st with pc := .test 0 }
    | some e =>
      if !e.active || !e.spawnDue then { st with pc := .test (i + 1) }
      else
        { st with sched := modifyEntry st.sched i fun e => { e with spawnDue := false },
                  pc := .cleared i }
  | .cleared i =>
    let (t, s) := spawn st.sched fields
    { sched := s, pc := .spawned i t,
      spawned := t.toList.map (fun t => (i, (s.task (.slot t)).pid)) ++ st.spawned }
  | .spawned i t => { st with sched := store st.sched i t, pc := .test (i + 1) }

end CheckState

/-- What happens. -/
inductive CheckEvent where
  /-- a step of `watchdog_check` -/
  | check (fields : Option Task)
  /-- anything else -/
  | other (e : SchedEvent)

/-- The idle loop runs `watchdog_check` again and again, whenever the idle task is current. -/
def checkSystem : System CheckState CheckEvent where
  init st := schedSystem.init st.sched ∧ st.pc = .test 0 ∧ st.spawned = []
  allowed st
    | .check _ => st.sched.currentTask = .idle
    | .other e => schedSystem.allowed st.sched e
  step st
    | .check fields => some (st.checkStep fields)
    | .other e => (schedSystem.step st.sched e).map fun s => { st with sched := s }

/-- The event runs `watchdog_tick`. -/
def CheckEvent.watchdogTicks (st : CheckState) : CheckEvent → Bool
  | .other .tick => !(st.sched.task st.sched.currentTask).killPending &&
      (st.sched.tickCount + 1) % 2 ^ 32 % 50 == 0
  | _ => false

/-- The event is no `watchdog_tick` in the window. -/
def CheckEvent.OutsideWindow (st : CheckState) (e : CheckEvent) : Prop :=
  st.pc.window = none ∨ e.watchdogTicks st = false

namespace Sched

variable {s s' s'' : Sched}

/-! ## `watchdog_tick` -/

/-- What `watchdog_tick` makes of an entry, in the state after it. -/
structure Ticked (s' : Sched) (e e' : WdEntry) : Prop where
  /-- the task stays, or the entry has none -/
  task : e'.task = e.task ∨ e'.task = none
  /-- a task that is dropped is freed -/
  freed : ∀ t, e.task = some (.slot t) → e'.task = none → (s'.task (.slot t)).inUse = false
  /-- only entries without a task wait -/
  delay : (0 < e.delayTicks → e.task = none) → 0 < e'.delayTicks → e'.task = none
  /-- only entries without a task that do not wait ask for one -/
  due : (e.spawnDue = true → e.task = none ∧ e.delayTicks = 0) →
    (0 < e.delayTicks → e.task = none) → e'.spawnDue = true → e'.task = none ∧ e'.delayTicks = 0

theorem inUse_freeTaskSlot (s : Sched) (i : Fin maxTasks) :
    ((s.freeTaskSlot (.slot i)).task (.slot i)).inUse = false := by
  rw [freeTaskSlot, task_modify, if_pos rfl]
  rfl

/-- A slot that is not in use stays so. -/
theorem Keeps.inUse_eq_false (h : Keeps s s') {t : TaskPtr} (ht : (s.task t).inUse = false) :
    (s'.task t).inUse = false := by
  rcases h.task t with hsame | ⟨-, hgone⟩
  · exact (congrArg Profile.inUse hsame).trans ht
  · exact congrArg Profile.inUse hgone

/-- A later round frees more slots. -/
theorem Ticked.keeps {e e' : WdEntry} (h : Ticked s e e') (hk : Keeps s s') : Ticked s' e e' :=
  ⟨h.task, fun t ht he' => hk.inUse_eq_false (h.freed t ht he'), h.delay, h.due⟩

theorem ticked_wdEntryTick (s : Sched) (e : WdEntry) :
    Ticked (s.wdEntryTick e).2 e (s.wdEntryTick e).1 := by
  have hsame : Ticked s e e :=
    ⟨.inl rfl, fun t ht hn => (nomatch ht.symm.trans hn), id, fun h _ => h⟩
  unfold wdEntryTick
  split
  · exact hsame
  split
  · exact hsame
  split
  · rename_i hdelay
    refine ⟨.inl rfl, fun t ht hn => (nomatch ht.symm.trans hn), fun h _ => h hdelay,
      fun hdue h hdue' => ⟨h hdelay, ?_⟩⟩
    by_contra hmore
    simp only [if_neg hmore] at hdue'
    exact hdelay.ne' (hdue hdue').2
  rename_i hdelay
  cases htask : e.task with
  | none =>
    exact ⟨.inl htask.symm, fun t ht => (nomatch htask.symm.trans ht), fun _ _ => rfl,
      fun _ _ _ => ⟨rfl, Nat.eq_zero_of_not_pos hdelay⟩⟩
  | some t =>
    -- the task has ended: it is dropped in each of the three ways to go on
    have hdrop : ∀ e' : WdEntry, e'.task = none → e'.spawnDue = e.spawnDue →
        Ticked (s.freeTaskSlot t) e e' := by
      intro e' he' hsame
      refine ⟨.inr he', fun i hi _ => ?_, fun _ _ => he', fun hdue _ hdue' => ?_⟩
      · cases htask.symm.trans hi
        exact inUse_freeTaskSlot s i
      · cases htask.symm.trans (hdue (hsame.symm.trans hdue')).1
    simp only
    split_ifs <;> exact hdrop _ rfl rfl

theorem wdTickAll_ticked (es : List WdEntry) : ∀ s : Sched,
    (s.wdTickAll es).1.length = es.length ∧
      ∀ (i : ℕ) e', (s.wdTickAll es).1[i]? = some e' →
        ∃ e, es[i]? = some e ∧ Ticked (s.wdTickAll es).2 e e' := by
  induction es with
  | nil => exact fun s => ⟨rfl, fun i e' h => by simp [wdTickAll] at h⟩
  | cons e es ih =>
    intro s
    obtain ⟨hlength, htail⟩ := ih (s.wdEntryTick e).2
    refine ⟨congrArg Nat.succ hlength, fun i e' he' => ?_⟩
    cases i with
    | zero =>
      obtain rfl : (s.wdEntryTick e).1 = e' := some.inj he'
      exact ⟨e, rfl, (ticked_wdEntryTick s e).keeps (keeps_wdTickAll es _)⟩
    | succ i => exact htail i e' he'

/-- **What `watchdog_tick` does to the table.** -/
theorem watchdogTick_ticked (s : Sched) :
    s.watchdogTick.wdTable.length = s.wdTable.length ∧
      ∀ (i : ℕ) e', s.watchdogTick.wdTable[i]? = some e' →
        ∃ e, s.wdTable[i]? = some e ∧ Ticked s.watchdogTick e e' := by
  obtain ⟨hlength, hentry⟩ :=
    wdTickAll_ticked s.wdTable { s with wdTick := (s.wdTick + 1) % 2 ^ 32 }
  refine ⟨hlength, fun i e' he' => ?_⟩
  obtain ⟨e, he, hticked⟩ := hentry i e' he'
  exact ⟨e, he, hticked.keeps ⟨fun _ => .inl rfl, rfl, rfl⟩⟩

/-! ## Creation -/

/-- A task was created in slot `i`. -/
structure Created (s s' : Sched) (i : Fin maxTasks) : Prop where
  /-- it has the next identity -/
  pid : (s'.task (.slot i)).pid = s.pidCounter
  /-- it is in use -/
  inUse : (s'.task (.slot i)).inUse = true
  /-- the other profiles are as before -/
  others : ∀ t, t ≠ .slot i → (s'.task t).profile = (s.task t).profile
  /-- identities go up -/
  pidCounter : s'.pidCounter = s.pidCounter + 1
  wdTable : s'.wdTable = s.wdTable

theorem createAndEnqueue_created (s : Sched) (fields : Task) :
    (s.createTaskSlot.1 = none ∧ s.createAndEnqueue fields = s) ∨
      ∃ i, s.createTaskSlot.1 = some i ∧ Created s (s.createAndEnqueue fields) i := by
  rcases s.createAndEnqueue_cases fields with ⟨hslot, hsame⟩ | ⟨i, s1, hslot, -, hbody⟩
  · exact .inl ⟨congrArg Prod.fst hslot, hsame⟩
  · have hvia := Via.of_body leveling_profile.toQueueing hbody
    refine .inr ⟨i, congrArg Prod.fst hslot, ?_, ?_, fun t ht => ?_, hvia.pidCounter,
      hvia.wdTable⟩
    · refine (congrArg Profile.pid (hvia.task (.slot i))).trans ?_
      rw [created, task_modify, if_pos rfl]
      rfl
    · refine (congrArg Profile.inUse (hvia.task (.slot i))).trans ?_
      rw [created, task_modify, if_pos rfl]
      rfl
    · refine (hvia.task t).trans ?_
      rw [created, task_modify, if_neg ht]

end Sched

/-! ## The invariant -/

/-- Every spawned task that is there is the task of its entry, and entries that ask for a task
or wait have none. -/
structure OneEach (st : CheckState) : Prop where
  /-- identities are in order -/
  pids : st.sched.PidsOk
  /-- what was spawned was for an entry, and has an identity -/
  known : ∀ r ∈ st.spawned, r.1 < st.sched.wdTable.length ∧ r.2 < st.sched.pidCounter
  /-- a spawned task is its entry's, or about to be -/
  owned : ∀ (i : ℕ) (t : Fin maxTasks), (i, (st.sched.task (.slot t)).pid) ∈ st.spawned →
    (st.sched.task (.slot t)).inUse = true →
    (∃ e, st.sched.wdTable[i]? = some e ∧ e.task = some (.slot t)) ∨ st.pc = .spawned i (some t)
  /-- who asks has none, and does not wait -/
  due : ∀ (i : ℕ) e, st.sched.wdTable[i]? = some e → e.spawnDue = true →
    e.task = none ∧ e.delayTicks = 0
  /-- who waits has none -/
  delay : ∀ (i : ℕ) e, st.sched.wdTable[i]? = some e → 0 < e.delayTicks → e.task = none
  /-- the entry in the window has none, and neither asks nor waits -/
  window : ∀ i, st.pc.window = some i →
    ∃ e, st.sched.wdTable[i]? = some e ∧ e.spawnDue = false ∧ e.task = none ∧ e.delayTicks = 0

namespace OneEach

open Sched CheckState

variable {st : CheckState} {s : Sched}

theorem init (h : checkSystem.init st) : OneEach st := by
  obtain ⟨⟨pageDirectory, hsched⟩, hpc, hspawned⟩ := h
  have htable : st.sched.wdTable = [] := by rw [hsched]; rfl
  refine ⟨hsched ▸ pidsOk_taskInit _, ?_, ?_, ?_, ?_, ?_⟩
  · rw [hspawned]
    nofun
  · rw [hspawned]
    nofun
  · rw [htable]
    nofun
  · rw [htable]
    nofun
  · rw [hpc]
    nofun

variable (h : OneEach st)
include h

/-- An event that leaves the table alone and creates no task. -/
theorem same (htable : s.wdTable = st.sched.wdTable) (hpid : s.pidCounter = st.sched.pidCounter)
    (huse : ∀ t, (s.task t).inUse = true →
      (st.sched.task t).inUse = true ∧ (s.task t).pid = (st.sched.task t).pid) :
    OneEach { st with sched := s } := by
  refine ⟨h.pids.of_inUse hpid huse, fun r hr => ?_, fun i t hmem ht => ?_, ?_, ?_, ?_⟩
  · rw [htable, hpid]
    exact h.known r hr
  · obtain ⟨ht', hsame⟩ := huse _ ht
    rw [htable]
    exact h.owned i t (hsame ▸ hmem) ht'
  · rw [htable]
    exact h.due
  · rw [htable]
    exact h.delay
  · rw [htable]
    exact h.window

theorem via (hv : Via Goes st.sched s) : OneEach { st with sched := s } :=
  h.same hv.wdTable hv.pidCounter fun t ht => ⟨(hv.task t).inUse ▸ ht, (hv.task t).pid⟩

/-- **A `watchdog_tick` outside the window.** -/
theorem watchdogTick (hout : st.pc.window = none) :
    OneEach { st with sched := st.sched.watchdogTick } := by
  obtain ⟨hlength, hentry⟩ := watchdogTick_ticked st.sched
  have hkeeps := keeps_watchdogTick st.sched
  refine ⟨h.pids.keeps hkeeps, fun r hr => ?_, fun i t hmem huse => ?_, fun i e' he' hdue => ?_,
    fun i e' he' hdelay => ?_, fun i hi => ?_⟩
  · rw [hlength, hkeeps.pidCounter]
    exact h.known r hr
  · obtain ⟨huse', hpid⟩ := hkeeps.inUse huse
    have hmem : (i, (st.sched.task (.slot t)).pid) ∈ st.spawned := hpid ▸ hmem
    rcases h.owned i t hmem huse' with ⟨e, he, htask⟩ | hpc
    · have hlt : i < st.sched.watchdogTick.wdTable.length := hlength ▸ (h.known _ hmem).1
      obtain ⟨e0, he0, hticked⟩ := hentry i _ (List.getElem?_eq_getElem hlt)
      cases he.symm.trans he0
      refine .inl ⟨_, List.getElem?_eq_getElem hlt, ?_⟩
      rcases hticked.task with hsame | hnone
      · exact hsame.trans htask
      · -- had the entry dropped the task, it would be freed
        cases huse.symm.trans (hticked.freed t htask hnone)
    · rw [hpc] at hout
      cases hout
  · obtain ⟨e, he, hticked⟩ := hentry i e' he'
    exact hticked.due (h.due i e he) (h.delay i e he) hdue
  · obtain ⟨e, he, hticked⟩ := hentry i e' he'
    exact hticked.delay (h.delay i e he) hdelay
  · cases hout.symm.trans hi

theorem register (path : CStr) (tier : Tier) (t : Option TaskPtr) :
    OneEach { st with sched := (st.sched.watchdogRegister path tier t).2 } := by
  have hkeeps := keeps_watchdogRegister st.sched path tier t
  -- the table is as it was, or has one entry more, which neither asks nor waits
  have htable : (st.sched.watchdogRegister path tier t).2.wdTable = st.sched.wdTable ∨
      ∃ e, (st.sched.watchdogRegister path tier t).2.wdTable = st.sched.wdTable ++ [e] ∧
        e.spawnDue = false ∧ e.delayTicks = 0 := by
    unfold watchdogRegister
    split
    · exact .inl rfl
    · cases t <;> exact .inr ⟨_, rfl, rfl, rfl⟩
  rcases htable with hsame | ⟨e0, htable, hdue, hdelay⟩
  · exact h.same hsame hkeeps.pidCounter fun _ => hkeeps.inUse
  have hold : ∀ (i : ℕ) e, st.sched.wdTable[i]? = some e →
      (st.sched.wdTable ++ [e0])[i]? = some e := by
    intro i e he
    rw [List.getElem?_append_left (List.getElem?_eq_some_iff.mp he).1]
    exact he
  have hnew : ∀ (i : ℕ) e, (st.sched.wdTable ++ [e0])[i]? = some e →
      st.sched.wdTable[i]? = some e ∨ e = e0 := by
    intro i e he
    rw [List.getElem?_append] at he
    split at he
    · exact .inl he
    · exact .inr (mem_singleton.mp (mem_of_getElem? he))
  refine ⟨h.pids.keeps hkeeps, fun r hr => ?_, fun i t' hmem huse => ?_, fun i e he hdue' => ?_,
    fun i e he hdelay' => ?_, fun i hi => ?_⟩
  · rw [htable, hkeeps.pidCounter, length_append]
    exact ⟨(h.known r hr).1.trans_le (Nat.le_add_right _ _), (h.known r hr).2⟩
  · obtain ⟨huse', hpid⟩ := hkeeps.inUse huse
    rcases h.owned i t' (hpid ▸ hmem) huse' with ⟨e, he, htask⟩ | hpc
    · exact .inl ⟨e, htable ▸ hold i e he, htask⟩
    · exact .inr hpc
  · rcases hnew i e (htable ▸ he) with he | rfl
    · exact h.due i e he hdue'
    · cases hdue.symm.trans hdue'
  · rcases hnew i e (htable ▸ he) with he | rfl
    · exact h.delay i e he hdelay'
    · rw [hdelay] at hdelay'
      exact absurd hdelay' (lt_irrefl _)
  · obtain ⟨e, he, hwindow⟩ := h.window i hi
    exact ⟨e, htable ▸ hold i e he, hwindow⟩

theorem create (fields : Task) : OneEach { st with sched := st.sched.createAndEnqueue fields } := by
  have hpids := h.pids.createAndEnqueue fields
  rcases st.sched.createAndEnqueue_created fields with ⟨-, hsame⟩ | ⟨j, -, hcreated⟩
  · rw [hsame]
    exact h
  refine ⟨hpids, fun r hr => ?_, fun i t hmem huse => ?_, ?_, ?_, ?_⟩
  · rw [hcreated.wdTable, hcreated.pidCounter]
    exact ⟨(h.known r hr).1, (h.known r hr).2.trans (Nat.lt_succ_self _)⟩
  · rw [hcreated.wdTable]
    by_cases ht : t = j
    · subst ht
      exact absurd hcreated.pid (h.known _ hmem).2.ne
    · have hprofile := hcreated.others (.slot t) fun hc => ht (TaskPtr.slot.inj hc)
      have hpid : ((st.sched.createAndEnqueue fields).task (.slot t)).pid =
          (st.sched.task (.slot t)).pid := congrArg Profile.pid hprofile
      have huse' : ((st.sched.createAndEnqueue fields).task (.slot t)).inUse =
          (st.sched.task (.slot t)).inUse := congrArg Profile.inUse hprofile
      exact h.owned i t (hpid ▸ hmem) (huse' ▸ huse)
  · rw [hcreated.wdTable]
    exact h.due
  · rw [hcreated.wdTable]
    exact h.delay
  · rw [hcreated.wdTable]
    exact h.window

variable {i : ℕ}

theorem next (hpc : st.pc = .test i) (j : ℕ) : OneEach { st with pc := .test j } := by
  refine ⟨h.pids, h.known, fun k t hmem huse => ?_, h.due, h.delay, nofun⟩
  rcases h.owned k t hmem huse with howned | hspawned
  · exact .inl howned
  · cases hpc.symm.trans hspawned

theorem clear (hpc : st.pc = .test i) {e : WdEntry}
    (he : st.sched.wdTable[i]? = some e) (hdue : e.spawnDue = true) :
    OneEach { st with
      sched := modifyEntry st.sched i fun e => { e with spawnDue := false },
      pc := .cleared i } := by
  have hentry : ∀ k : ℕ, (st.sched.wdTable.modify i fun e => { e with spawnDue := false })[k]? =
      (st.sched.wdTable[k]?).map fun e => if i = k then { e with spawnDue := false } else e :=
    fun k => List.getElem?_modify ..
  refine ⟨?_, fun r hr => ?_, fun k t hmem huse => ?_, fun k e' he' hdue' => ?_,
    fun k e' he' hdelay => ?_, fun k hk => ?_⟩
  · exact h.pids.keeps ⟨fun _ => .inl rfl, rfl, rfl⟩
  · refine ⟨?_, (h.known r hr).2⟩
    exact (h.known r hr).1.trans_eq (length_modify ..).symm
  · rcases h.owned k t hmem huse with ⟨e', he', htask⟩ | hspawned
    · refine .inl ⟨if i = k then { e' with spawnDue := false } else e', ?_, ?_⟩
      · exact (hentry k).trans (congrArg _ he')
      · split <;> exact htask
    · cases hpc.symm.trans hspawned
  · obtain ⟨e0, he0, rfl⟩ := map_eq_some_iff.mp ((hentry k).symm.trans he')
    split at hdue'
    · cases hdue'
    · rename_i hk
      rw [if_neg hk]
      exact h.due k e0 he0 hdue'
  · obtain ⟨e0, he0, rfl⟩ := map_eq_some_iff.mp ((hentry k).symm.trans he')
    have htask := h.delay k e0 he0 (by split at hdelay <;> exact hdelay)
    split <;> exact htask
  · cases hk
    refine ⟨{ e with spawnDue := false }, ?_, rfl, h.due i e he hdue⟩
    refine (hentry i).trans ?_
    rw [he, map_some, if_pos rfl]

/-- In the first part of the window no spawned task waits to be stored. -/
theorem owned_of_cleared (hpc : st.pc = .cleared i) {k : ℕ} {t : Fin maxTasks}
    (hmem : (k, (st.sched.task (.slot t)).pid) ∈ st.spawned)
    (huse : (st.sched.task (.slot t)).inUse = true) :
    ∃ e, st.sched.wdTable[k]? = some e ∧ e.task = some (.slot t) := by
  rcases h.owned k t hmem huse with howned | hspawned
  · exact howned
  · cases hpc.symm.trans hspawned

theorem spawn_none (hpc : st.pc = .cleared i) : OneEach { st with pc := .spawned i none } := by
  refine ⟨h.pids, h.known, fun k t hmem huse => ?_, h.due, h.delay, fun k hk => ?_⟩
  · exact .inl (h.owned_of_cleared hpc hmem huse)
  · exact h.window k (by rw [hpc]; exact hk)

theorem spawn_some (hpc : st.pc = .cleared i) {fields : Task} {j : Fin maxTasks}
    (hcreated : Created st.sched (st.sched.createAndEnqueue fields) j) :
    OneEach {
      sched := st.sched.createAndEnqueue fields, pc := .spawned i (some j),
      spawned := (i, ((st.sched.createAndEnqueue fields).task (.slot j)).pid) :: st.spawned } := by
  have hcreate := h.create fields
  obtain ⟨e, he, hwindow⟩ := h.window i (by rw [hpc]; rfl)
  refine ⟨hcreate.pids, fun r hr => ?_, fun k t hmem huse => ?_, hcreate.due, hcreate.delay,
    fun k hk => ?_⟩
  · rcases mem_cons.mp hr with rfl | hr
    · refine ⟨?_, ?_⟩
      · rw [hcreated.wdTable]
        exact (List.getElem?_eq_some_iff.mp he).1
      · rw [hcreated.pid, hcreated.pidCounter]
        exact Nat.lt_succ_self _
    · exact hcreate.known r hr
  · rcases mem_cons.mp hmem with hnew | hmem
    · -- only the new task has its identity
      obtain ⟨rfl, hpid⟩ := Prod.mk.inj hnew
      rw [hcreate.pids.inj t j huse hcreated.inUse hpid]
      exact .inr rfl
    · exact .inl (hcreate.owned_of_cleared hpc hmem huse)
  · cases hk
    refine ⟨e, ?_, hwindow⟩
    rw [hcreated.wdTable]
    exact he

theorem store {r : Option (Fin maxTasks)} (hpc : st.pc = .spawned i r) :
    OneEach { st with sched := store st.sched i r, pc := .test (i + 1) } := by
  obtain ⟨e, he, hdue, htask, hdelay⟩ := h.window i (by rw [hpc]; rfl)
  -- either way one entry is changed, and profiles are kept
  obtain ⟨f, htable, hkeeps, hf, hfdelay, hftask⟩ : ∃ f : WdEntry → WdEntry,
      (CheckState.store st.sched i r).wdTable = st.sched.wdTable.modify i f ∧
      Keeps st.sched (CheckState.store st.sched i r) ∧
      ((f e).spawnDue = true → (f e).task = none) ∧ (f e).delayTicks = 0 ∧
      (f e).task = r.map .slot := by
    cases r with
    | none => exact ⟨_, rfl, ⟨fun _ => .inl rfl, rfl, rfl⟩, fun _ => rfl, hdelay, rfl⟩
    | some t =>
      refine ⟨_, rfl, ?_, fun hdue' => (nomatch hdue.symm.trans hdue'), hdelay, rfl⟩
      have hmark := Keeps.modify st.sched (.slot t) (f := fun task =>
        { task with wdManaged := true }) fun _ => rfl
      exact ⟨hmark.task, rfl, rfl⟩
  have hentry : ∀ k : ℕ, (CheckState.store st.sched i r).wdTable[k]? =
      (st.sched.wdTable[k]?).map fun e => if i = k then f e else e := by
    intro k
    rw [htable]
    exact List.getElem?_modify ..
  have hcases : ∀ (k : ℕ) e', (CheckState.store st.sched i r).wdTable[k]? = some e' →
      e' = f e ∨ st.sched.wdTable[k]? = some e' := by
    intro k e' he'
    obtain ⟨e0, he0, rfl⟩ := map_eq_some_iff.mp ((hentry k).symm.trans he')
    by_cases hk : i = k
    · rw [if_pos hk]
      subst hk
      exact .inl (congrArg f (some.inj (he0.symm.trans he)))
    · rw [if_neg hk]
      exact .inr he0
  refine ⟨h.pids.keeps hkeeps, fun r' hr' => ?_, fun k t hmem huse => .inl ?_,
    fun k e' he' hdue' => ?_, fun k e' he' hdelay' => ?_, nofun⟩
  · rw [htable, length_modify, hkeeps.pidCounter]
    exact h.known r' hr'
  · obtain ⟨huse', hpid⟩ := hkeeps.inUse huse
    rcases h.owned k t (hpid ▸ hmem) huse' with ⟨e', he', htask'⟩ | hspawned
    · -- an entry with a task is not the one in the window
      have hk : i ≠ k := by
        rintro rfl
        rw [some.inj (he'.symm.trans he)] at htask'
        cases htask.symm.trans htask'
      refine ⟨e', ?_, htask'⟩
      rw [hentry, he', map_some, if_neg hk]
    · obtain ⟨rfl, rfl⟩ := CheckPc.spawned.inj (hpc.symm.trans hspawned)
      refine ⟨f e, ?_, hftask⟩
      rw [hentry, he, map_some, if_pos rfl]
  · rcases hcases k e' he' with rfl | he'
    · exact ⟨hf hdue', hfdelay⟩
    · exact h.due k e' he' hdue'
  · rcases hcases k e' he' with rfl | he'
    · exact absurd hfdelay hdelay'.ne'
    · exact h.delay k e' he' hdelay'

/-- **A step of `watchdog_check`.** -/
theorem check (fields : Option Task) : OneEach (st.checkStep fields) := by
  unfold checkStep
  cases hpc : st.pc with
  | test i =>
    simp only
    split
    · exact h.next hpc 0
    · rename_i e he
      split
      · exact h.next hpc (i + 1)
      · rename_i htest
        simp only [Bool.or_eq_true, Bool.not_eq_true', not_or, Bool.not_eq_false] at htest
        exact h.clear hpc he htest.2
  | cleared i =>
    cases fields with
    | none => exact h.spawn_none hpc
    | some fields =>
      simp only [CheckState.spawn]
      rcases st.sched.createAndEnqueue_created fields with ⟨hnone, hsame⟩ | ⟨j, hsome, hcreated⟩
      · rw [hnone, hsame]
        exact h.spawn_none hpc
      · rw [hsome]
        exact h.spawn_some hpc hcreated
  | spawned i r => exact h.store hpc

omit h in
/-- Events other than the turn of the watchdog. -/
theorem eventful (pc : CheckPc) (spawned : List (ℕ × ℕ)) :
    Eventful Goes fun s s' => OneEach ⟨s, pc, spawned⟩ → OneEach ⟨s', pc, spawned⟩ where
  allows := charging_goes
  tier _ _ := .of_eq rfl rfl rfl rfl
  trans h h' ho := h' (h ho)
  via hv ho := ho.via hv
  count _ _ ho := ho.same rfl rfl fun _ ht => ⟨ht, rfl⟩
  kill s _ ho := ho.via (.modify leveling_goes.toQueueing s _ (.of_eq rfl rfl rfl rfl))
  dies s _ ho := ho.via (.modify leveling_goes.toQueueing s _ (.of_eq rfl rfl rfl rfl))
  free s i _ ho := ho.same rfl rfl fun _ => (keeps_freeTaskSlot s (.slot i)).inUse
  register _ path tier t ho := ho.register path tier t
  create _ fields ho := ho.create fields
  exit s code := (via_exitCurrent ending_profile.toClosing s code).mono fun _ hv ho =>
    ho.same hv.wdTable hv.pidCounter fun _ => hv.keeps.inUse

theorem step {e : CheckEvent} (hallowed : checkSystem.allowed st e)
    (hout : e.OutsideWindow st) : Post (checkSystem.step st e) OneEach := by
  cases e with
  | check fields => exact .some (h.check fields)
  | other e =>
    refine Post.map (P := fun s => OneEach { st with sched := s }) ?_ fun _ h => h
    refine ((eventful st.pc st.spawned).step hallowed (fun _ => ?_)
      fun he hkill hfires s1 h1 => ?_).mono fun _ h' => h' h
    · exact (via_waitCurrent leveling_profile.toQueueing (fun _ => rfl) _).mono fun _ hv ho =>
        ho.same hv.wdTable hv.pidCounter fun _ => hv.keeps.inUse
    · subst he
      have hticks : (CheckEvent.other .tick).watchdogTicks st = true := by
        unfold CheckEvent.watchdogTicks
        rw [hkill, hfires]
        rfl
      refine h1.watchdogTick ?_
      rcases hout with hwindow | hquiet
      · exact hwindow
      · cases hquiet.symm.trans hticks

end OneEach

/-- A task of the table that has not ended. -/
def Sched.Live (s : Sched) (t : Fin maxTasks) : Prop :=
  (s.task (.slot t)).inUse = true ∧ (s.task (.slot t)).state ≠ .exited

/-- The runs without a `watchdog_tick` in the window. -/
abbrev quietSystem : System CheckState CheckEvent :=
  checkSystem.restrict fun st e => e.OutsideWindow st

/-- **One live instance per entry.** In every run without a `watchdog_tick` in the window, an
entry never has two live tasks that `watchdog_check` spawned for it, and an entry with a task
does not ask for another. -/
theorem watchdog_one_instance {st : CheckState} (h : quietSystem.Reachable st) :
    (∀ (i : ℕ) (t t' : Fin maxTasks), st.sched.Live t → st.sched.Live t' →
      (i, (st.sched.task (.slot t)).pid) ∈ st.spawned →
      (i, (st.sched.task (.slot t')).pid) ∈ st.spawned → t = t') ∧
    ∀ (i : ℕ) e t, st.sched.wdTable[i]? = some e → e.task = some t → e.spawnDue = false := by
  have hinv : OneEach st := by
    refine System.Reachable.invariant (S := quietSystem) (I := OneEach)
      (fun _ hinit => .init hinit) ?_ h
    rintro st e st' hst ⟨hallowed, hout⟩ hstep
    exact hst.step hallowed hout st' hstep
  refine ⟨fun i t t' ht ht' hmem hmem' => ?_, fun i e t he htask => ?_⟩
  · -- in the window the entry has no task, so one of the two places is empty
    have hnone : ∀ t1 t2 : Fin maxTasks, st.pc = .spawned i (some t1) →
        ¬ ∃ e, st.sched.wdTable[i]? = some e ∧ e.task = some (.slot t2) := by
      rintro t1 t2 hpc ⟨e, he, htask⟩
      obtain ⟨e', he', -, hno, -⟩ := hinv.window i (by rw [hpc]; rfl)
      cases he.symm.trans he'
      cases hno.symm.trans htask
    rcases hinv.owned i t hmem ht.1 with ⟨e, he, htask⟩ | hpc
    · rcases hinv.owned i t' hmem' ht'.1 with ⟨e', he', htask'⟩ | hpc'
      · cases he.symm.trans he'
        exact TaskPtr.slot.inj (some.inj (htask.symm.trans htask'))
      · exact absurd ⟨e, he, htask⟩ (hnone t' t hpc')
    · rcases hinv.owned i t' hmem' ht'.1 with howned | hpc'
      · exact absurd howned (hnone t t' hpc)
      · exact some.inj (CheckPc.spawned.inj (hpc.symm.trans hpc')).2
  · by_contra hdue
    cases htask.symm.trans (hinv.due i e he (Bool.eq_true_of_not_eq_false hdue)).1

/-! ## Two runs -/

instance (s : Sched) (t : Fin maxTasks) : Decidable (s.Live t) :=
  inferInstanceAs (Decidable (_ ∧ _))

instance (st : CheckState) (e : CheckEvent) : Decidable (e.OutsideWindow st) :=
  inferInstanceAs (Decidable (_ ∨ _))

/-- A test for being allowed, for the events of the runs below. -/
def CheckEvent.passes (st : CheckState) : CheckEvent → Bool
  | .check _ => decide (st.sched.currentTask = .idle)
  | .other .wait => decide (st.sched.currentTask ≠ .idle)
  | .other (.register _ _ _) | .other .schedule | .other .tick => true
  | .other _ => false

theorem CheckEvent.allowed_of_passes (st : CheckState) (e : CheckEvent) (h : e.passes st = true) :
    checkSystem.allowed st e := by
  cases e with
  | check fields => exact of_decide_eq_true (p := st.sched.currentTask = .idle) h
  | other e =>
    cases e with
    | wait => exact of_decide_eq_true (p := st.sched.currentTask ≠ .idle) h
    | register | schedule | tick => exact trivial
    | create | yield | exit | setTier | setLevel | kill | reap => cases h

/-- The machine after `task_init`. -/
def checkInit : CheckState := ⟨.taskInit 300, .test 0, []⟩

theorem init_checkInit : checkSystem.init checkInit := ⟨⟨300, rfl⟩, rfl, rfl⟩

/-- A program is registered, and two turns of the watchdog are almost over. -/
def registered : List CheckEvent :=
  .other (.register (cstr "/mnt/shell.elf") .system none) :: List.replicate 99 (.other .tick)

/-- `watchdog_check` starts it, and the next turn of the watchdog comes after that. -/
def quietStart : List CheckEvent :=
  registered ++ [.check none, .check (some (userTask none)), .check none, .other .tick]

/-- The program has one instance, and its entry does not ask for another. -/
theorem watchdog_one_instance_quiet :
    ∃ st e, quietSystem.Reachable st ∧ st.spawned = [(0, 1)] ∧ st.sched.Live 0 ∧
      st.sched.wdTable[0]? = some e ∧ e.task = some (.slot 0) ∧ e.spawnDue = false := by
  obtain ⟨st, hreach, hspawned, hlive, e, he, htask⟩ := System.exists_reachable (S := quietSystem)
    (fun st e => e.passes st ∧ e.OutsideWindow st) quietStart
    (fun st => st.spawned = [(0, 1)] ∧ st.sched.Live 0 ∧
      ∃ e ∈ st.sched.wdTable[0]?, e.task = some (.slot 0))
    (fun st e h => ⟨e.allowed_of_passes st h.1, h.2⟩) (.init init_checkInit) (by decide +kernel)
  exact ⟨st, e, hreach, hspawned, hlive, he, htask, (watchdog_one_instance hreach).2 0 e _ he htask⟩

/-- The turn of the watchdog comes after `spawn_due` is cleared and before the task is stored;
the task then blocks, and `watchdog_check` runs again. -/
def tickInWindow : List CheckEvent :=
  registered ++ [.check none, .other .tick, .check (some (userTask none)), .check none,
    .other .schedule, .other .wait, .check none, .check none, .check (some (userTask none)),
    .check none]

/-- **A `watchdog_tick` in the window starts a second instance.** -/
theorem watchdog_two_instances :
    ∃ st, checkSystem.Reachable st ∧ st.sched.Live 0 ∧ st.sched.Live 1 ∧
      (0, (st.sched.task (.slot 0)).pid) ∈ st.spawned ∧
      (0, (st.sched.task (.slot 1)).pid) ∈ st.spawned := by
  refine System.exists_reachable (S := checkSystem) (fun st e => e.passes st) tickInWindow _
    CheckEvent.allowed_of_passes (.init init_checkInit) ?_
  decide +kernel

end PokuOS

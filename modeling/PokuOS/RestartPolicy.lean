import PokuOS.Watchdog

/-!
# The watchdog's restart policy

`watchdog_tick` and `watchdog_check` as atomic steps, and between them anything that leaves the
watchdog's table alone: tasks end, are created, change their state.

An entry that was registered with a task goes round a cycle. Its task runs (`Policy.running`);
a tick notices that it has ended, counts the restart and sets the delay; the delay runs down
(`Policy.waiting`); `watchdog_check` spawns the next one. What the policy promises is counted
beside the table, in `WdLife`: exits noticed, respawns, ticks since the last exit, the age of the
task and the number of short lives in a row.
-/

namespace PokuOS

open Function List Sched

/-! ## `watchdog_check` in one step -/

namespace Sched

open CheckState

/-- The body of the loop of `watchdog_check`; `fields` is what `spawn_user_process` makes of the
program, `none` when it fails. -/
def checkEntry (s : Sched) (i : ℕ) (fields : Option Task) : Sched :=
  match s.wdTable[i]? with
  | none => s
  | some e =>
    if !e.active || !e.spawnDue then s
    else
      let s := modifyEntry s i fun e => { e with spawnDue := false }
      let (t, s) := spawn s fields
      store s i t

/-- `watchdog_check`. -/
def watchdogCheck (s : Sched) (fields : ℕ → Option Task) : Sched :=
  (List.range s.wdTable.length).foldl (fun s i => s.checkEntry i (fields i)) s

end Sched

/-- What `watchdog_check` makes of an entry, when `spawn_user_process` returns `t`. -/
def WdEntry.checked (wdTick : ℕ) (t : Option (Fin maxTasks)) (e : WdEntry) : WdEntry :=
  if !e.active || !e.spawnDue then e
  else
    match t with
    | some t => { e with spawnDue := false, task := some (.slot t), spawnTick := wdTick }
    | none => { e with spawnDue := true, task := none }

namespace Sched

open CheckState

variable {s : Sched}

/-- Spawning leaves the watchdog's table alone. -/
theorem wd_spawn (s : Sched) (fields : Option Task) :
    (spawn s fields).2.wdTable = s.wdTable ∧ (spawn s fields).2.wdTick = s.wdTick := by
  cases fields with
  | none => exact ⟨rfl, rfl⟩
  | some fields =>
    rcases s.createAndEnqueue_cases fields with ⟨-, hsame⟩ | ⟨i, s1, -, -, hbody⟩
    · simp only [spawn, hsame, and_self]
    · exact ⟨(congrArg wdTable hbody :), (congrArg wdTick hbody :)⟩

/-- Changing an entry of a list, told by the entry. -/
theorem modify_congr_at {α : Type*} {l : List α} {i : ℕ} {f g : α → α}
    (h : ∀ a, l[i]? = some a → f a = g a) : l.modify i f = l.modify i g := by
  refine ext_getElem? fun j => ?_
  rw [getElem?_modify, getElem?_modify]
  split
  · rename_i hij
    subst hij
    cases hi : l[i]? with
    | none => rfl
    | some a => exact congrArg some (h a hi)
  · rfl

theorem checkEntry_table (s : Sched) (i : ℕ) (fields : Option Task) :
    ∃ t, (s.checkEntry i fields).wdTable = s.wdTable.modify i (WdEntry.checked s.wdTick t) ∧
      (s.checkEntry i fields).wdTick = s.wdTick := by
  unfold checkEntry
  cases hi : s.wdTable[i]? with
  | none =>
    refine ⟨none, ?_, rfl⟩
    rw [modify_congr_at (g := id) (by rw [hi]; nofun), modify_id]
  | some e =>
    simp only
    split
    · rename_i hskip
      refine ⟨none, ?_, rfl⟩
      rw [modify_congr_at (g := id) fun a ha => ?_, modify_id]
      cases hi.symm.trans ha
      exact if_pos hskip
    · rename_i hdue
      set s1 := modifyEntry s i fun e => { e with spawnDue := false } with hs1
      obtain ⟨htable, htick⟩ := wd_spawn s1 fields
      refine ⟨(spawn s1 fields).1, ?_, ?_⟩
      · cases ht : (spawn s1 fields).1 with
        | none =>
          simp only [store, modifyEntry, htable]
          rw [hs1, modifyEntry, modify_modify_eq]
          refine modify_congr_at fun a ha => ?_
          cases hi.symm.trans ha
          exact (if_neg hdue).symm
        | some t =>
          simp only [store, modifyEntry]
          change List.modify (spawn s1 fields).2.wdTable i _ = _
          rw [htable, hs1, modifyEntry, modify_modify_eq]
          refine modify_congr_at fun a ha => ?_
          cases hi.symm.trans ha
          rw [WdEntry.checked, if_neg hdue]
          exact congrArg
            (fun n => { e with spawnDue := false, task := some (.slot t), spawnTick := n })
            htick
      · cases (spawn s1 fields).1 with
        | none => exact htick
        | some t => exact htick

theorem checkEntries_table (fields : ℕ → Option Task) (is : List ℕ) (hnd : is.Nodup) :
    ∀ s : Sched, (is.foldl (fun s i => s.checkEntry i (fields i)) s).wdTick = s.wdTick ∧
      ∀ j : ℕ, (j ∉ is → (is.foldl (fun s i => s.checkEntry i (fields i)) s).wdTable[j]? =
          s.wdTable[j]?) ∧
        ∃ t, j ∈ is → (is.foldl (fun s i => s.checkEntry i (fields i)) s).wdTable[j]? =
          s.wdTable[j]?.map (WdEntry.checked s.wdTick t) := by
  induction is with
  | nil => exact fun s => ⟨rfl, fun j => ⟨fun _ => rfl, none, fun hj => absurd hj not_mem_nil⟩⟩
  | cons i is ih =>
    intro s
    obtain ⟨hi, hnd⟩ := nodup_cons.mp hnd
    obtain ⟨t, htable, htick⟩ := s.checkEntry_table i (fields i)
    obtain ⟨htick', hrest⟩ := ih hnd (s.checkEntry i (fields i))
    rw [foldl_cons]
    refine ⟨htick'.trans htick, fun j => ?_⟩
    obtain ⟨hout, t', hin⟩ := hrest j
    rw [htable, getElem?_modify] at hout hin
    rw [htick] at hin
    by_cases hij : i = j
    · subst hij
      simp only [reduceIte] at hout
      exact ⟨fun hc => absurd mem_cons_self hc, t, fun _ => hout hi⟩
    · simp only [hij, if_false, Option.map_eq_map, Option.map_id'] at hout hin
      refine ⟨fun hj => hout fun hm => hj (mem_cons_of_mem _ hm), t', fun hj => ?_⟩
      exact hin ((mem_cons.mp hj).resolve_left (Ne.symm hij))

/-- **`watchdog_check`** checks every entry once. -/
theorem watchdogCheck_table (s : Sched) (fields : ℕ → Option Task) :
    (s.watchdogCheck fields).wdTick = s.wdTick ∧ ∀ j : ℕ, ∃ t,
      (s.watchdogCheck fields).wdTable[j]? = s.wdTable[j]?.map (WdEntry.checked s.wdTick t) := by
  obtain ⟨htick, hall⟩ := checkEntries_table fields _ nodup_range s
  refine ⟨htick, fun j => ?_⟩
  obtain ⟨hout, t, hin⟩ := hall j
  refine ⟨t, ?_⟩
  by_cases hj : j < s.wdTable.length
  · exact hin (mem_range.mpr hj)
  · have hnone : s.wdTable[j]? = none := getElem?_eq_none (not_lt.mp hj)
    refine (hout fun hm => hj (mem_range.mp hm)).trans ?_
    rw [hnone]
    rfl

theorem wdTick_freeTaskSlot (s : Sched) (t : TaskPtr) : (s.freeTaskSlot t).wdTick = s.wdTick := by
  cases t <;> rfl

/-- **`watchdog_tick`** visits every entry once. -/
theorem watchdogTick_table (s : Sched) :
    s.watchdogTick.wdTick = (s.wdTick + 1) % 2 ^ 32 ∧ ∀ j : ℕ, ∃ s' : Sched,
      s'.wdTick = (s.wdTick + 1) % 2 ^ 32 ∧
      s.watchdogTick.wdTable[j]? = s.wdTable[j]?.map fun e => (s'.wdEntryTick e).1 := by
  have hloop : ∀ (es : List WdEntry) (s : Sched), (s.wdTickAll es).2.wdTick = s.wdTick ∧
      ∀ j : ℕ, ∃ s' : Sched, s'.wdTick = s.wdTick ∧
        (s.wdTickAll es).1[j]? = es[j]?.map fun e => (s'.wdEntryTick e).1 := by
    intro es
    induction es with
    | nil => exact fun s => ⟨rfl, fun j => ⟨s, rfl, rfl⟩⟩
    | cons e es ih =>
      intro s
      have hone : (s.wdEntryTick e).2.wdTick = s.wdTick := by
        rcases s.wdEntryTick_cases e with hsame | ⟨t, -, hfree⟩
        · rw [hsame]
        · rw [hfree, wdTick_freeTaskSlot]
      obtain ⟨htick, hrest⟩ := ih (s.wdEntryTick e).2
      refine ⟨htick.trans hone, fun j => ?_⟩
      cases j with
      | zero => exact ⟨s, rfl, rfl⟩
      | succ j =>
        obtain ⟨s', hs', hentry⟩ := hrest j
        exact ⟨s', hs'.trans hone, hentry⟩
  exact hloop s.wdTable { s with wdTick := (s.wdTick + 1) % 2 ^ 32 }

end Sched

/-! ## Counting -/

/-- What has happened to an entry. -/
structure WdLife where
  /-- it was registered with a task -/
  started : Bool
  /-- the exits that ticks have noticed -/
  exits : ℕ
  /-- the tasks that `watchdog_check` has spawned -/
  respawns : ℕ
  /-- the ticks after the one that noticed the last exit -/
  since : ℕ
  /-- the ticks since the task was registered or spawned -/
  age : ℕ
  /-- the lives of less than ten ticks that came last, one after the other -/
  short : ℕ

/-- The life of an entry begins. -/
def WdLife.new (started : Bool) : WdLife := ⟨started, 0, 0, 0, 0, 0⟩

/-- A tick, which may notice that the task has ended. -/
def WdLife.tick (g : WdLife) (noticed : Bool) : WdLife :=
  if noticed then
    { g with exits := g.exits + 1, since := 0, age := g.age + 1,
             short := if g.age + 1 < wdUnstableTicks then g.short + 1 else 0 }
  else { g with since := g.since + 1, age := g.age + 1 }

/-- A check, which may spawn a task. -/
def WdLife.check (g : WdLife) (respawned : Bool) : WdLife :=
  if respawned then { g with respawns := g.respawns + 1, age := 0 } else g

/-- The tick has dropped a task of the entry: **it noticed that the task has ended**. -/
def noticed (e e' : WdEntry) : Bool := e.task.isSome && e'.task.isNone

/-- The check has called `spawn_user_process` for the entry, **with success**. -/
def respawned (e e' : WdEntry) : Bool := e.active && e.spawnDue && e'.task.isSome

/-- The scheduler with the watchdog's table, and what has happened to the entries. -/
structure WdRun where
  /-- tasks and table -/
  sched : Sched
  /-- each entry -/
  life : ℕ → WdLife

namespace WdRun

/-- The table changes; an entry's life goes on by `f`. -/
def entries (st : WdRun) (s : Sched) (f : WdLife → WdEntry → WdEntry → WdLife) : WdRun where
  sched := s
  life i := match st.sched.wdTable[i]?, s.wdTable[i]? with
    | some e, some e' => f (st.life i) e e'
    | _, _ => st.life i

/-- `watchdog_tick`. -/
def tick (st : WdRun) : WdRun :=
  st.entries st.sched.watchdogTick fun g e e' => g.tick (noticed e e')

/-- `watchdog_check`. -/
def check (st : WdRun) (fields : ℕ → Option Task) : WdRun :=
  st.entries (st.sched.watchdogCheck fields) fun g e e' => g.check (respawned e e')

/-- `watchdog_register`. -/
def register (st : WdRun) (path : CStr) (tier : Tier) (initialTask : Option TaskPtr) : WdRun where
  sched := (st.sched.watchdogRegister path tier initialTask).2
  life := Function.update st.life st.sched.wdTable.length (.new initialTask.isSome)

end WdRun

/-- What happens around the watchdog. -/
inductive WdEvent where
  /-- `watchdog_tick` -/
  | tick
  /-- `watchdog_check`, with what each `spawn_user_process` makes of its program -/
  | check (fields : ℕ → Option Task)
  /-- `watchdog_register` -/
  | register (path : CStr) (tier : Tier) (initialTask : Option TaskPtr)
  /-- anything else: tasks end, are created, run -/
  | other (s : Sched)

/-- The watchdog with its environment. -/
def wdSystem : System WdRun WdEvent where
  init st := schedSystem.init st.sched
  allowed st
    | .other s => s.wdTable = st.sched.wdTable ∧ s.wdTick = st.sched.wdTick
    | _ => True
  step st
    | .tick => some st.tick
    | .check fields => some (st.check fields)
    | .register path tier initialTask => some (st.register path tier initialTask)
    | .other s => some { st with sched := s }

/-! ## The cycle of an entry -/

/-- The entry that `watchdog_register` adds. -/
def WdEntry.registered (path : CStr) (tier : Tier) (task : Option TaskPtr) (wdTick : ℕ) :
    WdEntry where
  path := path
  tier := tier
  task := task
  restarts := 0
  unstable := 0
  delayTicks := 0
  spawnDue := false
  active := true
  spawnTick := wdTick

/-- The number of short lives in a row that the watchdog counts when it notices an exit. -/
def WdEntry.unstableNow (e : WdEntry) (wdTick : ℕ) : ℕ :=
  if (wdTick + 2 ^ 32 - e.spawnTick) % 2 ^ 32 < wdUnstableTicks then e.unstable + 1 else 0

/-- What a tick makes of an active entry: nothing while the task runs; the delay runs down; a task
is due; or an exit is noticed, and the watchdog gives up or delays the restart. -/
theorem Sched.wdEntryTick_active (s : Sched) {e : WdEntry} (hactive : e.active = true) :
    (e.task.isSome ∧ (s.wdEntryTick e).1 = e) ∨
    (0 < e.delayTicks ∧ (s.wdEntryTick e).1 = { e with
      delayTicks := e.delayTicks - 1
      spawnDue := if e.delayTicks - 1 = 0 then true else e.spawnDue }) ∨
    (e.task = none ∧ e.delayTicks = 0 ∧ (s.wdEntryTick e).1 = { e with spawnDue := true }) ∨
    (e.task.isSome ∧ (s.wdEntryTick e).1.active = false) ∨
    (e.task.isSome ∧ e.unstableNow s.wdTick < wdUnstableLimit ∧ e.restarts + 1 ≤ wdMaxRestarts ∧
      (s.wdEntryTick e).1 = { e with
        unstable := e.unstableNow s.wdTick, restarts := e.restarts + 1
        delayTicks := wdBackoffBase * 2 ^ e.restarts, task := none }) := by
  simp only [wdEntryTick, hactive, Bool.not_true, Bool.false_eq_true, if_false]
  split
  · rename_i hrun
    refine .inl ⟨?_, rfl⟩
    cases htask : e.task with
    | none => rw [htask] at hrun; exact nomatch hrun
    | some t => rfl
  split
  · rename_i hdelay
    exact .inr (.inl ⟨hdelay, rfl⟩)
  rename_i hdelay
  cases htask : e.task with
  | none => exact .inr (.inr (.inl ⟨rfl, by omega, rfl⟩))
  | some t =>
    refine .inr (.inr (.inr ?_))
    simp only [WdEntry.unstableNow]
    generalize (if (s.wdTick + 2 ^ 32 - e.spawnTick) % 2 ^ 32 < wdUnstableTicks then e.unstable + 1
      else 0) = unstable
    by_cases hunstable : wdUnstableLimit ≤ unstable
    · rw [if_pos hunstable]
      exact .inl ⟨rfl, rfl⟩
    · rw [if_neg hunstable]
      by_cases hmost : wdMaxRestarts < e.restarts + 1
      · rw [if_pos hmost]
        exact .inl ⟨rfl, rfl⟩
      · rw [if_neg hmost]
        exact .inr ⟨rfl, not_le.mp hunstable, not_lt.mp hmost, rfl⟩

/-- What the table says of an active entry, and what has happened to it. -/
structure Active (wdTick : ℕ) (e : WdEntry) (g : WdLife) : Prop where
  /-- every exit was counted as a restart -/
  restarts : e.restarts = g.exits
  /-- there are few -/
  most : e.restarts ≤ wdMaxRestarts
  /-- short lives were counted -/
  short : g.short ≤ e.unstable
  /-- there are few in a row -/
  unstable : e.unstable < wdUnstableLimit
  /-- **its task runs**: each exit was followed by a respawn, and nothing is under way -/
  running : e.task.isSome → g.exits = g.respawns ∧ e.spawnDue = false ∧ e.delayTicks = 0 ∧
    e.spawnTick < 2 ^ 32 ∧ (wdTick + 2 ^ 32 - e.spawnTick) % 2 ^ 32 = g.age % 2 ^ 32
  /-- **it waits**: there is one exit more, and the delay runs down before a task is due -/
  waiting : e.task = none → g.exits = g.respawns + 1 ∧
    (0 < e.delayTicks → e.spawnDue = false ∧
      g.since + e.delayTicks = wdBackoffBase * 2 ^ g.respawns) ∧
    (e.delayTicks = 0 → wdBackoffBase * 2 ^ g.respawns ≤ g.since)

/-- The policy holds of an entry. -/
structure Policy (wdTick : ℕ) (e : WdEntry) (g : WdLife) : Prop where
  /-- respawns are few -/
  respawns : g.respawns ≤ wdMaxRestarts
  /-- an active entry -/
  active : e.active = true → Active wdTick e g

namespace Policy

variable {s : Sched} {n : ℕ} {e : WdEntry} {g : WdLife}

/-- **A tick.** -/
theorem tick (h : Policy n e g) (hn : n < 2 ^ 32) (hs : s.wdTick = (n + 1) % 2 ^ 32) :
    Policy s.wdTick (s.wdEntryTick e).1 (g.tick (noticed e (s.wdEntryTick e).1)) := by
  have hrespawns : ∀ b, (g.tick b).respawns = g.respawns := fun b => by cases b <;> rfl
  refine ⟨by rw [hrespawns]; exact h.respawns, fun hactive' => ?_⟩
  have hactive : e.active = true := by
    by_contra hno
    have hsame : (s.wdEntryTick e).1 = e := by
      simp only [wdEntryTick, Bool.eq_false_iff.mpr hno, Bool.not_false, if_true]
    exact hno (hsame ▸ hactive')
  have ha := h.active hactive
  rcases s.wdEntryTick_active hactive with ⟨htask, hsame⟩ | ⟨hdelay, hnext⟩ |
    ⟨htask, hdelay, hnext⟩ | ⟨-, hgone⟩ | ⟨htask, hunstable, hmost, hnext⟩
  · -- the task runs
    have hno : noticed e e = false := by
      rw [noticed]
      cases e.task <;> rfl
    obtain ⟨hexits, hdue, hdelay, hspawn, hage⟩ := ha.running htask
    rw [hsame, hno]
    refine ⟨ha.restarts, ha.most, ha.short, ha.unstable,
      fun _ => ⟨hexits, hdue, hdelay, hspawn, ?_⟩,
      (fun hnone => by rw [hnone] at htask; cases htask)⟩
    change (s.wdTick + 2 ^ 32 - e.spawnTick) % 2 ^ 32 = (g.age + 1) % 2 ^ 32
    omega
  · -- the delay runs down
    have htask : e.task = none := by
      cases htask : e.task with
      | none => rfl
      | some t =>
        have := (ha.running (by rw [htask]; rfl)).2.2.1
        omega
    have hno : noticed e (s.wdEntryTick e).1 = false := by rw [noticed, htask]; rfl
    obtain ⟨hexits, hwait, -⟩ := ha.waiting htask
    obtain ⟨hdue, hsum⟩ := hwait hdelay
    rw [hno, hnext]
    refine ⟨ha.restarts, ha.most, ha.short, ha.unstable,
      (fun hsome => by rw [htask] at hsome; cases hsome),
      fun _ => ⟨hexits, fun hpos => ⟨?_, ?_⟩, fun hzero => ?_⟩⟩
    · simp only at hpos ⊢
      rw [if_neg (by omega)]
      exact hdue
    · simp only [WdLife.tick] at hpos ⊢
      change g.since + 1 + (e.delayTicks - 1) = wdBackoffBase * 2 ^ g.respawns
      omega
    · change wdBackoffBase * 2 ^ g.respawns ≤ g.since + 1
      simp only at hzero
      omega
  · -- a task is due
    have hno : noticed e (s.wdEntryTick e).1 = false := by rw [noticed, htask]; rfl
    obtain ⟨hexits, -, hover⟩ := ha.waiting htask
    rw [hno, hnext]
    refine ⟨ha.restarts, ha.most, ha.short, ha.unstable,
      (fun hsome => by rw [htask] at hsome; cases hsome),
      fun _ => ⟨hexits, fun hpos => absurd hdelay hpos.ne', fun _ => ?_⟩⟩
    exact (hover hdelay).trans (Nat.le_succ _)
  · -- it has given up
    cases hgone.symm.trans hactive'
  · -- an exit is noticed
    have hyes : noticed e (s.wdEntryTick e).1 = true := by rw [noticed, htask, hnext]; rfl
    obtain ⟨hexits, hdue, -, hspawn, hage⟩ := ha.running htask
    have hlife : (s.wdTick + 2 ^ 32 - e.spawnTick) % 2 ^ 32 = (g.age + 1) % 2 ^ 32 := by omega
    rw [hyes, hnext]
    refine ⟨?_, hmost, ?_, hunstable, (fun hsome => by cases hsome),
      fun _ => ⟨?_, fun _ => ⟨hdue, ?_⟩, fun hzero => ?_⟩⟩
    · exact congrArg (· + 1) ha.restarts
    · -- a short life is counted as one
      have hshort := ha.short
      change (if g.age + 1 < wdUnstableTicks then g.short + 1 else 0) ≤ e.unstableNow s.wdTick
      split
      · rename_i hlt
        have hten : wdUnstableTicks = 10 := rfl
        rw [WdEntry.unstableNow, hlife, if_pos (by omega)]
        exact Nat.succ_le_succ hshort
      · exact Nat.zero_le _
    · exact congrArg (· + 1) hexits
    · change 0 + wdBackoffBase * 2 ^ e.restarts = wdBackoffBase * 2 ^ g.respawns
      rw [Nat.zero_add, ha.restarts, hexits]
    · have hpos : 0 < wdBackoffBase * 2 ^ e.restarts := Nat.mul_pos (by decide) (Nat.two_pow_pos _)
      exact absurd hzero hpos.ne'

/-- A task is due only when the delay has run down. -/
theorem due (h : Active n e g) (hdue : e.spawnDue = true) :
    e.task = none ∧ e.delayTicks = 0 ∧ g.exits = g.respawns + 1 ∧
      wdBackoffBase * 2 ^ g.respawns ≤ g.since := by
  have htask : e.task = none := by
    cases htask : e.task with
    | none => rfl
    | some t => cases (h.running (by rw [htask]; rfl)).2.1.symm.trans hdue
  obtain ⟨hexits, hwait, hover⟩ := h.waiting htask
  have hdelay : e.delayTicks = 0 := by
    by_contra hne
    cases (hwait (Nat.pos_of_ne_zero hne)).1.symm.trans hdue
  exact ⟨htask, hdelay, hexits, hover hdelay⟩

/-- **A check.** -/
theorem check (h : Policy n e g) (hn : n < 2 ^ 32) (t : Option (Fin maxTasks)) :
    Policy n (e.checked n t) (g.check (respawned e (e.checked n t))) := by
  by_cases hskip : (!e.active || !e.spawnDue) = true
  · have hsame : e.checked n t = e := if_pos hskip
    have hno : respawned e e = false := by
      rw [respawned]
      revert hskip
      cases e.active <;> cases e.spawnDue <;> simp
    rw [hsame, hno]
    exact h
  obtain ⟨hactive, hdue⟩ : e.active = true ∧ e.spawnDue = true := by
    revert hskip
    cases e.active <;> cases e.spawnDue <;> simp
  have ha := h.active hactive
  obtain ⟨htask, hdelay, hexits, hover⟩ := due ha hdue
  cases t with
  | none =>
    have hnext : e.checked n none = { e with spawnDue := true, task := none } := if_neg hskip
    have hno : respawned e (e.checked n none) = false := by
      rw [hnext, respawned]
      exact Bool.and_false _
    rw [hno, hnext]
    refine ⟨h.respawns, fun _ => ⟨ha.restarts, ha.most, ha.short, ha.unstable,
      (fun hsome => by cases hsome), fun _ => ⟨hexits, fun hpos => ?_, fun _ => hover⟩⟩⟩
    exact absurd hdelay hpos.ne'
  | some t =>
    have hnext : e.checked n (some t) =
        { e with spawnDue := false, task := some (.slot t), spawnTick := n } := if_neg hskip
    have hyes : respawned e (e.checked n (some t)) = true := by
      rw [hnext, respawned, hactive, hdue]
      rfl
    rw [hyes, hnext]
    have hmost : g.respawns + 1 ≤ wdMaxRestarts := hexits ▸ ha.restarts ▸ ha.most
    refine ⟨hmost, fun _ => ⟨ha.restarts, ha.most, ha.short, ha.unstable,
      fun _ => ⟨hexits, rfl, hdelay, hn, ?_⟩, (fun hnone => by cases hnone)⟩⟩
    change (n + 2 ^ 32 - n) % 2 ^ 32 = 0 % 2 ^ 32
    omega

theorem new {path : CStr} {tier : Tier} {t : TaskPtr} (hn : n < 2 ^ 32) :
    Policy n (.registered path tier (some t) n) (.new true) := by
  refine ⟨Nat.zero_le _, fun _ => ⟨rfl, Nat.zero_le _, Nat.zero_le _, Nat.zero_lt_succ _,
    fun _ => ⟨rfl, rfl, rfl, hn, ?_⟩, (fun hnone => by cases hnone)⟩⟩
  change (n + 2 ^ 32 - n) % 2 ^ 32 = 0 % 2 ^ 32
  omega

end Policy

/-! ## Whole runs -/

namespace WdRun

variable {st st' : WdRun}

/-- The policy holds of all entries that were registered with a task. -/
structure Ok (st : WdRun) : Prop where
  /-- `wd_tick` is a machine word -/
  wdTick : st.sched.wdTick < 2 ^ 32
  /-- each entry -/
  entry : ∀ (i : ℕ) e, st.sched.wdTable[i]? = some e → (st.life i).started = true →
    Policy st.sched.wdTick e (st.life i)

/-- An event that changes each entry and its life alike. -/
theorem Ok.entries (h : st.Ok) {s : Sched} {f : WdLife → WdEntry → WdEntry → WdLife}
    (hwdTick : s.wdTick < 2 ^ 32)
    (hentry : ∀ i : ℕ, ∃ F : WdEntry → WdEntry, s.wdTable[i]? = st.sched.wdTable[i]?.map F ∧
      ∀ e g, (f g e (F e)).started = g.started ∧
        (Policy st.sched.wdTick e g → Policy s.wdTick (F e) (f g e (F e)))) :
    (st.entries s f).Ok := by
  refine ⟨hwdTick, fun i e' he' hstarted => ?_⟩
  obtain ⟨F, htable, hF⟩ := hentry i
  have he' : s.wdTable[i]? = some e' := he'
  cases he : st.sched.wdTable[i]? with
  | none =>
    rw [he] at htable
    cases he'.symm.trans htable
  | some e =>
    rw [he] at htable
    obtain rfl : e' = F e := Option.some.inj (he'.symm.trans htable)
    have hlife : (st.entries s f).life i = f (st.life i) e (F e) := by
      simp only [WdRun.entries, he, he']
    rw [hlife] at hstarted ⊢
    exact (hF e _).2 (h.entry i e he ((hF e _).1 ▸ hstarted))

theorem Ok.tick (h : st.Ok) : st.tick.Ok := by
  obtain ⟨htick, hentry⟩ := st.sched.watchdogTick_table
  refine h.entries (by rw [htick]; omega) fun i => ?_
  obtain ⟨s', hs', htable⟩ := hentry i
  refine ⟨_, htable, fun e g => ⟨by unfold WdLife.tick; split <;> rfl, fun hp => ?_⟩⟩
  rw [htick, ← hs']
  exact hp.tick h.wdTick hs'

theorem Ok.check (h : st.Ok) (fields : ℕ → Option Task) : (st.check fields).Ok := by
  obtain ⟨htick, hentry⟩ := st.sched.watchdogCheck_table fields
  refine h.entries (by rw [htick]; exact h.wdTick) fun i => ?_
  obtain ⟨t, htable⟩ := hentry i
  refine ⟨_, htable, fun e g => ⟨by unfold WdLife.check; split <;> rfl, fun hp => ?_⟩⟩
  rw [htick]
  exact hp.check h.wdTick t

theorem Ok.register (h : st.Ok) (path : CStr) (tier : Tier) (t : Option TaskPtr) :
    (st.register path tier t).Ok := by
  simp only [WdRun.register, watchdogRegister]
  split
  · refine ⟨h.wdTick, fun i e he hstarted => ?_⟩
    have hlt : i < st.sched.wdTable.length := (List.getElem?_eq_some_iff.mp he).1
    simp only [update_of_ne hlt.ne] at hstarted ⊢
    exact h.entry i e he hstarted
  · have hnew : ∀ s : Sched, s.wdTick = st.sched.wdTick →
        s.wdTable = st.sched.wdTable ++ [.registered path tier t st.sched.wdTick] →
        Ok ⟨s, update st.life st.sched.wdTable.length (.new t.isSome)⟩ := by
      intro s htick htable
      refine ⟨htick ▸ h.wdTick, fun i e he hstarted => ?_⟩
      simp only [htick]
      rw [htable] at he
      by_cases hlt : i < st.sched.wdTable.length
      · rw [List.getElem?_append_left hlt] at he
        simp only [update_of_ne hlt.ne] at hstarted ⊢
        exact h.entry i e he hstarted
      · have hi : i = st.sched.wdTable.length := by
          have := (List.getElem?_eq_some_iff.mp he).1
          rw [length_append, length_singleton] at this
          omega
        rw [hi, List.getElem?_concat_length] at he
        cases he
        simp only [hi, update_self] at hstarted ⊢
        cases t with
        | none => cases hstarted
        | some t => exact Policy.new h.wdTick
    cases t with
    | none => exact hnew _ rfl rfl
    | some t => exact hnew _ rfl rfl

theorem Ok.step (h : st.Ok) {e : WdEvent} (hallowed : wdSystem.allowed st e) :
    Post (wdSystem.step st e) Ok := by
  cases e with
  | tick => exact .some h.tick
  | check fields => exact .some (h.check fields)
  | register path tier t => exact .some (h.register path tier t)
  | other s =>
    obtain ⟨htable, htick⟩ := hallowed
    refine .some ⟨htick ▸ h.wdTick, fun i e he hstarted => ?_⟩
    simp only [htick]
    exact h.entry i e (htable ▸ he) hstarted

theorem ok_of_reachable (h : wdSystem.Reachable st) : st.Ok := by
  refine h.invariant ?_ fun st e st' hok hallowed hstep => hok.step hallowed st' hstep
  rintro st ⟨pageDirectory, hsched⟩
  refine ⟨?_, fun i e he => ?_⟩
  · rw [hsched]
    exact Nat.two_pow_pos 32
  · rw [hsched] at he
    cases he

/-- **An entry that is given up stays so**, and no task is spawned for it. -/
theorem given_up_step {i : ℕ} {e : WdEntry} (he : st.sched.wdTable[i]? = some e)
    (hactive : e.active = false) {ev : WdEvent} (hallowed : wdSystem.allowed st ev)
    (hstep : wdSystem.step st ev = some st') :
    ∃ e', st'.sched.wdTable[i]? = some e' ∧ e'.active = false ∧
      (st'.life i).respawns = (st.life i).respawns := by
  cases ev with
  | tick =>
    cases hstep
    obtain ⟨-, hentry⟩ := st.sched.watchdogTick_table
    obtain ⟨s', -, htable⟩ := hentry i
    have hsame : (s'.wdEntryTick e).1 = e := by
      simp only [wdEntryTick, hactive, Bool.not_false, if_true]
    rw [he, Option.map_some, hsame] at htable
    refine ⟨e, htable, hactive, ?_⟩
    simp only [WdRun.tick, WdRun.entries, he, htable, WdLife.tick]
    split <;> rfl
  | check fields =>
    cases hstep
    obtain ⟨-, hentry⟩ := st.sched.watchdogCheck_table fields
    obtain ⟨t, htable⟩ := hentry i
    have hsame : e.checked st.sched.wdTick t = e := by
      simp only [WdEntry.checked, hactive, Bool.not_false, Bool.true_or, if_true]
    rw [he, Option.map_some, hsame] at htable
    refine ⟨e, htable, hactive, ?_⟩
    simp only [WdRun.check, WdRun.entries, he, htable, respawned, hactive, Bool.false_and,
      WdLife.check, Bool.false_eq_true, if_false]
  | register path tier t =>
    cases hstep
    have hlt : i < st.sched.wdTable.length := (List.getElem?_eq_some_iff.mp he).1
    have hold : (st.sched.watchdogRegister path tier t).2.wdTable[i]? = some e := by
      simp only [watchdogRegister]
      split
      · exact he
      · cases t <;> exact (List.getElem?_append_left hlt).trans he
    refine ⟨e, hold, hactive, ?_⟩
    simp only [WdRun.register, update_of_ne hlt.ne]
  | other s =>
    cases hstep
    exact ⟨e, hallowed.1 ▸ he, hactive, rfl⟩

theorem given_up_run {i : ℕ} (es : List WdEvent) :
    ∀ {st st' : WdRun} {e : WdEntry}, st.sched.wdTable[i]? = some e → e.active = false →
      wdSystem.AllowedRun st es → wdSystem.run st es = some st' →
      ∃ e', st'.sched.wdTable[i]? = some e' ∧ e'.active = false ∧
        (st'.life i).respawns = (st.life i).respawns := by
  induction es with
  | nil =>
    intro st st' e he hactive _ hrun
    cases hrun
    exact ⟨e, he, hactive, rfl⟩
  | cons ev es ih =>
    intro st st' e he hactive hallowed hrun
    obtain ⟨st1, hstep, hrun⟩ := Option.bind_eq_some_iff.mp hrun
    obtain ⟨e1, he1, hactive1, hsame⟩ := given_up_step he hactive hallowed.1 hstep
    obtain ⟨e', he', hactive', hsame'⟩ := ih he1 hactive1 (hallowed.2 st1 hstep) hrun
    exact ⟨e', he', hactive', hsame'.trans hsame⟩

end WdRun

/-- **The restart policy.** For an entry that was registered with a task, in every run:
`watchdog_check` respawns it at most five times; the `k`-th respawn follows the `k`-th exit that
a tick has noticed, after at least `5 * 2 ^ (k - 1)` further ticks; three lives of less than ten
ticks in a row deactivate it; and once it is inactive it is never respawned. -/
theorem restart_policy {st : WdRun} (h : wdSystem.Reachable st) {i : ℕ} {e : WdEntry}
    (he : st.sched.wdTable[i]? = some e) (hstarted : (st.life i).started = true) :
    (st.life i).respawns ≤ 5 ∧
    (∀ fields, ((st.check fields).life i).respawns ≠ (st.life i).respawns →
      ∃ k, ((st.check fields).life i).respawns = k ∧ (st.life i).exits = k ∧
        5 * 2 ^ (k - 1) ≤ (st.life i).since) ∧
    (3 ≤ (st.life i).short → e.active = false) ∧
    (e.active = false → ∀ es st', wdSystem.AllowedRun st es → wdSystem.run st es = some st' →
      (st'.life i).respawns = (st.life i).respawns) := by
  have hpolicy := (WdRun.ok_of_reachable h).entry i e he hstarted
  refine ⟨hpolicy.respawns, fun fields hne => ?_, fun hshort => ?_,
    fun hactive es st' ha hrun => ?_⟩
  · obtain ⟨-, hentry⟩ := st.sched.watchdogCheck_table fields
    obtain ⟨t, htable⟩ := hentry i
    rw [he, Option.map_some] at htable
    have hlife : (st.check fields).life i =
        (st.life i).check (respawned e (e.checked st.sched.wdTick t)) := by
      simp only [WdRun.check, WdRun.entries, he, htable]
    have hspawned : respawned e (e.checked st.sched.wdTick t) = true := by
      by_contra hno
      rw [hlife, Bool.eq_false_iff.mpr hno] at hne
      exact hne rfl
    obtain ⟨hactive, hdue⟩ : e.active = true ∧ e.spawnDue = true := by
      rw [respawned, Bool.and_eq_true, Bool.and_eq_true] at hspawned
      exact hspawned.1
    obtain ⟨-, -, hexits, hover⟩ := Policy.due (hpolicy.active hactive) hdue
    refine ⟨(st.life i).respawns + 1, ?_, hexits, hover⟩
    rw [hlife, hspawned]
    rfl
  · by_contra hactive
    have ha := hpolicy.active (Bool.eq_true_of_not_eq_false hactive)
    have := ha.short
    have hunstable := ha.unstable
    have hlimit : wdUnstableLimit = 3 := rfl
    omega
  · obtain ⟨e', -, -, hsame⟩ := WdRun.given_up_run es he hactive ha hrun
    exact hsame

/-- A task is registered. -/
def registeredTask : WdRun :=
  WdRun.register ⟨.taskInit 0, fun _ => .new false⟩ [] .system (some (.slot 0))

/-- It has ended, and six ticks have passed. -/
def firstExit : WdRun :=
  let st : WdRun :=
    { registeredTask with sched := registeredTask.sched.setState (.slot 0) .exited }
  st.tick.tick.tick.tick.tick.tick

theorem reachable_firstExit : wdSystem.Reachable firstExit := by
  have hinit : wdSystem.Reachable ⟨.taskInit 0, fun _ => .new false⟩ := .init ⟨0, rfl⟩
  have hregister : wdSystem.Reachable registeredTask :=
    hinit.step (e := WdEvent.register [] .system (some (.slot 0))) trivial rfl
  have hexit := hregister.step
    (e := WdEvent.other (registeredTask.sched.setState (.slot 0) .exited)) ⟨rfl, rfl⟩ rfl
  have htick : ∀ {st : WdRun}, wdSystem.Reachable st → wdSystem.Reachable st.tick := fun hst =>
    hst.step (e := WdEvent.tick) trivial rfl
  exact htick (htick (htick (htick (htick (htick hexit)))))

/-- The first tick notices the exit, the others are the delay, and a check spawns a task. -/
theorem restart_policy_firstExit :
    ((firstExit.check fun _ => some Task.zero).life 0).respawns = 1 ∧
      (firstExit.life 0).exits = 1 ∧ 5 ≤ (firstExit.life 0).since := by
  obtain ⟨e, he⟩ : ∃ e, firstExit.sched.wdTable[0]? = some e :=
    Option.isSome_iff_exists.mp (by decide +kernel)
  have hspawned : ((firstExit.check fun _ => some Task.zero).life 0).respawns = 1 := by
    decide +kernel
  have hbefore : (firstExit.life 0).respawns = 0 := by decide +kernel
  obtain ⟨k, hk, hexits, hsince⟩ :=
    (restart_policy reachable_firstExit he (by decide +kernel)).2.1 (fun _ => some Task.zero)
      (by rw [hspawned, hbefore]; decide)
  rw [hspawned] at hk
  subst hk
  exact ⟨hspawned, hexits, hsince⟩

end PokuOS

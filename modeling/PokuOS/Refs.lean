import PokuOS.Enduring

/-!
# References into the process table

Three owners free slots: the parent in `sys_wait`, the watchdog, and the idle loop for the rest
(`task_reap_orphans`); `sys_fork` frees a slot it could not fill. Slots are used again at once, so
the pointers that are left must not point to them: `parent` fields, and the entries of the
watchdog's table.

A task that the watchdog manages belongs to it alone as long as it has no parent and no other
entry. Nothing checks that in `watchdog_register`, and `sys_wait` does not look at `wd_managed`,
so registering a child leaves a stale pointer (`references_stale`).
-/

namespace PokuOS

open List

namespace Sched

/-! ## Valid references -/

/-- Every parent is in use and has not ended. -/
def ParentsOk (s : Sched) : Prop :=
  ∀ t p, (s.task t).inUse = true → (s.task t).parent = some p →
    p ≠ .idle ∧ (s.task p).inUse = true ∧ (s.task p).state ≠ .exited

/-- The task of every active entry is in use and managed. -/
def EntriesOk (s : Sched) : Prop :=
  ∀ e ∈ s.wdTable, e.active = true → ∀ t, e.task = some t →
    t ≠ .idle ∧ (s.task t).inUse = true ∧ (s.task t).wdManaged = true

/-- No slot was freed in between but that of a task which had ended. -/
def FreesEnded (s s' : Sched) : Prop :=
  ∀ t, (s.task t).inUse = true → (s.task t).state ≠ .exited →
    (s'.task t).inUse = true ∧ (s'.task t).pid = (s.task t).pid

end Sched

/-- The task belongs to the watchdog. -/
structure Task.Owned (task : Task) : Prop where
  inUse : task.inUse = true
  /-- `wd_managed` -/
  managed : task.wdManaged = true
  /-- no parent waits for it -/
  parent : task.parent = none

/-- Two entries do not share a task. -/
def WdEntry.Apart (e e' : WdEntry) : Prop :=
  e.active = true → e'.active = true → ∀ t, e.task = some t → e'.task ≠ some t

/-- **The references of the tasks and of the entries `es`.** -/
structure RefsOn (s : Sched) (es : List WdEntry) : Prop where
  /-- parents -/
  parent : ∀ t p, (s.task t).inUse = true → (s.task t).parent = some p →
    (s.task p).inUse = true ∧ (s.task p).state ≠ .exited
  /-- entries -/
  entry : ∀ e ∈ es, e.active = true → ∀ t, e.task = some t → (s.task t).Owned
  /-- each entry has its own task -/
  apart : es.Pairwise WdEntry.Apart
  /-- the idle task is not in the table -/
  idle : (s.task .idle).inUse = false

/-- The references of a state. -/
abbrev RefsOk (s : Sched) : Prop := RefsOn s s.wdTable

theorem Held.owned {a b : Task} (h : Held a b) (ha : a.Owned) : b.Owned :=
  ⟨h.inUse.trans ha.inUse, h.managed ha.managed, h.parent.trans ha.parent⟩

variable {i : Fin maxTasks} {e : WdEntry} {done : List WdEntry}

namespace RefsOn

variable {s s' : Sched} {es es' : List WdEntry}

variable (h : RefsOn s es)
include h

theorem parent_ne_idle {p : TaskPtr} (hp : (s.task p).inUse = true) : p ≠ .idle := by
  rintro rfl
  cases h.idle.symm.trans hp

theorem held (hs : ∀ t, Held (s.task t) (s'.task t)) : RefsOn s' es := by
  refine ⟨fun t p huse hp => ?_, fun e he hactive t ht => (hs t).owned (h.entry e he hactive t ht),
    h.apart, (hs .idle).inUse.trans h.idle⟩
  obtain ⟨hpuse, hpstate⟩ := h.parent t p ((hs t).inUse ▸ huse) ((hs t).parent ▸ hp)
  exact ⟨(hs p).inUse.trans hpuse, fun hexited => hpstate ((hs p).exited hexited)⟩

/-- **A slot is freed** that is nobody's parent and in no entry. -/
theorem free (hended : (s.task (.slot i)).inUse = true → (s.task (.slot i)).state = .exited)
    (hentry : ∀ e ∈ es, e.active = true → e.task ≠ some (.slot i)) :
    RefsOn (s.freeTaskSlot (.slot i)) es := by
  have htask := s.task_freeTaskSlot i
  refine ⟨fun t p huse hp => ?_, fun e he hactive t ht => ?_, h.apart, ?_⟩
  · rw [htask] at huse hp
    split at huse
    · cases huse
    · rename_i hne
      rw [if_neg hne] at hp
      obtain ⟨hpuse, hpstate⟩ := h.parent t p huse hp
      have hpi : p ≠ .slot i := by
        rintro rfl
        exact hpstate (hended hpuse)
      rw [htask, if_neg hpi]
      exact ⟨hpuse, hpstate⟩
  · have hti : t ≠ .slot i := by
      rintro rfl
      exact hentry e he hactive ht
    rw [htask, if_neg hti]
    exact h.entry e he hactive t ht
  · rw [htask, if_neg nofun]
    exact h.idle

theorem notin_of_free (hfree : (s.task (.slot i)).inUse = false) :
    ∀ e ∈ es, e.active = true → e.task ≠ some (.slot i) := by
  intro e he hactive ht
  cases hfree.symm.trans (h.entry e he hactive _ ht).inUse

/-- **A task is created** whose parent, if it has one, is in use and has not ended. -/
theorem create (hnew : s.NewSlot s' i) {f : Task → Task}
    (hparent : ∀ p, (f (s'.task (.slot i))).parent = some p →
      (s.task p).inUse = true ∧ (s.task p).state ≠ .exited) :
    RefsOn (s'.modify (.slot i) f) es := by
  have htask : ∀ {t}, t ≠ .slot i → (s'.modify (.slot i) f).task t = s.task t := fun ht => by
    rw [Sched.task_modify, if_neg ht, hnew.others _ ht]
  -- a free slot is nobody's parent
  have hother : ∀ {p}, (s.task p).inUse = true → p ≠ .slot i := by
    rintro p hp rfl
    cases hnew.free.symm.trans hp
  refine ⟨fun t p huse hp => ?_, fun e he hactive t ht => ?_, h.apart, ?_⟩
  · by_cases ht : t = .slot i
    · subst ht
      rw [Sched.task_modify, if_pos rfl] at hp
      obtain ⟨hpuse, hpstate⟩ := hparent p hp
      rw [htask (hother hpuse)]
      exact ⟨hpuse, hpstate⟩
    · rw [htask ht] at huse hp
      obtain ⟨hpuse, hpstate⟩ := h.parent t p huse hp
      rw [htask (hother hpuse)]
      exact ⟨hpuse, hpstate⟩
  · have howned := h.entry e he hactive t ht
    rw [htask (hother howned.inUse)]
    exact howned
  · rw [htask (t := .idle) (fun hc => nomatch hc)]
    exact h.idle

theorem sublist (hsub : es'.Sublist es) : RefsOn s es' :=
  ⟨h.parent, fun e he => h.entry e (hsub.subset he), h.apart.sublist hsub, h.idle⟩

omit h in
/-- An entry is put in, for a task that belongs to no other. -/
theorem insert (h : RefsOn s (done ++ es))
    (hnew : ∀ t, e.active = true → e.task = some t → (s.task t).Owned ∧
      ∀ x ∈ done ++ es, x.active = true → x.task ≠ some t) : RefsOn s (done ++ e :: es) := by
  obtain ⟨hdone, hes, hacross⟩ := pairwise_append.mp h.apart
  refine ⟨h.parent, fun x hx hactive t ht => ?_, ?_, h.idle⟩
  · rcases mem_append.mp hx with hx | hx
    · exact h.entry x (mem_append_left _ hx) hactive t ht
    · rcases mem_cons.mp hx with rfl | hx
      · exact (hnew t hactive ht).1
      · exact h.entry x (mem_append_right _ hx) hactive t ht
  · refine pairwise_append.mpr ⟨hdone, pairwise_cons.mpr ⟨?_, hes⟩, ?_⟩
    · intro x hx hactive hxactive t ht
      exact (hnew t hactive ht).2 x (mem_append_right _ hx) hxactive
    · intro x hx y hy hxactive hactive t hxt hyt
      rcases mem_cons.mp hy with rfl | hy
      · exact (hnew t hactive hyt).2 x (mem_append_left _ hx) hxactive hxt
      · exact hacross x hx y hy hxactive hactive t hxt hyt

theorem push (hnew : ∀ t, e.active = true → e.task = some t → (s.task t).Owned ∧
      ∀ x ∈ es, x.active = true → x.task ≠ some t) : RefsOn s (es ++ [e]) := by
  rw [← append_nil es] at h hnew
  exact h.insert hnew

omit h in
/-- The other entries do not have an entry's task. -/
theorem others (h : RefsOn s (done ++ e :: es)) {t : TaskPtr} (hactive : e.active = true)
    (ht : e.task = some t) : ∀ x ∈ done ++ es, x.active = true → x.task ≠ some t := by
  obtain ⟨-, hrest, hacross⟩ := pairwise_append.mp h.apart
  obtain ⟨hhead, -⟩ := pairwise_cons.mp hrest
  intro x hx hxactive hxt
  rcases mem_append.mp hx with hx | hx
  · exact hacross x hx e mem_cons_self hxactive hactive _ hxt ht
  · exact hhead x hx hactive hxactive _ ht hxt

omit h in
theorem remove (h : RefsOn s (done ++ e :: es)) : RefsOn s (done ++ es) :=
  h.sublist ((sublist_cons_self e es).append_left done)

omit h in
/-- An entry is replaced by one with the same task, or none. -/
theorem replace {e' : WdEntry} (h : RefsOn s (done ++ e :: es))
    (hkept : ∀ t, e'.active = true → e'.task = some t → e.active = true ∧ e.task = some t) :
    RefsOn s (done ++ e' :: es) := by
  refine h.remove.insert fun t hactive ht => ?_
  obtain ⟨hactive, ht⟩ := hkept t hactive ht
  exact ⟨h.entry e (mem_append_right _ mem_cons_self) hactive t ht, h.others hactive ht⟩

/-- An entry is changed: it keeps its task, has none, or gets one that belongs to no other. -/
theorem modifyAt (i : ℕ) {f : WdEntry → WdEntry}
    (hf : ∀ e t, (f e).active = true → (f e).task = some t →
      e.active = true ∧ e.task = some t ∨
        (s.task t).Owned ∧ ∀ x ∈ es, x.active = true → x.task ≠ some t) :
    RefsOn s (es.modify i f) := by
  by_cases hi : i < es.length
  · have hsplit : es = es.take i ++ es[i] :: es.drop (i + 1) := by
      have hid := modify_eq_take_cons_drop (f := id) hi
      rw [modify_id] at hid
      exact hid
    have hrefs : RefsOn s (es.take i ++ es[i] :: es.drop (i + 1)) := hsplit ▸ h
    rw [modify_eq_take_cons_drop hi]
    refine hrefs.remove.insert fun t hactive ht => ?_
    rcases hf _ t hactive ht with ⟨hactive, ht⟩ | ⟨howned, hnone⟩
    · exact ⟨h.entry _ (getElem_mem hi) hactive t ht, hrefs.others hactive ht⟩
    · refine ⟨howned, fun x hx => hnone x ?_⟩
      rw [hsplit]
      exact ((sublist_cons_self _ _).append_left _).subset hx
  · rw [modify_eq_self (Nat.le_of_not_lt hi)]
    exact h

end RefsOn

namespace Sched

variable {s s' : Sched}

/-! ## The watchdog's turn -/

/-- One round of `watchdog_tick`: the entry keeps its task, or its ended task is freed. -/
theorem wdEntryTick_entry (s : Sched) (e : WdEntry) :
    (s.wdEntryTick e).2 = s ∧
        (∀ t, (s.wdEntryTick e).1.active = true → (s.wdEntryTick e).1.task = some t →
          e.active = true ∧ e.task = some t) ∨
      ∃ t, e.active = true ∧ e.task = some t ∧ (s.task t).state = .exited ∧
        (s.wdEntryTick e).2 = s.freeTaskSlot t ∧ (s.wdEntryTick e).1.task = none := by
  unfold wdEntryTick
  split
  · exact .inl ⟨rfl, fun _ h h' => ⟨h, h'⟩⟩
  rename_i hactive
  have hactive : e.active = true := by simpa using hactive
  split
  · exact .inl ⟨rfl, fun _ h h' => ⟨h, h'⟩⟩
  rename_i hstate
  split
  · exact .inl ⟨rfl, fun _ h h' => ⟨h, h'⟩⟩
  cases htask : e.task with
  | none => exact .inl ⟨rfl, fun _ _ h => nomatch h⟩
  | some t =>
    refine .inr ⟨t, hactive, rfl, by simpa [htask] using hstate, ?_⟩
    simp only
    split_ifs <;> exact ⟨rfl, rfl⟩

theorem refs_wdEntryTick {es : List WdEntry} (h : RefsOn s (done ++ e :: es)) :
    RefsOn (s.wdEntryTick e).2 (done ++ (s.wdEntryTick e).1 :: es) := by
  rcases s.wdEntryTick_entry e with ⟨hsame, hkept⟩ | ⟨t, hactive, ht, hexited, hfree, hnone⟩
  · rw [hsame]
    exact h.replace hkept
  · have howned := h.entry e (mem_append_right _ mem_cons_self) hactive t ht
    cases t with
    | idle => exact absurd rfl (h.parent_ne_idle howned.inUse)
    | slot i =>
      rw [hfree]
      exact (h.remove.free (fun _ => hexited) (h.others hactive ht)).insert
        fun t _ ht => nomatch hnone.symm.trans ht

theorem refs_wdTickAll (es : List WdEntry) : ∀ {s : Sched} {done : List WdEntry},
    RefsOn s (done ++ es) → RefsOn (s.wdTickAll es).2 (done ++ (s.wdTickAll es).1) := by
  induction es with
  | nil => exact fun h => h
  | cons e es ih =>
    intro s done h
    have hstep := refs_wdEntryTick h
    rw [append_cons] at hstep
    simpa [wdTickAll] using ih hstep

theorem refs_watchdogTick (h : RefsOk s) : RefsOk s.watchdogTick := by
  have hcount : RefsOn { s with wdTick := (s.wdTick + 1) % 2 ^ 32 } ([] ++ s.wdTable) :=
    ⟨h.parent, h.entry, h.apart, h.idle⟩
  have hall := refs_wdTickAll s.wdTable hcount
  exact ⟨hall.parent, hall.entry, hall.apart, hall.idle⟩

/-! ## The end of a task -/

/-- **`task_exit`** leaves no reference to the task that ends. -/
theorem refs_exitCurrent (h : RefsOk s) (code : ℤ) : Post (s.exitCurrent code) RefsOk := by
  refine (exits_exitCurrent s code).mono ?_
  rintro s' ⟨htable, -, hexits⟩
  unfold RefsOk
  rw [htable]
  refine ⟨fun c p huse hp => ?_, fun e he hactive c hc => ?_, h.apart, ?_⟩
  · rw [(hexits c).inUse] at huse
    rw [(hexits c).parent] at hp
    split at hp
    · cases hp
    rename_i hchild
    have hpt : p ≠ s.currentTask := by
      rintro rfl
      exact hchild ⟨h.parent_ne_idle huse, huse, hp⟩
    obtain ⟨hpuse, hpstate⟩ := h.parent c p huse hp
    refine ⟨(hexits p).inUse.trans hpuse, fun hexited => ?_⟩
    exact ((hexits p).exited.mp hexited).elim hpt hpstate
  · have howned := h.entry e he hactive c hc
    refine ⟨(hexits c).inUse.trans howned.inUse, (hexits c).managed.trans howned.managed, ?_⟩
    rcases (hexits c).parent_cases with hsame | ⟨-, hnone⟩
    · exact hsame.trans howned.parent
    · exact hnone
  · exact (hexits .idle).inUse.trans h.idle

end Sched

open Sched

variable {s s' : Sched}

theorem RefsOk.create (h : RefsOk s) {s1 : Sched} (hslot : s.createTaskSlot = (some i, s1))
    {f : Task → Task} (hparent : ∀ p, (f (s1.task (.slot i))).parent = some p →
      (s.task p).inUse = true ∧ (s.task p).state ≠ .exited) : RefsOk (s1.modify (.slot i) f) := by
  have htable : s1.wdTable = s.wdTable := wdTable_of_createTaskSlot hslot
  change RefsOn _ s1.wdTable
  rw [htable]
  exact RefsOn.create h (newSlot_of_createTaskSlot hslot) hparent

/-- **Every function keeps the references valid.** -/
theorem lasting_refs : Lasting Held RefsOk RefsOk RefsOk where
  allows := lenient_held.toHandling
  held hs h := by
    unfold RefsOk
    rw [hs.wdTable]
    exact h.held hs.task
  enter h := h
  leave h := h
  schedule s h := (via_schedule charging_held.toScheduling s).mono fun _ hv => by
    unfold RefsOk
    rw [hv.wdTable]
    exact h.held hv.task
  watchdogTick _ h := refs_watchdogTick h
  reapChild s i hended h := h.free (fun _ => hended.exited) fun e he hactive ht =>
    nomatch hended.parent.symm.trans (h.entry e he hactive _ ht).parent
  giveUp s s1 i f hslot h := by
    rw [freeTaskSlot_modify]
    exact h.create hslot nofun

theorem Sched.FreesEnded.via {s0 : Sched} (h : FreesEnded s0 s)
    (hv : Via (fun a b => b.profile = a.profile) s s') : FreesEnded s0 s' :=
  fun t huse hstate => ⟨(congrArg Profile.inUse (hv.task t)).trans (h t huse hstate).1,
    (congrArg Profile.pid (hv.task t)).trans (h t huse hstate).2⟩

/-- **Only the slots of ended tasks are freed**, whatever happens. -/
theorem enduring_frees (s0 : Sched) :
    Enduring Held (FreesEnded s0) (Going none s0) (FreesEnded s0) where
  allows := lenient_held
  held := (enduring_going none s0).held
  enter h t huse hstate := ⟨(h t nofun huse hstate).1, (h t nofun huse hstate).2.1⟩
  leave h t huse hstate := ⟨(h t nofun huse hstate).1, (h t nofun huse hstate).2.1⟩
  schedule s h := (via_schedule leveling_profile.toScheduling s).mono fun _ => h.via
  free := (enduring_going none s0).free
  create := (enduring_going none s0).create

/-! ## The watchdog's entries -/

/-- What `watchdog_register` may be called with: no task, or one in use that has no parent and
no entry. -/
def Sched.MayRegister (s : Sched) : Option (Fin maxTasks) → Prop
  | none => True
  | some i => (s.task (.slot i)).inUse = true ∧ (s.task (.slot i)).parent = none ∧
      ∀ e ∈ s.wdTable, e.active = true → e.task ≠ some (.slot i)

/-- The table of entries changes, no task does. -/
theorem RefsOk.setTable {es : List WdEntry} (hes : RefsOn s es) :
    RefsOk { s with wdTable := es } :=
  hes.held fun _ => charging_held.refl _

theorem RefsOk.manage (h : RefsOk s) (t : TaskPtr) :
    RefsOk (s.modify t fun task => { task with wdManaged := true }) :=
  lasting_refs.modify h t (lenient_held.managed _)

theorem RefsOk.watchdogRegister (h : RefsOk s) (path : CStr) (tier : Tier)
    {i : Option (Fin maxTasks)} (hmay : s.MayRegister i) :
    RefsOk (s.watchdogRegister path tier (i.map .slot)).2 := by
  unfold Sched.watchdogRegister
  split
  · exact h
  · cases i with
    | none => exact .setTable (h.push nofun)
    | some i =>
      obtain ⟨huse, hparent, hnone⟩ := hmay
      refine .setTable ((h.manage (.slot i)).push fun t _ ht => ?_)
      cases ht
      rw [task_modify, if_pos rfl]
      exact ⟨⟨huse, rfl, hparent⟩, hnone⟩

/-- A task in slot `i` was just started: it has no parent and no entry. -/
structure Started (i : Fin maxTasks) (s : Sched) : Prop where
  /-- references -/
  refs : RefsOk s
  /-- it is in use -/
  inUse : (s.task (.slot i)).inUse = true
  /-- it has no parent -/
  parent : (s.task (.slot i)).parent = none
  /-- and no entry -/
  unlisted : ∀ e ∈ s.wdTable, e.active = true → e.task ≠ some (.slot i)

theorem Started.held (h : Started i s) (hs : ∀ t, Held (s.task t) (s'.task t))
    (htable : s'.wdTable = s.wdTable) : Started i s' := by
  refine ⟨?_, (hs _).inUse.trans h.inUse, (hs _).parent.trans h.parent, htable ▸ h.unlisted⟩
  unfold RefsOk
  rw [htable]
  exact h.refs.held hs

theorem relinking_started (i : Fin maxTasks) :
    Relinking fun s s' => Started i s → Started i s' where
  trans h h' hs := h' (h hs)
  body hbody h :=
    h.held (Via.of_body charging_held.toQueueing hbody).task (congrArg Sched.wdTable hbody :)

/-- `watchdog_check` stores what `spawn_user_process` has returned. -/
theorem Started.store (h : Started i s) (n : ℕ) : RefsOk (CheckState.store s n (some i)) := by
  refine .setTable ((h.refs.manage (.slot i)).modifyAt n fun e t _ ht => .inr ?_)
  cases ht
  rw [task_modify, if_pos rfl]
  exact ⟨⟨h.inUse, rfl, h.parent⟩, h.unlisted⟩

theorem RefsOk.taskReapOrphans (h : RefsOk s) : RefsOk s.taskReapOrphans := by
  unfold Sched.taskReapOrphans
  generalize finRange maxTasks = slots
  induction slots generalizing s with
  | nil => exact h
  | cons i slots ih =>
    refine ih ?_
    unfold reapOrphan
    simp only
    split
    · rename_i hreap
      obtain ⟨-, hexited, -, hmanaged⟩ := hreap
      exact h.free (fun _ => hexited) fun e he hactive ht =>
        hmanaged (h.entry e he hactive _ ht).managed
    · exact h

end PokuOS

import PokuOS.Inherit

/-!
# Priority inversion

A task that blocks raises the holder to its own tier if the holder's tier has the greater
number. The scheduler goes by queues, and there the numbers do not say who comes first: a
critical task is in the queue of system tasks, and user tasks are in one of three. `Ranked` is
what inheritance is for, no holder in a worse queue than a task that waits for it; a step keeps
it under a condition on tiers, levels and the owners of mutexes before the step,
`LockEvent.Ranks`.
-/

namespace PokuOS

open Function LockState Option Sched

/-! ## Tiers and levels -/

/-- The tick demotes the task, if it is charged for it. -/
abbrev Task.CountFull (a : Task) : Prop :=
  a.tier = .user ∧ mlfqDemoteTicks ≤ a.mlfqContTicks + 1 ∧ a.mlfqLevel < 2

/-- The task with its tier back. -/
def Task.atSavedTier (a : Task) : Task := { a with tier := a.savedTier }

/-- By tier, and among user tasks by level, the task is **not behind** the other. -/
def Task.NotBehind (a b : Task) : Prop :=
  tierToQueueIdx a.tier < tierToQueueIdx b.tier ∨ tierToQueueIdx a.tier = tierToQueueIdx b.tier ∧
    (a.tier = .user → clampLevel a.mlfqLevel ≤ clampLevel b.mlfqLevel)

instance (a b : Task) : Decidable (a.NotBehind b) :=
  inferInstanceAs (Decidable (_ ∨ _ ∧ (_ → _)))

/-- A task that is not a user task is not behind tasks whose tier has a greater number. -/
theorem Task.NotBehind.of_number_lt {a b : Task} (huser : a.tier ≠ .user)
    (hnumber : a.tier.number < b.tier.number) : a.NotBehind b := by
  have hle : tierToQueueIdx a.tier ≤ tierToQueueIdx b.tier := by
    revert huser hnumber
    cases a.tier <;> cases b.tier <;> decide
  exact (lt_or_eq_of_le hle).imp_right fun heq => ⟨heq, fun h => absurd h huser⟩

theorem val_taskQidx (a : Task) : (taskQidx a).val = (tierToQueueIdx a.tier).val +
    if a.tier = .user then (clampLevel a.mlfqLevel).val else 0 := by
  unfold taskQidx queueIdx
  cases a.tier <;> rfl

/-- The queues go by tier and level. -/
theorem Task.notBehind_iff (a b : Task) : a.NotBehind b ↔ taskQidx a ≤ taskQidx b := by
  have huser : (tierToQueueIdx .user).val = 2 := rfl
  have hother : ∀ {tier}, tier ≠ .user → (tierToQueueIdx tier).val < 2 := by
    intro tier h
    cases tier <;> first | decide | exact absurd rfl h
  rw [Fin.le_def, val_taskQidx, val_taskQidx, NotBehind, Fin.lt_def, Fin.ext_iff, Fin.le_def]
  by_cases ha : a.tier = .user
  · by_cases hb : b.tier = .user
    · simp [ha, hb]
    · have := hother hb
      simp only [ha, hb, if_true, if_false, true_implies]
      omega
  · have := hother ha
    by_cases hb : b.tier = .user
    · simp only [ha, hb, if_true, if_false]
      omega
    · simp only [ha, hb, if_false, false_implies, and_true]
      exact le_iff_lt_or_eq.symm

theorem clampLevel_val (l : Fin 3) : clampLevel l.val = l := by
  revert l
  decide

theorem clampLevel_mono {k l : ℤ} (h : k ≤ l) : clampLevel k ≤ clampLevel l := by
  unfold clampLevel
  split_ifs <;> simp [Fin.le_def] <;> omega

theorem taskQidx_mono {a b : Task} (htier : a.tier = b.tier)
    (hlevel : clampLevel a.mlfqLevel ≤ clampLevel b.mlfqLevel) : taskQidx a ≤ taskQidx b :=
  (Task.notBehind_iff a b).mp (.inr ⟨by rw [htier], fun _ => hlevel⟩)

/-- A task that is raised to a tier other than user is in the queue of that tier. -/
theorem taskQidx_boosted {a b : Task} (huser : b.tier ≠ .user) :
    taskQidx (boosted b.tier a) = taskQidx b := by
  unfold taskQidx boosted
  cases htier : b.tier <;> first | rfl | exact absurd htier huser

namespace LockState

variable {ι : Type}

/-- The index of the run queue of a task. -/
def qidx (st : LockState ι) (t : TaskPtr) : Fin nrQueues := taskQidx (st.sched.task t)

/-- **No holder of a mutex with inheritance is in a worse queue than a task that waits.** -/
def Ranked (st : LockState ι) : Prop :=
  ∀ m h w, (st.mutex m).inherit = true → (st.mutex m).holder = some h → st.BlockedIn m w →
    st.qidx h ≤ st.qidx w

/-- What `h` waits for is held by tasks that are not behind `a`. -/
abbrev HeldAhead (st : LockState ι) (h : TaskPtr) (a : Task) : Prop :=
  ∀ m h', (st.mutex m).inherit = true → (st.mutex m).holder = some h' → st.BlockedIn m h →
    h' ≠ h → (st.sched.task h').NotBehind a

/-- The current task may block. If it raises the holder, it is not a user task, and what the holder
waits for itself is not held behind the current task; if not, the holder is not behind it. -/
abbrev MayBlock (st : LockState ι) (m : ι) : Prop :=
  ∀ h, (st.mutex m).inherit = true → (st.mutex m).holder = some h →
    let me := st.sched.task st.sched.currentTask
    if me.tier.number < (st.sched.task h).tier.number then
      me.tier ≠ .user ∧ st.HeldAhead h me
    else (st.sched.task h).NotBehind me

/-- The current task may take the mutex: it is not behind the tasks that are blocked on it. -/
abbrev MayTake (st : LockState ι) (m : ι) : Prop :=
  ∀ w, (st.mutex m).inherit = true → st.BlockedIn m w →
    (st.sched.task st.sched.currentTask).NotBehind (st.sched.task w)

/-- The holder may get its tier back: with the saved tier it is not behind the tasks that are
blocked on its other mutexes, and what it waits for is not held behind it. -/
abbrev MayRestore (st : LockState ι) (m : ι) : Prop :=
  ∀ h, (st.mutex m).holder = some h → (st.sched.task h).inherited = true →
    (∀ m' w, m' ≠ m → (st.mutex m').inherit = true → (st.mutex m').holder = some h →
      st.BlockedIn m' w → w ≠ h → (st.sched.task h).atSavedTier.NotBehind (st.sched.task w)) ∧
      st.HeldAhead h (st.sched.task h).atSavedTier

/-- The timer may interrupt: blocked tasks are waiting, so that aging leaves their levels, and the
current task is not demoted if a task is blocked on a mutex it holds. -/
abbrev MayTick (st : LockState ι) : Prop :=
  ∀ m w, (st.mutex m).inherit = true → st.BlockedIn m w → (st.sched.task w).state = .waiting ∧
    ((st.mutex m).holder = some st.sched.currentTask →
      ¬(st.sched.task st.sched.currentTask).CountFull)

/-- One round of the loop of `mutex_lock`. -/
abbrev MayLock (st : LockState ι) (m : ι) : Prop :=
  if (st.mutex m).locked then st.MayBlock m else st.MayTake m

end LockState

/-- Tiers, levels and owners allow the step. -/
def LockEvent.Ranks {ι : Type} (st : LockState ι) : LockEvent ι → Prop
  | lock m => st.MayLock m
  | retest => match st.pc st.sched.currentTask with
    | .outside => True
    | .inLock m _ _ => st.MayLock m
  | trylock m => (st.mutex m).locked = false → st.MayTake m
  | unlock m => st.MayRestore m
  | tick => st.MayTick
  | yield | callSchedule | schedule | create _ => True

/-! ## What the events do to queues -/

/-- The fields that decide the queue are the same. -/
structure SameRank (a b : Task) : Prop where
  tier : b.tier = a.tier
  level : b.mlfqLevel = a.mlfqLevel
  inUse : b.inUse = a.inUse

theorem SameRank.qidx {a b : Task} (h : SameRank a b) : taskQidx b = taskQidx a := by
  unfold taskQidx
  rw [h.tier, h.level]

theorem inheriting_sameRank : Inheriting SameRank where
  refl _ := ⟨rfl, rfl, rfl⟩
  trans h h' := ⟨h'.tier.trans h.tier, h'.level.trans h.level, h'.inUse.trans h.inUse⟩
  links _ _ _ := ⟨rfl, rfl, rfl⟩
  ready _ := ⟨rfl, rfl, rfl⟩
  running _ := ⟨rfl, rfl, rfl⟩
  timeslice _ _ := ⟨rfl, rfl, rfl⟩
  waiting _ := ⟨rfl, rfl, rfl⟩

/-! ### Levels -/

/-- The level of a task gets worse only if `worse`, and better only if `better`. -/
structure Drifts (worse better : Prop) (a b : Task) : Prop where
  tier : b.tier = a.tier
  inUse : b.inUse = a.inUse
  /-- a task whose level does not get better keeps its state -/
  state : better ∨ b.state = a.state
  le : worse ∨ clampLevel b.mlfqLevel ≤ clampLevel a.mlfqLevel
  ge : better ∨ clampLevel a.mlfqLevel ≤ clampLevel b.mlfqLevel

namespace Sched

variable {worse better : TaskPtr → Prop} {s s0 : Sched}

/-- So it is for all tasks. -/
def Drifted (worse better : TaskPtr → Prop) (s0 s : Sched) : Prop :=
  ∀ t, Drifts (worse t) (better t) (s0.task t) (s.task t)

theorem Drifted.refl (s : Sched) : Drifted worse better s s :=
  fun _ => ⟨rfl, rfl, .inr rfl, .inr le_rfl, .inr le_rfl⟩

variable (h : Drifted worse better s0 s)
include h

theorem Drifted.modify {t : TaskPtr} {f : Task → Task}
    (hf : Drifts (worse t) (better t) (s0.task t) (f (s.task t))) :
    Drifted worse better s0 (s.modify t f) := by
  intro p
  rw [task_modify]
  split
  · rename_i hp
    rw [hp]
    exact hf
  · exact h p

theorem Drifted.setLevel {t : TaskPtr} {l : ℤ}
    (hle : worse t ∨ clampLevel l ≤ clampLevel (s.task t).mlfqLevel)
    (hge : better t ∨ clampLevel (s.task t).mlfqLevel ≤ clampLevel l) :
    Post (s.taskSetMlfqLevel t l) (Drifted worse better s0) := by
  refine (taskSetMlfqLevel_body s t l).mono fun s' hbody p => ?_
  obtain ⟨htier, huse, hstate, hle', hge'⟩ := h t
  have hset := h.modify (t := t) (f := fun task => { task with mlfqLevel := (clampLevel l).val })
    ⟨htier, huse, hstate, ?_, ?_⟩ p
  · have hset : Drifts (worse p) (better p) (s0.task p) (s'.task p).body := by
      rw [task_body_eq hbody p]
      exact { hset with }
    exact { hset with }
  · rw [clampLevel_val]
    exact hle.elim .inl fun hl => hle'.imp_right hl.trans
  · rw [clampLevel_val]
    exact hge.elim .inl fun hg => hge'.imp_right fun h => h.trans hg

theorem Drifted.demote (hfull : (s.task s.currentTask).CountFull → worse s.currentTask) :
    Post s.demote (Drifted worse better s0) := by
  have hcount : Drifted worse better s0 (s.modify s.currentTask fun task =>
      { task with mlfqContTicks := task.mlfqContTicks + 1 }) :=
    h.modify { h s.currentTask with }
  unfold Sched.demote
  simp only
  split
  · rename_i huser
    split
    · rename_i hcond
      simp only [task_modify, if_true] at hcond
      refine (hcount.setLevel (.inl (hfull ⟨huser.1, hcond⟩))
        (.inr (clampLevel_mono (by omega)))).bind fun s1 h1 => .some ?_
      exact h1.modify { h1 s.currentTask with }
    · exact .some hcount
  · exact .some h

theorem Drifted.ageTask (hbetter : ∀ t, better t ∨ (s0.task t).state = .waiting)
    (i : Fin maxTasks) : Post (s.ageTask i) (Drifted worse better s0) := by
  unfold Sched.ageTask
  simp only
  split
  · rename_i hages
    refine h.setLevel (.inr (clampLevel_mono (by omega))) (.inl ?_)
    refine (h (.slot i)).state.elim id fun hstate => (hbetter _).resolve_right fun hwaits => ?_
    rw [hstate, hwaits] at hages
    simp at hages
  · exact .some h

omit h in
/-- **The timer** demotes the current task if its count is full; aging leaves tasks that wait. -/
theorem drifted_pitHandler (hwd : s.wdTable = [])
    (hkill : (s.task s.currentTask).killPending = false) :
    Post s.pitHandler (Drifted (fun t => t = s.currentTask ∧ (s.task t).CountFull)
      (fun t => (s.task t).state ≠ .waiting) s) := by
  unfold pitHandler
  simp only [hkill, Bool.false_eq_true, if_false]
  set s1 := { s with tickCount := (s.tickCount + 1) % 2 ^ 32 }
  have hcharge : Drifted (fun t => t = s.currentTask ∧ (s.task t).CountFull)
      (fun t => (s.task t).state ≠ .waiting) s s1.chargeQuota := by
    refine Drifted.modify (.refl s) ?_
    split <;> exact ⟨rfl, rfl, .inr rfl, .inr le_rfl, .inr le_rfl⟩
  refine ((hcharge.demote ?_).and (via_demote waking_true _)).bind fun s2 h2 => ?_
  · intro hfull
    simp only [chargeQuota, task_modify] at hfull
    split_ifs at hfull <;> exact ⟨rfl, hfull⟩
  rw [periodic_eq]
  refine post_ageAndReset (fun s3 h3 => ?_) (fun s3 h3 t => ?_) ?_
  · exact Post.foldlM (fun _ i h => h.ageTask (fun _ => ne_or_eq _ _) i) _ h3
  · cases t with
    | idle => exact h3 .idle
    | slot i =>
      simp only [taskQuotaPeriodReset]
      split <;> exact { h3 (.slot i) with }
  · split
    · rw [watchdogTick_nil (h2.2.wdTable.trans hwd)]
      exact h2.1
    · exact h2.1

omit h in
/-- **`yield`** moves the current task, and not to a worse queue. -/
theorem drifted_yieldCurrent (s : Sched) :
    Post s.yieldCurrent (Drifted (fun _ => False) (· = s.currentTask) s) := by
  refine Post.bind (P := Drifted (fun _ => False) (· = s.currentTask) s) ?_ fun s1 h1 => .some ?_
  · split
    · have hcount : Drifted (fun _ => False) (· = s.currentTask) s (s.modify s.currentTask
          fun task => { task with mlfqContTicks := 0 }) :=
        (Drifted.refl s).modify ⟨rfl, rfl, .inr rfl, .inr le_rfl, .inr le_rfl⟩
      simp only
      split
      · exact hcount.setLevel (.inr (Fin.zero_le _)) (.inl rfl)
      · exact .some hcount
    · exact .some (.refl s)
  · exact h1.modify { h1 s.currentTask with state := .inl rfl }

end Sched

/-! ### Tiers -/

namespace LockState

variable {ι : Type} {st : LockState ι} {m : ι}

/-- A task when the current one has blocked. -/
def raised (st : LockState ι) (m : ι) (t : TaskPtr) : Task :=
  if (st.mutex m).holder = some t ∧ (st.mutex m).inherit ∧
      (st.sched.task st.sched.currentTask).tier.number < (st.sched.task t).tier.number then
    boosted (st.sched.task st.sched.currentTask).tier (st.sched.task t)
  else st.sched.task t

/-- A task when the holder has its tier back. -/
def lowered (st : LockState ι) (m : ι) (t : TaskPtr) : Task :=
  if (st.mutex m).holder = some t ∧ (st.sched.task t).inherited = true then
    restored (st.sched.task t)
  else st.sched.task t

theorem inUse_raised (t : TaskPtr) : (st.raised m t).inUse = (st.sched.task t).inUse := by
  unfold raised
  split <;> rfl

theorem inUse_lowered (t : TaskPtr) : (st.lowered m t).inUse = (st.sched.task t).inUse := by
  unfold lowered
  split <;> rfl

/-- The holder changes if a change is due, nobody else. -/
theorem rank_holder {s : Sched} {holder : Option TaskPtr} {due : TaskPtr → Prop}
    [DecidablePred due] {f : Task → Task} {change : TaskPtr → Option Sched}
    (hvia : ∀ t, Post (change t) (Via SameRank (s.modify t f))) :
    Post (match holder with
      | none => some s
      | some t => if due t then change t else some s) fun s' =>
      ∀ t, SameRank (if holder = some t ∧ due t then f (s.task t) else s.task t) (s'.task t) := by
  cases holder with
  | none =>
    refine .some fun t => ?_
    rw [if_neg fun h => nomatch h.1]
    exact inheriting_sameRank.refl _
  | some h =>
    by_cases hdue : due h
    · simp only [if_pos hdue]
      refine (hvia h).mono fun s' hv t => ?_
      have hsame := hv.task t
      by_cases ht : h = t
      · subst ht
        rw [task_modify, if_pos rfl] at hsame
        rwa [if_pos ⟨rfl, hdue⟩]
      · rw [task_modify, if_neg (Ne.symm ht)] at hsame
        rwa [if_neg fun hc => ht (some.inj hc.1)]
    · simp only [if_neg hdue]
      refine .some fun t => ?_
      rw [if_neg]
      · exact inheriting_sameRank.refl _
      · rintro ⟨⟨⟩, hc⟩
        exact hdue hc

theorem rank_inheritTier (st : LockState ι) (m : ι) :
    Post (st.inheritTier m) fun s => ∀ t, SameRank (st.raised m t) (s.task t) :=
  rank_holder fun t => via_boost inheriting_sameRank st.sched t _

theorem rank_restoreTier (st : LockState ι) (m : ι) :
    Post (st.restoreTier m) fun s => ∀ t, SameRank (st.lowered m t) (s.task t) :=
  rank_holder fun t => via_restore inheriting_sameRank st.sched t

/-- **A task that may block** leaves a task as it is, or raises it to its own queue. -/
theorem MayBlock.cases (hmay : st.MayBlock m) (t : TaskPtr) :
    st.raised m t = st.sched.task t ∧ ((st.mutex m).inherit = true →
      (st.mutex m).holder = some t → st.qidx t ≤ st.qidx st.sched.currentTask) ∨
    (st.mutex m).holder = some t ∧ taskQidx (st.raised m t) = st.qidx st.sched.currentTask ∧
      st.qidx st.sched.currentTask ≤ st.qidx t ∧
      st.HeldAhead t (st.sched.task st.sched.currentTask) := by
  unfold raised
  split
  · rename_i hraised
    obtain ⟨hholder, hinherit, hnumber⟩ := hraised
    have hmay := hmay t hinherit hholder
    rw [if_pos hnumber] at hmay
    exact .inr ⟨hholder, taskQidx_boosted hmay.1,
      (Task.notBehind_iff _ _).mp (.of_number_lt hmay.1 hnumber), hmay.2⟩
  · rename_i hraised
    refine .inl ⟨rfl, fun hinherit hholder => ?_⟩
    have hmay := hmay t hinherit hholder
    rw [if_neg fun hnumber => hraised ⟨hholder, hinherit, hnumber⟩] at hmay
    exact (Task.notBehind_iff _ _).mp hmay

/-- Blocking moves nobody to a worse queue. -/
theorem MayBlock.raised_le (hmay : st.MayBlock m) (t : TaskPtr) :
    taskQidx (st.raised m t) ≤ st.qidx t := by
  rcases hmay.cases t with ⟨hsame, -⟩ | ⟨-, hidx, hle, -⟩
  · rw [hsame, qidx]
  · rw [hidx]
    exact hle

end LockState

/-- The invariant, with what makes new tasks uninvolved. -/
structure RankInv {ι : Type} (st : LockState ι) : Prop where
  /-- the property -/
  ranked : st.Ranked
  /-- tasks in `mutex_lock` are in use -/
  inside : ∀ t, st.pc t ≠ .outside → (st.sched.task t).inUse = true
  /-- so are holders -/
  holder : ∀ m t, (st.mutex m).holder = some t → (st.sched.task t).inUse = true

namespace RankInv

variable {ι : Type} {st : LockState ι}

variable (h : RankInv st)
include h

/-- Tasks in use are in their queues, and no more of them are blocked. -/
theorem same {s : Sched} {start : TaskPtr → Tier} {pc : TaskPtr → LockPc ι}
    (htask : ∀ t, (st.sched.task t).inUse = true → SameRank (st.sched.task t) (s.task t))
    (hpc : ∀ t m called, pc t = .inLock m false called → st.BlockedIn m t)
    (hinside : ∀ t, pc t ≠ .outside → st.pc t ≠ .outside) :
    RankInv { st with sched := s, pc := pc, startTier := start } := by
  have hinUse : ∀ t, (st.sched.task t).inUse = true → (s.task t).inUse = true :=
    fun t huse => (htask t huse).inUse.trans huse
  refine ⟨fun m t w hinherit hholder hw => ?_, fun t ht => hinUse t (h.inside t (hinside t ht)),
    fun m t ht => hinUse t (h.holder m t ht)⟩
  obtain ⟨called, hw⟩ := hw
  have hin : st.pc w ≠ .outside := hinside w (by rw [show pc w = _ from hw]; nofun)
  unfold qidx
  rw [(htask t (h.holder m t hholder)).qidx, (htask w (h.inside w hin)).qidx]
  exact h.ranked m t w hinherit hholder (hpc w m called hw)

theorem schedule : Post st.sched.schedule fun s => RankInv { st with sched := s } :=
  (via_schedule inheriting_sameRank.toScheduling _).mono fun _ hv =>
    h.same (fun t _ => hv.task t) (fun _ _ called hpc => ⟨called, hpc⟩) fun _ ht => ht

theorem create (fields : Task) : RankInv (st.create fields) :=
  h.same (fun _ => task_createAndEnqueue inheriting_sameRank.toQueueing fields)
    (fun _ _ called hpc => ⟨called, hpc⟩) fun _ ht => ht

/-- Levels have changed, but not those that matter. -/
theorem drift {worse better : TaskPtr → Prop} {s : Sched} (hd : Drifted worse better st.sched s)
    (hmay : ∀ m w, (st.mutex m).inherit = true → st.BlockedIn m w →
      ¬better w ∧ ∀ t, (st.mutex m).holder = some t → ¬worse t) :
    RankInv { st with sched := s } := by
  refine ⟨fun m t w hinherit hholder hw => ?_, fun t ht => ?_, fun m t ht => ?_⟩
  · obtain ⟨hbetter, hworse⟩ := hmay m w hinherit hw
    calc taskQidx (s.task t) ≤ st.qidx t :=
          taskQidx_mono (hd t).tier ((hd t).le.resolve_left (hworse t hholder))
      _ ≤ st.qidx w := h.ranked m t w hinherit hholder hw
      _ ≤ taskQidx (s.task w) :=
          taskQidx_mono (hd w).tier.symm ((hd w).ge.resolve_left hbetter)
  · rw [(hd t).inUse]
    exact h.inside t ht
  · rw [(hd t).inUse]
    exact h.holder m t ht

variable [DecidableEq ι]

section

variable {m : ι} (huse : (st.sched.task st.sched.currentTask).inUse = true)
include huse

theorem take (hmay : st.MayTake m) : RankInv (st.take m) := by
  have hblocked : ∀ {w m'}, (st.take m).BlockedIn m' w → st.BlockedIn m' w := by
    rintro w m' ⟨called, hw⟩
    simp only [LockState.take, update_apply] at hw
    split at hw
    · cases hw
    · exact ⟨called, hw⟩
  refine ⟨fun m' t w hinherit hholder hw => ?_, fun t ht => ?_, fun m' t ht => ?_⟩
  · rw [LockState.mutex_take] at hinherit hholder
    split at hholder
    · rename_i heq
      subst heq
      rw [if_pos rfl] at hinherit
      cases hholder
      exact (Task.notBehind_iff _ _).mp (hmay w hinherit (hblocked hw))
    · rename_i hne
      rw [if_neg hne] at hinherit
      exact h.ranked m' t w hinherit hholder (hblocked hw)
  · simp only [LockState.take, update_apply] at ht
    split at ht
    · exact absurd rfl ht
    · exact h.inside t ht
  · rw [LockState.mutex_take] at ht
    split at ht
    · exact some.inj ht ▸ huse
    · exact h.holder m' t ht

theorem block (hmay : st.MayBlock m) {s : Sched}
    (htask : ∀ t, SameRank (st.raised m t) (s.task t)) :
    RankInv { st with
      sched := s
      mutex := update st.mutex m { st.mutex m with waitq := some st.sched.currentTask }
      pc := update st.pc st.sched.currentTask (.inLock m false false) } := by
  have hmutex := fun m' => update_waitq st.mutex m m' st.sched.currentTask
  have hinUse := fun t => (htask t).inUse.trans (inUse_raised t)
  refine ⟨fun m' t w hinherit hholder hw => ?_, fun t ht => ?_, fun m' t ht => ?_⟩
  · rw [(hmutex m').2.2] at hinherit
    rw [(hmutex m').2.1] at hholder
    obtain ⟨called, hw⟩ := hw
    simp only [update_apply] at hw
    unfold qidx
    by_cases hself : t = w
    · rw [hself]
    rw [(htask t).qidx, (htask w).qidx]
    split at hw
    · -- the task that blocks
      rename_i hme
      obtain ⟨rfl, -, -⟩ := LockPc.inLock.inj hw
      rcases hmay.cases w with ⟨hsame, -⟩ | ⟨hw, -⟩
      · rw [hsame, hme]
        rcases hmay.cases t with ⟨hsame, hle⟩ | ⟨-, hidx, -⟩
        · rw [hsame]
          exact hle hinherit hholder
        · exact hidx.le
      · exact absurd (some.inj (hholder.symm.trans hw)) hself
    · have hw : st.BlockedIn m' w := ⟨called, hw⟩
      rcases hmay.cases w with ⟨hsame, -⟩ | ⟨hm, hidx, -, hwaits⟩
      · rw [hsame]
        exact (hmay.raised_le t).trans (h.ranked m' t w hinherit hholder hw)
      · -- the holder waits itself, and has moved
        rcases hmay.cases t with ⟨hsame, -⟩ | ⟨ht, -⟩
        · rw [hsame, hidx]
          exact (Task.notBehind_iff _ _).mp (hwaits m' t hinherit hholder hw hself)
        · exact absurd (some.inj (ht.symm.trans hm)) hself
  · rw [hinUse]
    simp only [update_apply] at ht
    split at ht
    · rename_i hme
      exact hme ▸ huse
    · exact h.inside t ht
  · rw [hinUse]
    exact h.holder m' t ((hmutex m').2.1 ▸ ht)

theorem mutexLock (hmay : st.MayLock m) : Post (st.mutexLock m) RankInv := by
  unfold LockState.MayLock at hmay
  unfold LockState.mutexLock
  split
  · rename_i hlocked
    rw [if_pos hlocked] at hmay
    refine (st.rank_inheritTier m).bind fun s1 h1 => ?_
    refine (via_block inheriting_sameRank s1 _).bind fun s2 hv => .some ?_
    exact h.block huse hmay fun t => inheriting_sameRank.trans (h1 t) (hv.task t)
  · rename_i hlocked
    rw [if_neg hlocked] at hmay
    exact .some (h.take huse hmay)

end

/-- The mutex is free, the holder has its tier, and a task may have been woken. -/
theorem release {m : ι} (hmay : st.MayRestore m) {s : Sched}
    (htask : ∀ t, SameRank (st.lowered m t) (s.task t)) (waitq : Option TaskPtr)
    {pc : TaskPtr → LockPc ι} (hpc : ∀ t m called, pc t = .inLock m false called →
      st.BlockedIn m t) (hinside : ∀ t, pc t ≠ .outside → st.pc t ≠ .outside) :
    RankInv { st with
      sched := s, pc := pc,
      mutex := update st.mutex m
        { st.mutex m with locked := false, holder := none, waitq := waitq } } := by
  have hinUse := fun t => (htask t).inUse.trans (inUse_lowered t)
  refine ⟨fun m' t w hinherit hholder hw => ?_, fun t ht => ?_, fun m' t ht => ?_⟩
  · by_cases heq : m' = m
    · subst heq
      simp only [update_self] at hholder
      cases hholder
    simp only [update_of_ne heq] at hinherit hholder
    obtain ⟨called, hw⟩ := hw
    have hw := hpc w m' called hw
    unfold qidx
    by_cases hself : t = w
    · rw [hself]
    rw [(htask t).qidx, (htask w).qidx, lowered, lowered]
    split
    · -- it still holds another mutex
      rename_i ht
      rw [if_neg fun hc => hself (some.inj (ht.1.symm.trans hc.1))]
      exact (Task.notBehind_iff _ _).mp
        ((hmay t ht.1 ht.2).1 m' w heq hinherit hholder hw fun hc => hself hc.symm)
    · split
      · -- it waits itself
        rename_i hwait
        exact (Task.notBehind_iff _ _).mp
          ((hmay w hwait.1 hwait.2).2 m' t hinherit hholder hw hself)
      · exact h.ranked m' t w hinherit hholder hw
  · rw [hinUse]
    exact h.inside t (hinside t ht)
  · rw [hinUse]
    by_cases heq : m' = m
    · subst heq
      simp only [update_self] at ht
      cases ht
    · simp only [update_of_ne heq] at ht
      exact h.holder m' t ht

theorem mutexUnlock {m : ι} (hmay : st.MayRestore m) : Post (st.mutexUnlock m) RankInv := by
  refine (st.rank_restoreTier m).bind fun s h1 => ?_
  cases hq : (st.mutex m).waitq with
  | none =>
    refine .some ?_
    exact h.release hmay h1 (st.mutex m).waitq (fun _ _ called hpc => ⟨called, hpc⟩) fun _ ht => ht
  | some w =>
    have hwake := via_wake inheriting_sameRank s w
    refine .some (h.release hmay (fun t => ?_) _ (fun t m' called hpc => ?_) fun t ht => ?_)
    · exact inheriting_sameRank.trans (h1 t) (hwake.task t)
    · simp only [update_apply] at hpc
      split at hpc
      · -- it is not blocked any more
        unfold LockPc.wake at hpc
        split at hpc <;> exact nomatch hpc
      · exact ⟨called, hpc⟩
    · simp only [update_apply] at ht
      split at ht
      · rename_i heq
        subst heq
        intro hout
        rw [hout] at ht
        exact ht rfl
      · exact ht

omit h in
theorem init (h : (lockSystem ι).init st) : RankInv st := by
  obtain ⟨-, hmutex, hpc, -⟩ := h
  refine ⟨fun m t w _ hholder _ => ?_, fun t ht => absurd (hpc t) ht, fun m t ht => ?_⟩
  · cases (hmutex m).2.1.symm.trans hholder
  · cases (hmutex m).2.1.symm.trans ht

/-- **One event that tiers, levels and owners allow.** -/
theorem step (hu : Undone st) {e : LockEvent ι}
    (hallowed : (lockSystem ι).allowed st e) (hranks : e.Ranks st) :
    Post ((lockSystem ι).step st e) RankInv := by
  cases e with
  | lock m => exact h.mutexLock hallowed.2.1 hranks
  | trylock m =>
    refine .some ?_
    unfold mutexTrylock
    split
    · exact h
    · rename_i hlocked
      exact h.take hallowed.2.1 (hranks (Bool.eq_false_iff.mpr hlocked))
  | unlock m => exact h.mutexUnlock hranks
  | callSchedule =>
    change Post st.callSchedule RankInv
    unfold callSchedule
    split
    · exact .none
    · rename_i m woken called hpc
      refine (via_schedule inheriting_sameRank.toScheduling _).bind fun s hv => .some ?_
      refine h.same (fun t _ => hv.task t) (fun t m' called' hpc' => ?_) fun t ht => ?_
      · simp only [update_apply] at hpc'
        split at hpc'
        · rename_i heq
          obtain ⟨rfl, rfl, -⟩ := LockPc.inLock.inj hpc'
          exact ⟨called, heq ▸ hpc⟩
        · exact ⟨called', hpc'⟩
      · simp only [update_apply] at ht
        split at ht
        · rename_i heq
          rw [heq, hpc]
          nofun
        · exact ht
  | retest =>
    change Post st.retest RankInv
    simp only [LockEvent.Ranks] at hranks
    unfold retest
    split
    · exact .none
    · rename_i m _ _ hpc
      rw [hpc] at hranks
      refine h.mutexLock (h.inside _ ?_) hranks
      rw [hpc]
      nofun
  | tick =>
    refine (drifted_pitHandler hu.wdTable (hu.task _).kill).bind fun s1 hd => ?_
    refine (h.drift hd fun m w hinherit hw => ?_).schedule.bind fun _ h2 => .some h2
    obtain ⟨hwaits, hfull⟩ := hranks m w hinherit hw
    exact ⟨fun hc => hc hwaits, fun t ht hc => hfull (hc.1 ▸ ht) (hc.1 ▸ hc.2)⟩
  | yield =>
    refine (drifted_yieldCurrent _).bind fun s1 hd => ?_
    refine (h.drift hd fun m w _ hw => ⟨fun hc => ?_, fun _ _ => id⟩).schedule.bind
      fun _ h2 => .some h2
    obtain ⟨called, hpc⟩ := hw
    rw [hc, hallowed.2.2] at hpc
    cases hpc
  | schedule => exact h.schedule.bind fun _ h1 => .some h1
  | create fields => exact .some (h.create fields)

end RankInv

/-! ## Whole runs -/

/-- Tasks use mutexes as tiers, levels and owners allow. -/
abbrev rankSystem (ι : Type) [DecidableEq ι] : System (LockState ι) (LockEvent ι) :=
  (lockSystem ι).restrict fun st e => e.Ranks st

/-- One round of the loop of `mutex_lock` moves nobody to a worse queue. -/
theorem qidx_mutexLock_le {ι : Type} [DecidableEq ι] {st : LockState ι} {m : ι}
    (hmay : st.MayLock m) :
    Post (st.mutexLock m) fun st' => ∀ t, st'.qidx t ≤ st.qidx t := by
  unfold LockState.MayLock at hmay
  unfold mutexLock
  split
  · rename_i hlocked
    rw [if_pos hlocked] at hmay
    refine (st.rank_inheritTier m).bind fun s1 h1 => ?_
    refine (via_block inheriting_sameRank s1 _).bind fun s2 hv => .some fun t => ?_
    exact ((hv.task t).qidx.trans (h1 t).qidx).trans_le (hmay.raised_le t)
  · exact .some fun t => le_rfl

/-- **No inversion, and blocking lowers nobody**, in every state of a run whose steps are as
`LockEvent.Ranks` allows: a user task does not raise a critical one, a task that does not raise the
holder finds it no further behind, a mutex is taken by a task that is not behind those still
blocked on it, a tier is given back only where no other waiter needs it, and the timer does not
demote a task that holds a mutex others are blocked on. -/
theorem inversion_prevented {ι : Type} [DecidableEq ι] {st : LockState ι}
    (h : (rankSystem ι).Reachable st) :
    st.Ranked ∧ ∀ e st', (e = .retest ∨ ∃ m, e = .lock m) → (rankSystem ι).allowed st e →
      (rankSystem ι).step st e = some st' → ∀ t, st'.qidx t ≤ st.qidx t := by
  have hinv : RankInv st := by
    suffices hboth : Undone st ∧ RankInv st from hboth.2
    refine System.Reachable.invariant (S := rankSystem ι) (I := fun st => Undone st ∧ RankInv st)
      (fun _ hinit => ⟨Undone.init hinit, RankInv.init hinit⟩) ?_ h
    rintro st e st' ⟨hu, hr⟩ ⟨hallowed, hranks⟩ hstep
    exact ⟨hu.step hallowed st' hstep, hr.step hu hallowed hranks st' hstep⟩
  refine ⟨hinv.ranked, ?_⟩
  rintro e st' (rfl | ⟨m, rfl⟩) ⟨-, hranks⟩ hstep
  · change st.retest = some st' at hstep
    simp only [LockEvent.Ranks] at hranks
    unfold retest at hstep
    split at hstep
    · cases hstep
    · rename_i m _ _ hpc
      rw [hpc] at hranks
      exact qidx_mutexLock_le hranks st' hstep
  · exact qidx_mutexLock_le hranks st' hstep

/-! ## Two runs -/

set_option synthInstance.maxSize 512 in
instance (st : LockState Unit) : (e : LockEvent Unit) → Decidable (e.Ranks st)
  | .lock m => inferInstanceAs (Decidable (st.MayLock m))
  | .retest => by
    unfold LockEvent.Ranks
    cases st.pc st.sched.currentTask <;> infer_instance
  | .trylock m => inferInstanceAs (Decidable (_ → st.MayTake m))
  | .unlock m => inferInstanceAs (Decidable (st.MayRestore m))
  | .tick => inferInstanceAs (Decidable st.MayTick)
  | .yield | .callSchedule | .schedule | .create _ => .isTrue trivial

/-- The self-test of the locks: a user task takes the mutex and yields, a system task blocks on it
and is interrupted by the timer. -/
def locksTestRun : List (LockEvent Unit) :=
  [.create (tierTask .user), .schedule, .lock (), .create (tierTask .system), .yield, .lock (),
    .tick]

/-- The user task is in the queue of the system task that waits for it. -/
theorem inversion_prevented_user :
    ∃ st, (rankSystem Unit).Reachable st ∧ (st.mutex ()).holder = some (.slot 0) ∧
      st.sched.currentTask = .slot 0 ∧
      st.BlockedIn () (.slot 1) ∧ st.qidx (.slot 1) = 1 ∧ st.startTier (.slot 0) = .user ∧
      st.qidx (.slot 0) ≤ st.qidx (.slot 1) := by
  obtain ⟨st, hreach, hinherit, hholder, hcur, hblocked, hidx, hstart⟩ := System.exists_reachable
    (S := rankSystem Unit) (fun st e => e.Allowed st ∧ e.Ranks st) locksTestRun
    (fun st => (st.mutex ()).inherit = true ∧ (st.mutex ()).holder = some (.slot 0) ∧
      st.sched.currentTask = .slot 0 ∧
      st.BlockedIn () (.slot 1) ∧ st.qidx (.slot 1) = 1 ∧ st.startTier (.slot 0) = .user)
    (fun _ _ h => h) (.init (init_lockInit Unit)) (by decide +kernel)
  exact ⟨st, hreach, hholder, hcur, hblocked, hidx, hstart,
    (inversion_prevented hreach).1 () _ _ hinherit hholder hblocked⟩

/-- A critical task that has level 2 takes the mutex, and uses up its slice. -/
def criticalHolds : List (LockEvent Unit) :=
  [.create { tierTask .critical with mlfqLevel := 2 }, .schedule, .lock (),
    .create (tierTask .user), .schedule, .schedule]

/-- **Inheritance lowers the holder**: a user task blocks, whose tier has the smaller number, and
the critical task goes from queue 1 to queue 4, behind the task that waits for it. -/
theorem inversion_by_inheritance :
    ∃ st st', (lockSystem Unit).Reachable st ∧ (lockSystem Unit).allowed st (.lock ()) ∧
      (lockSystem Unit).step st (.lock ()) = some st' ∧ (st'.mutex ()).inherit = true ∧
      (st'.mutex ()).holder = some (.slot 0) ∧ st'.BlockedIn () (.slot 1) ∧
      st.qidx (.slot 0) = 1 ∧ st'.qidx (.slot 0) = 4 ∧ st'.qidx (.slot 1) = 2 := by
  obtain ⟨st, hreach, hallowed, hidx, st', hstep, hinherit, hholder, hblocked, hafter⟩ :=
    System.exists_reachable (S := lockSystem Unit) (fun st e => e.Allowed st) criticalHolds
      (fun st => (LockEvent.lock ()).Allowed st ∧ st.qidx (.slot 0) = 1 ∧
        ∃ st' ∈ st.mutexLock (), (st'.mutex ()).inherit = true ∧
          (st'.mutex ()).holder = some (.slot 0) ∧ st'.BlockedIn () (.slot 1) ∧
          st'.qidx (.slot 0) = 4 ∧ st'.qidx (.slot 1) = 2)
      (fun _ _ => id) (.init (init_lockInit Unit)) (by decide +kernel)
  exact ⟨st, st', hreach, hallowed, hstep, hinherit, hholder, hblocked, hidx, hafter⟩

end PokuOS

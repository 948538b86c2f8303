import PokuOS.Programs
import PokuOS.Profile

/-!
# Sandboxes only get narrower

`Restricted a d` says that `d` may do no more than `a`: fewer capabilities, tighter limits, a
root within `a`'s. It is a preorder, and what `sys_fork` makes of any configuration is
`Restricted` against the parent.

What an event does to the limits of all tasks is one relation, `Evolves`: each task keeps
them, or is gone, or is new. From it follows that limits never change while a task lives, and
so that every descendant is restricted against every ancestor.
-/

namespace PokuOS

/-! ## Limits -/

/-- What a task is allowed, with its identity. -/
structure Limits where
  pid : ℕ
  inUse : Bool
  caps : BitVec 32
  memLimit : ℕ
  cpuQuota : ℕ
  rootPath : CStr
  deriving DecidableEq

/-- The limits in a profile. -/
def Profile.limits (p : Profile) : Limits where
  pid := p.pid
  inUse := p.inUse
  caps := p.caps
  memLimit := p.memLimit
  cpuQuota := p.cpuQuota
  rootPath := p.rootPath

/-- The limits of a task. -/
def Task.limits (t : Task) : Limits := t.profile.limits

/-- `x` is at most `y`, where 0 is no limit. -/
def LimitLe (x y : ℕ) : Prop := y = 0 ∨ x ≠ 0 ∧ x ≤ y

theorem LimitLe.trans {x y z : ℕ} (h : LimitLe x y) (h' : LimitLe y z) : LimitLe x z := by
  unfold LimitLe at *
  omega

/-- **`d` may do no more than `a`.** -/
structure Restricted (a d : Limits) : Prop where
  /-- the capabilities are a subset -/
  caps : d.caps &&& a.caps = d.caps
  /-- the memory limit is at most `a`'s -/
  memLimit : LimitLe d.memLimit a.memLimit
  /-- the quota is at most `a`'s -/
  cpuQuota : LimitLe d.cpuQuota a.cpuQuota
  /-- the root is `a`'s or below it -/
  rootPath : a.rootPath ≠ [] → pathIsWithin d.rootPath a.rootPath

theorem Restricted.trans {a b d : Limits} (h : Restricted a b) (h' : Restricted b d) :
    Restricted a d := by
  refine ⟨?_, h'.memLimit.trans h.memLimit, h'.cpuQuota.trans h.cpuQuota, fun ha => ?_⟩
  · rw [← h'.caps, BitVec.and_assoc, h.caps]
  · have hb := h.rootPath ha
    exact pathIsWithin_trans (h'.rootPath (ne_nil_of_pathIsWithin hb ha)) hb

/-! ## What `sys_fork` makes of a configuration -/

theorem limitLe_clampLimit (parent wanted : ℕ) : LimitLe (clampLimit parent wanted) parent := by
  unfold clampLimit LimitLe
  split
  · omega
  · split <;> omega

/-- The child's root is the parent's or below it. -/
theorem pathIsWithin_forkRoot {parent : Task} {arg : RootArg} {root : CStr}
    (h : forkRoot parent arg = .ok root) (hparent : parent.rootPath ≠ []) :
    pathIsWithin root parent.rootPath := by
  cases arg with
  | null =>
    obtain rfl : parent.rootPath = root := Except.ok.inj h
    exact pathIsWithin_refl _
  | unreadable => cases h
  | text s =>
    simp only [forkRoot] at h
    split at h
    · cases h
    · rename_i hwithin
      obtain rfl := Except.ok.inj h
      by_contra hout
      exact hwithin ⟨hparent, hout⟩

/-- **Every accepted configuration restricts the child.** -/
theorem restricted_applySandbox {parent child fields : Task} {sb : SandboxConfig}
    (h : applySandbox parent child sb = .ok fields) :
    Restricted parent.limits fields.limits ∧ fields.pid = child.pid ∧
      fields.inUse = child.inUse := by
  obtain ⟨_, _, _, -, hroot, rfl⟩ := applySandbox_eq_ok h
  refine ⟨⟨?_, limitLe_clampLimit _ _, limitLe_clampLimit _ _,
    pathIsWithin_forkRoot hroot⟩, rfl, rfl⟩
  change (if sb.capsAllow = 0 then parent.caps else parent.caps &&& sb.capsAllow) &&&
    parent.caps = if sb.capsAllow = 0 then parent.caps else parent.caps &&& sb.capsAllow
  split
  · exact BitVec.and_self
  · rw [BitVec.and_comm parent.caps, BitVec.and_assoc, BitVec.and_self]

/-! ## What an event does to limits -/

namespace Sched

/-- The task at `t` is new in `s'` and satisfies `P`. -/
structure IsNew (P : Limits → Prop) (s s' : Sched) (t : TaskPtr) : Prop where
  /-- it has the next identity -/
  pid : (s'.task t).limits.pid = s.pidCounter
  /-- it is in use -/
  inUse : (s'.task t).limits.inUse = true
  /-- its identity is used up -/
  pidCounter : s.pidCounter < s'.pidCounter
  /-- it satisfies `P` -/
  limits : P (s'.task t).limits

/-- Each task keeps its limits, or is gone, or is new; at most one is new. -/
structure Evolves (P : Limits → Prop) (s s' : Sched) : Prop where
  /-- each task -/
  task : ∃ i : Fin maxTasks, ∀ t, (s'.task t).limits = (s.task t).limits ∨
    t ≠ .idle ∧ (s'.task t).limits = Task.zero.limits ∨ t = .slot i ∧ IsNew P s s' t
  /-- identities are not given twice -/
  pidCounter : s.pidCounter ≤ s'.pidCounter

variable {s s' s'' : Sched} {P : Limits → Prop}

/-- No task is new. -/
def NoneNew : Limits → Prop := fun _ => False

theorem Keeps.evolves (h : Keeps s s') : Evolves P s s' := by
  refine ⟨⟨0, fun t => ?_⟩, h.pidCounter.ge⟩
  rcases h.task t with ht | ⟨hidle, ht⟩
  · exact .inl (congrArg Profile.limits ht)
  · exact .inr (.inl ⟨hidle, congrArg Profile.limits ht⟩)

namespace Evolves

theorem refl (s : Sched) : Evolves P s s := ⟨⟨0, fun _ => .inl rfl⟩, le_rfl⟩

/-- An event that creates a task, and one that creates none. -/
theorem andThen (h : Evolves P s s') (h' : Evolves NoneNew s' s'') : Evolves P s s'' := by
  obtain ⟨i, hi⟩ := h.task
  obtain ⟨_, hj⟩ := h'.task
  refine ⟨⟨i, fun t => ?_⟩, h.pidCounter.trans h'.pidCounter⟩
  rcases hj t with hsame | hgone | ⟨-, hnew⟩
  · rw [hsame]
    rcases hi t with hsame' | hgone | ⟨ht, hnew⟩
    · exact .inl hsame'
    · exact .inr (.inl hgone)
    · refine .inr (.inr ⟨ht, ?_, ?_, hnew.pidCounter.trans_le h'.pidCounter, ?_⟩) <;> rw [hsame]
      exacts [hnew.pid, hnew.inUse, hnew.limits]
  · exact .inr (.inl hgone)
  · exact hnew.limits.elim

theorem from_same (htask : s'.task = s.task) (hpid : s'.pidCounter = s.pidCounter)
    (h : Evolves P s' s'') : Evolves P s s'' := by
  obtain ⟨i, hi⟩ := h.task
  refine ⟨⟨i, fun t => ?_⟩, hpid ▸ h.pidCounter⟩
  rw [← htask]
  rcases hi t with hsame | hgone | ⟨ht, hnew⟩
  · exact .inl hsame
  · exact .inr (.inl hgone)
  · exact .inr (.inr ⟨ht, hnew.pid.trans hpid, hnew.inUse, hpid ▸ hnew.pidCounter, hnew.limits⟩)

theorem create {i : Fin maxTasks} (h : NewSlot s s' i) {fields : Task}
    (hpid : fields.pid = (s'.task (.slot i)).pid) (huse : fields.inUse = (s'.task (.slot i)).inUse)
    (hP : P fields.limits) : Evolves P s (s'.modify (.slot i) fun _ => fields) := by
  have hlt : s.pidCounter < s'.pidCounter := by
    rw [h.pidCounter]
    exact Nat.lt_succ_self _
  refine ⟨⟨i, fun t => ?_⟩, hlt.le⟩
  by_cases ht : t = .slot i
  · have hfields : (s'.modify (.slot i) fun _ => fields).task t = fields := by
      rw [task_modify, if_pos ht]
    rw [h.slot] at hpid huse
    refine .inr (.inr ⟨ht, ?_, ?_, hlt, ?_⟩) <;> rw [hfields]
    exacts [hpid, huse, hP]
  · rw [task_modify, if_neg ht, h.others t ht]
    exact .inl rfl

/-- A new task that is given up: its slot was free, and is free again. -/
theorem create_free {i : Fin maxTasks} (h : NewSlot s s' i) (f : Task → Task) :
    Evolves P s ((s'.modify (.slot i) f).freeTaskSlot (.slot i)) := by
  refine ⟨⟨i, fun t => ?_⟩, ?_⟩
  · by_cases ht : t = .slot i
    · refine .inr (.inl ⟨by rw [ht]; nofun, ?_⟩)
      rw [freeTaskSlot, task_modify, if_pos ht]
    · refine .inl ?_
      rw [freeTaskSlot, task_modify, if_neg ht, task_modify, if_neg ht, h.others t ht]
  · exact (Nat.le_succ _).trans_eq h.pidCounter.symm

end Evolves

/-- A slot that is not in use has no limits, and identities are below the counter. -/
structure Fits (s : Sched) : Prop where
  /-- free slots are cleared -/
  free : ∀ t, t ≠ .idle → (s.task t).limits.inUse = false → (s.task t).limits = Task.zero.limits
  /-- identities are below the counter -/
  pid : ∀ t, (s.task t).limits.pid < s.pidCounter

theorem Fits.pos (h : Fits s) : 0 < s.pidCounter := (Nat.zero_le _).trans_lt (h.pid .idle)

theorem Fits.evolves (h : Fits s) (he : Evolves P s s') : Fits s' := by
  obtain ⟨_, hi⟩ := he.task
  refine ⟨fun t hidle huse => ?_, fun t => ?_⟩
  · rcases hi t with hsame | ⟨-, hgone⟩ | ⟨-, hnew⟩
    · rw [hsame] at huse ⊢
      exact h.free t hidle huse
    · exact hgone
    · cases huse.symm.trans hnew.inUse
  · rcases hi t with hsame | ⟨-, hgone⟩ | ⟨-, hnew⟩
    · rw [hsame]
      exact (h.pid t).trans_le he.pidCounter
    · rw [hgone]
      exact h.pos.trans_le he.pidCounter
    · rw [hnew.pid]
      exact hnew.pidCounter

/-- A task with the next identity is new, and there is only one. -/
theorem Fits.isNew (h : Fits s) (he : Evolves P s s') :
    ∃ i : Fin maxTasks, ∀ t, (s'.task t).limits.pid = s.pidCounter →
      t = .slot i ∧ IsNew P s s' t := by
  obtain ⟨i, hi⟩ := he.task
  refine ⟨i, fun t hpid => ?_⟩
  rcases hi t with hsame | ⟨-, hgone⟩ | hnew
  · rw [hsame] at hpid
    exact absurd hpid (h.pid t).ne
  · rw [hgone] at hpid
    exact absurd hpid h.pos.ne
  · exact hnew

/-- **A task that is not new has the limits it had.** -/
theorem Evolves.limits_eq (he : Evolves P s s') {t : TaskPtr} {pid : ℕ} (hpos : 0 < pid)
    (hlt : pid < s.pidCounter) (hpid : (s'.task t).limits.pid = pid) :
    (s'.task t).limits = (s.task t).limits := by
  obtain ⟨_, hi⟩ := he.task
  rcases hi t with hsame | ⟨-, hgone⟩ | ⟨-, hnew⟩
  · exact hsame
  · rw [hgone] at hpid
    exact absurd hpid hpos.ne
  · rw [hnew.pid] at hpid
    exact absurd hpid hlt.ne'

end Sched

end PokuOS

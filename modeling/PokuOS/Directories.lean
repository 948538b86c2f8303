import PokuOS.Owners
import PokuOS.Watchdog

/-!
# Directories of tasks

Every live task has a page directory of its own. What scheduling writes to a task leaves its
directory alone (`SameSpace`), a new task has a new directory (`Spaced.create`), and a task that
has ended stays so (`Spaced.exitCurrent`): its directory is nobody's any more.
-/

namespace PokuOS

/-! ## What matters of a task -/

/-- What matters of a task is the same: its directory, its charge, and whether it is live. -/
structure SameSpace (a b : Task) : Prop where
  cr3 : b.cr3 = a.cr3
  charge : b.charge = a.charge
  inUse : b.inUse = a.inUse
  /-- `TASK_EXITED` -/
  exited : b.state = .exited ↔ a.state = .exited

theorem queueing_sameSpace : Queueing SameSpace where
  refl _ := ⟨rfl, rfl, rfl, Iff.rfl⟩
  trans h h' := ⟨h'.cr3.trans h.cr3, h'.charge.trans h.charge, h'.inUse.trans h.inUse,
    h'.exited.trans h.exited⟩
  links _ _ _ := ⟨rfl, rfl, rfl, Iff.rfl⟩

/-- **Every live task has a directory of its own**, one of `dirs`, that fits its charge. -/
structure Spaced (dirs : Set ℕ) (fits : ℕ → ℕ × ℕ → Prop) (s : Sched) : Prop where
  /-- the kernel's directory is part of its image -/
  low : s.pageDirectory < pageStartIndex
  /-- it is one of them -/
  root : s.pageDirectory ∈ dirs
  /-- the idle task has the kernel's -/
  idle : (s.task .idle).cr3 = s.pageDirectory
  /-- a task has a frame that was handed out -/
  high : ∀ i, s.Live i → pageStartIndex ≤ (s.task (.slot i)).cr3
  /-- it is one of them -/
  mem : ∀ i, s.Live i → (s.task (.slot i)).cr3 ∈ dirs
  /-- no two tasks share one -/
  distinct : ∀ i j, s.Live i → s.Live j → (s.task (.slot i)).cr3 = (s.task (.slot j)).cr3 → i = j
  /-- its charge is enough -/
  charge : ∀ i, s.Live i → fits (s.task (.slot i)).cr3 (s.task (.slot i)).charge

/-- The running task has not ended. -/
def Sched.Runs (s : Sched) : Prop := ∀ i, s.currentTask = .slot i → s.Live i

/-- Only slot `i` is not what it was. -/
structure AtSlot (s s' : Sched) (i : Fin maxTasks) : Prop where
  /-- the other tasks -/
  others : ∀ t, t ≠ .slot i → s'.task t = s.task t
  currentTask : s'.currentTask = s.currentTask
  pageDirectory : s'.pageDirectory = s.pageDirectory

section Table

variable {dirs : Set ℕ} {fits : ℕ → ℕ × ℕ → Prop} {s s' : Sched} {i : Fin maxTasks}

theorem Sched.Live.of_same (h : ∀ t, SameSpace (s.task t) (s'.task t)) :
    s'.Live i ↔ s.Live i := by
  unfold Sched.Live
  rw [(h (.slot i)).inUse, ne_eq, (h (.slot i)).exited]

theorem NewSlot.atSlot (h : Sched.NewSlot s s' i) : AtSlot s s' i :=
  ⟨h.others, h.currentTask, h.pageDirectory⟩

theorem AtSlot.modify (h : AtSlot s s' i) (f : Task → Task) :
    AtSlot s (s'.modify (.slot i) f) i := by
  refine ⟨fun t ht => ?_, h.currentTask, h.pageDirectory⟩
  rw [Sched.task_modify, if_neg ht, h.others t ht]

theorem AtSlot.live (h : AtSlot s s' i) {j : Fin maxTasks} (hj : j ≠ i) : s'.Live j ↔ s.Live j := by
  unfold Sched.Live
  rw [h.others (.slot j) fun hc => hj (TaskPtr.slot.inj hc)]

/-- A free slot is not the running task's. -/
theorem Sched.Runs.ne (hr : s.Runs) (hfree : (s.task (.slot i)).inUse = false) :
    s.currentTask ≠ .slot i := by
  intro hc
  cases hfree.symm.trans (hr i hc).1

theorem AtSlot.runs (h : AtSlot s s' i) (hr : s.Runs) (hne : s.currentTask ≠ .slot i) :
    s'.Runs := by
  intro j hj
  rw [h.currentTask] at hj
  refine (h.live ?_).mpr (hr j hj)
  rintro rfl
  exact hne hj

theorem AtSlot.cr3 (h : AtSlot s s' i) (hne : s.currentTask ≠ .slot i) :
    (s'.task s'.currentTask).cr3 = (s.task s.currentTask).cr3 := by
  rw [h.currentTask, h.others _ hne]

namespace Spaced

variable (h : Spaced dirs fits s)
include h

/-- No task is live that was not, and their directories and charges are the same. -/
theorem of_live (hpd : s'.pageDirectory = s.pageDirectory)
    (hidle : (s'.task .idle).cr3 = (s.task .idle).cr3)
    (hlive : ∀ i, s'.Live i → s.Live i ∧ (s'.task (.slot i)).cr3 = (s.task (.slot i)).cr3 ∧
      (s'.task (.slot i)).charge = (s.task (.slot i)).charge) : Spaced dirs fits s' := by
  refine ⟨hpd ▸ h.low, hpd ▸ h.root, ?_, fun i hi => ?_, fun i hi => ?_, fun i j hi hj hij => ?_,
    fun i hi => ?_⟩
  · rw [hidle, hpd]
    exact h.idle
  · obtain ⟨hi, hcr3, -⟩ := hlive i hi
    rw [hcr3]
    exact h.high i hi
  · obtain ⟨hi, hcr3, -⟩ := hlive i hi
    rw [hcr3]
    exact h.mem i hi
  · obtain ⟨hi, hcr3, -⟩ := hlive i hi
    obtain ⟨hj, hcr3', -⟩ := hlive j hj
    exact h.distinct i j hi hj (by rw [← hcr3, hij, hcr3'])
  · obtain ⟨hi, hcr3, hcharge⟩ := hlive i hi
    rw [hcr3, hcharge]
    exact h.charge i hi

theorem same (hpd : s'.pageDirectory = s.pageDirectory)
    (htask : ∀ t, SameSpace (s.task t) (s'.task t)) : Spaced dirs fits s' :=
  h.of_live hpd (htask .idle).cr3 fun _ hi =>
    ⟨(Sched.Live.of_same htask).mp hi, (htask _).cr3, (htask _).charge⟩

theorem refit {fits' : ℕ → ℕ × ℕ → Prop}
    (hfits : ∀ d ∈ dirs, ∀ c, fits d c → fits' d c) : Spaced dirs fits' s :=
  ⟨h.low, h.root, h.idle, h.high, h.mem, h.distinct, fun i hi =>
    hfits _ (h.mem i hi) _ (h.charge i hi)⟩

theorem drop {d : ℕ} (hd : pageStartIndex ≤ d)
    (hlive : ∀ i, s.Live i → (s.task (.slot i)).cr3 ≠ d) : Spaced (dirs \ {d}) fits s := by
  refine ⟨h.low, ⟨h.root, ?_⟩, h.idle, h.high, fun i hi => ⟨h.mem i hi, hlive i hi⟩, h.distinct,
    h.charge⟩
  rintro rfl
  exact Nat.not_lt.mpr hd h.low

theorem current_mem (hr : s.Runs) : (s.task s.currentTask).cr3 ∈ dirs := by
  cases hcur : s.currentTask with
  | idle =>
    rw [h.idle]
    exact h.root
  | slot i => exact h.mem i (hr i hcur)

theorem current_high (hr : s.Runs) (hcur : s.currentTask ≠ .idle) :
    pageStartIndex ≤ (s.task s.currentTask).cr3 := by
  cases hc : s.currentTask with
  | idle => exact absurd hc hcur
  | slot i => exact h.high i (hr i hc)

theorem atSlot (hat : AtSlot s s' i) (hdead : ¬s'.Live i) : Spaced dirs fits s' := by
  refine h.of_live hat.pageDirectory (by rw [hat.others .idle nofun]) fun j hj => ?_
  have hji : j ≠ i := by
    rintro rfl
    exact hdead hj
  rw [hat.others _ fun hc => hji (TaskPtr.slot.inj hc)]
  exact ⟨(hat.live hji).mp hj, rfl, rfl⟩

theorem create (hat : AtSlot s s' i) {pd : ℕ}
    (hpd : (s'.task (.slot i)).cr3 = pd) (hhigh : pageStartIndex ≤ pd) (hnew : pd ∉ dirs)
    (hfits : fits pd (s'.task (.slot i)).charge) : Spaced (insert pd dirs) fits s' := by
  have hother : ∀ {j}, j ≠ i → s'.Live j →
      s.Live j ∧ (s'.task (.slot j)).cr3 = (s.task (.slot j)).cr3 := by
    intro j hji hj
    exact ⟨(hat.live hji).mp hj, by rw [hat.others _ fun hc => hji (TaskPtr.slot.inj hc)]⟩
  -- no other live task has the new directory
  have hne : ∀ {j}, j ≠ i → s'.Live j → (s'.task (.slot j)).cr3 ≠ pd := by
    rintro j hji hj rfl
    obtain ⟨hj, hcr3⟩ := hother hji hj
    exact hnew (hcr3 ▸ h.mem j hj)
  refine ⟨hat.pageDirectory ▸ h.low, .inr (hat.pageDirectory ▸ h.root), ?_, fun j hj => ?_,
    fun j hj => ?_, fun j j' hj hj' hjj => ?_, fun j hj => ?_⟩
  · rw [hat.others .idle nofun, hat.pageDirectory]
    exact h.idle
  · by_cases hji : j = i
    · rw [hji, hpd]
      exact hhigh
    · obtain ⟨hj, hcr3⟩ := hother hji hj
      rw [hcr3]
      exact h.high j hj
  · by_cases hji : j = i
    · rw [hji, hpd]
      exact .inl rfl
    · obtain ⟨hj, hcr3⟩ := hother hji hj
      rw [hcr3]
      exact .inr (h.mem j hj)
  · by_cases hji : j = i
    · by_cases hji' : j' = i
      · exact hji.trans hji'.symm
      · exact absurd (hjj.symm.trans (hji ▸ hpd)) (hne hji' hj')
    · by_cases hji' : j' = i
      · exact absurd (hjj.trans (hji' ▸ hpd)) (hne hji hj)
      · obtain ⟨hj, hcr3⟩ := hother hji hj
        obtain ⟨hj', hcr3'⟩ := hother hji' hj'
        exact h.distinct j j' hj hj' (by rw [← hcr3, hjj, hcr3'])
  · by_cases hji : j = i
    · rw [hji, hpd]
      exact hfits
    · rw [hat.others _ fun hc => hji (TaskPtr.slot.inj hc)]
      exact h.charge j ((hat.live hji).mp hj)

end Spaced

/-! ## The end of a task -/

/-- **The running task has ended**, and nobody else has come back. -/
theorem Spaced.exitCurrent (h : Spaced dirs fits s) (code : ℤ) : Post (s.exitCurrent code) fun s' =>
    Spaced dirs fits s' ∧ ∀ i, s'.Live i → s.Live i ∧ .slot i ≠ s.currentTask ∧
      (s'.task (.slot i)).cr3 = (s.task (.slot i)).cr3 := by
  refine (Sched.exits_exitCurrent s code).mono ?_
  rintro s' ⟨-, hpd, hexits⟩
  have hlive : ∀ i, s'.Live i → s.Live i ∧ .slot i ≠ s.currentTask ∧
      (s'.task (.slot i)).cr3 = (s.task (.slot i)).cr3 := by
    intro i hi
    have hexit := hexits (.slot i)
    refine ⟨⟨hexit.inUse ▸ hi.1, fun hs => ?_⟩, fun hc => ?_, hexit.cr3⟩
    · exact hi.2 (hexit.exited.mpr (.inr hs))
    · exact hi.2 (hexit.exited.mpr (.inl hc))
  refine ⟨h.of_live hpd (hexits .idle).cr3 fun i hi => ?_, hlive⟩
  exact ⟨(hlive i hi).1, (hlive i hi).2.2, (hexits (.slot i)).charge (hlive i hi).2.1⟩

end Table

end PokuOS

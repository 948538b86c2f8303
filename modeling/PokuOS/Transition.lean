import Mathlib.Data.List.Basic

/-!
# Transition systems

Every run-level statement of the development is about a `System`: states, events, which
events the environment may issue in a state, and a partial step function (`none` is a step
that does not return — a machine fault or a loop that never ends).

* `Reachable` — the states of all runs made of allowed events.
* `Reachable.invariant` — the induction every safety result goes through: holds initially,
  kept by each allowed step, hence holds in every reachable state.
* `restrict` — the same system with fewer events; the setting for results that hold in
  runs all of whose steps meet some condition.
* `run` — executing a list of events, for concrete runs (`reachable_run`); `checkedRun` also
  tests that each event is allowed.
* `run_simulation` — a run that another system follows step by step.

Step functions are `do` blocks in `Option`; `bind_of_some` runs one statement of such a block,
and `Post` is about what a block returns if it does, with a rule for each way to build one.
`Returns` is the total form: the block returns, and what it returns is as it should be.
-/

namespace PokuOS

open List Option

universe u v

/-- A statement that returns hands its value to the rest of the block. -/
theorem bind_of_some {α β : Type u} {x : Option α} {a : α} (h : x = some a)
    (f : α → Option β) : (x >>= f) = f a := by
  rw [h]
  rfl

/-- Whatever is returned satisfies `P`. -/
def Post {α : Type u} (x : Option α) (P : α → Prop) : Prop := ∀ a, x = some a → P a

namespace Post

variable {α β : Type u} {x : Option α} {P Q : α → Prop}

theorem some {a : α} (h : P a) : Post (some a) P := fun _ ha => some.inj ha ▸ h

theorem none : Post (none : Option α) P := nofun

/-- **The rule for a statement and the rest of its block.** -/
theorem bind {f : α → Option β} {R : β → Prop} (hx : Post x P)
    (hf : ∀ a, P a → Post (f a) R) : Post (x >>= f) R := by
  intro b hb
  obtain ⟨a, ha, hb⟩ := bind_eq_some_iff.mp hb
  exact hf a (hx a ha) b hb

/-- Nothing has to be known of the statement. -/
theorem forall_bind {f : α → Option β} {R : β → Prop} (hf : ∀ a, Post (f a) R) :
    Post (x >>= f) R :=
  bind (P := fun _ => True) (fun _ _ => trivial) fun a _ => hf a

theorem mono (h : Post x P) (hPQ : ∀ a, P a → Q a) : Post x Q := fun a ha => hPQ a (h a ha)

theorem and (h : Post x P) (h' : Post x Q) : Post x fun a => P a ∧ Q a :=
  fun a ha => ⟨h a ha, h' a ha⟩

/-- What is known of the value that is returned. -/
theorem of_exists (h : ∃ a, x = Option.some a ∧ P a) : Post x P := by
  obtain ⟨a, ha, hP⟩ := h
  rw [ha]
  exact .some hP

theorem map {f : α → β} {R : β → Prop} (h : Post x P) (hf : ∀ a, P a → R (f a)) :
    Post (x.map f) R := by
  intro b hb
  obtain ⟨a, ha, rfl⟩ := map_eq_some_iff.mp hb
  exact hf a (h a ha)

/-- **The rule for a loop over a list.** -/
theorem foldlM {γ : Type v} {f : α → γ → Option α} (hf : ∀ a c, P a → Post (f a c) P)
    (l : List γ) : ∀ {a : α}, P a → Post (l.foldlM f a) P := by
  induction l with
  | nil => exact fun ha => .some ha
  | cons c l ih =>
    intro a ha
    rw [foldlM_cons]
    exact (hf a c ha).bind fun _ => ih

end Post

/-- The block returns, with a value that satisfies `P`. -/
def Returns {α : Type u} (x : Option α) (P : α → Prop) : Prop := ∃ a, x = some a ∧ P a

namespace Returns

variable {α β : Type u} {x : Option α} {P Q : α → Prop}

theorem some {a : α} (h : P a) : Returns (some a) P := ⟨a, rfl, h⟩

/-- **The rule for a statement and the rest of its block.** -/
theorem bind {f : α → Option β} {R : β → Prop} (hx : Returns x P)
    (hf : ∀ a, P a → Returns (f a) R) : Returns (x >>= f) R := by
  obtain ⟨a, rfl, ha⟩ := hx
  exact hf a ha

theorem mono (h : Returns x P) (hPQ : ∀ a, P a → Q a) : Returns x Q := by
  obtain ⟨a, hx, ha⟩ := h
  exact ⟨a, hx, hPQ a ha⟩

/-- **The rule for a loop over a list**: the invariant says how far the loop has come. -/
theorem foldlM {γ : Type v} {f : α → γ → Option α} {I : List γ → α → Prop}
    (hf : ∀ done c a, I done a → Returns (f a c) (I (done ++ [c]))) (l : List γ) :
    ∀ {done : List γ} {a : α}, I done a → Returns (l.foldlM f a) (I (done ++ l)) := by
  induction l with
  | nil =>
    intro done a ha
    rw [append_nil]
    exact .some ha
  | cons c l ih =>
    intro done a ha
    rw [foldlM_cons, append_cons]
    exact (hf done c a ha).bind fun a' ha' => ih ha'

end Returns

/-- A transition system with an environment that issues events. -/
structure System (σ : Type u) (ε : Type v) where
  /-- the initial states -/
  init : σ → Prop
  /-- the events the environment may issue in a state -/
  allowed : σ → ε → Prop
  /-- the effect of an event; `none` when it does not return -/
  step : σ → ε → Option σ

namespace System

variable {σ : Type u} {ε : Type v} (S : System σ ε)

/-- The states reached by runs of allowed events. -/
inductive Reachable : σ → Prop where
  /-- initial states are reachable -/
  | init {s : σ} : S.init s → Reachable s
  /-- an allowed event that returns leads to a reachable state -/
  | step {s s' : σ} {e : ε} :
    Reachable s → S.allowed s e → S.step s e = some s' → Reachable s'

/-- Keep only the events that also meet `P`. -/
def restrict (P : σ → ε → Prop) : System σ ε where
  init := S.init
  allowed s e := S.allowed s e ∧ P s e
  step := S.step

/-- Execute a list of events. -/
def run : σ → List ε → Option σ
  | s, [] => some s
  | s, e :: es => (S.step s e).bind fun s' => run s' es

/-- Every event of the list is allowed in the state it is issued in. -/
def AllowedRun : σ → List ε → Prop
  | _, [] => True
  | s, e :: es => S.allowed s e ∧ ∀ s', S.step s e = some s' → AllowedRun s' es

/-- Execute a list of events, each of which passes a test. -/
def checkedRun (ok : σ → ε → Bool) : σ → List ε → Option σ
  | s, [] => some s
  | s, e :: es => if ok s e then (S.step s e).bind fun s' => checkedRun ok s' es else none

variable {S}

/-- **The invariant rule.** -/
theorem Reachable.invariant {I : σ → Prop} (hinit : ∀ s, S.init s → I s)
    (hstep : ∀ s e s', I s → S.allowed s e → S.step s e = some s' → I s')
    {s : σ} (h : S.Reachable s) : I s := by
  induction h with
  | init hs => exact hinit _ hs
  | step _ ha hs ih => exact hstep _ _ _ ih ha hs

theorem run_restrict {P : σ → ε → Prop} (s : σ) (es : List ε) :
    (S.restrict P).run s es = S.run s es := by
  induction es generalizing s with
  | nil => rfl
  | cons e es ih => exact congrArg (S.step s e).bind (funext ih)

/-- Runs with fewer events are runs. -/
theorem Reachable.of_restrict {P : σ → ε → Prop} {s : σ} (h : (S.restrict P).Reachable s) :
    S.Reachable s := by
  induction h with
  | init hs => exact .init hs
  | step _ ha hs ih => exact ih.step ha.1 hs

/-- Events that are always allowed make an allowed run. -/
theorem allowedRun_of_forall {es : List ε} (h : ∀ e ∈ es, ∀ s, S.allowed s e) (s : σ) :
    S.AllowedRun s es := by
  induction es generalizing s with
  | nil => trivial
  | cons e es ih =>
    exact ⟨h e mem_cons_self s,
      fun s' _ => ih (fun e' he' => h e' (mem_cons_of_mem _ he')) s'⟩

/-- Runs of allowed events from a reachable state stay in the reachable states. -/
theorem reachable_run {es : List ε} :
    ∀ {s s' : σ}, S.Reachable s → S.AllowedRun s es → S.run s es = some s' →
      S.Reachable s' := by
  induction es with
  | nil =>
    intro s s' hr _ hrun
    cases hrun
    exact hr
  | cons e es ih =>
    intro s s' hr ha hrun
    obtain ⟨s1, h1, hrun⟩ := bind_eq_some_iff.mp hrun
    exact ih (hr.step ha.1 h1) (ha.2 s1 h1) hrun

/-- So do runs of events that pass a test for being allowed. -/
theorem reachable_checkedRun {ok : σ → ε → Bool} (hok : ∀ s e, ok s e = true → S.allowed s e)
    {es : List ε} : ∀ {s s' : σ}, S.Reachable s → S.checkedRun ok s es = some s' →
      S.Reachable s' := by
  induction es with
  | nil =>
    intro s s' hr hrun
    cases hrun
    exact hr
  | cons e es ih =>
    intro s s' hr hrun
    unfold checkedRun at hrun
    split at hrun
    · rename_i hpass
      obtain ⟨s1, h1, hrun⟩ := bind_eq_some_iff.mp hrun
      exact ih (hr.step (hok s e hpass) h1) hrun
    · cases hrun

/-- A run of checked events reaches a state with a property that a computation decides. -/
theorem exists_reachable (ok : σ → ε → Prop) [∀ s e, Decidable (ok s e)] (es : List ε)
    (P : σ → Prop) (hok : ∀ s e, ok s e → S.allowed s e) {s : σ} (hs : S.Reachable s)
    (hrun : ∃ s' ∈ S.checkedRun (fun s e => decide (ok s e)) s es, P s') :
    ∃ s', S.Reachable s' ∧ P s' := by
  obtain ⟨s', hs', hp⟩ := hrun
  have hallowed := fun s e h => hok s e (of_decide_eq_true h)
  exact ⟨s', reachable_checkedRun hallowed hs hs', hp⟩

/-- A run of checked events is a run of allowed ones. -/
theorem allowedRun_of_checkedRun {ok : σ → ε → Bool} (hok : ∀ s e, ok s e = true → S.allowed s e)
    {es : List ε} : ∀ {s s' : σ}, S.checkedRun ok s es = some s' →
      S.AllowedRun s es ∧ S.run s es = some s' := by
  induction es with
  | nil => exact fun hrun => ⟨trivial, hrun⟩
  | cons e es ih =>
    intro s s' hrun
    unfold checkedRun at hrun
    split at hrun
    · rename_i hpass
      obtain ⟨s1, h1, hrun⟩ := bind_eq_some_iff.mp hrun
      obtain ⟨hallowed, hrun⟩ := ih hrun
      refine ⟨⟨hok s e hpass, fun s2 h2 => ?_⟩, bind_eq_some_iff.mpr ⟨s1, h1, hrun⟩⟩
      cases h1.symm.trans h2
      exact hallowed
    · cases hrun

/-- **The simulation rule**: what one system does step by step another can follow. -/
theorem run_simulation {τ : Type u} {T : System τ ε} {R : σ → τ → Prop}
    (hstep : ∀ s t e s', R s t → S.allowed s e → S.step s e = some s' →
      T.allowed t e ∧ ∃ t', T.step t e = some t' ∧ R s' t') {es : List ε} :
    ∀ {s s' : σ} {t : τ}, R s t → S.AllowedRun s es → S.run s es = some s' →
      T.AllowedRun t es ∧ ∃ t', T.run t es = some t' ∧ R s' t' := by
  induction es with
  | nil =>
    intro s s' t hR _ hrun
    cases hrun
    exact ⟨trivial, t, rfl, hR⟩
  | cons e es ih =>
    intro s s' t hR ha hrun
    obtain ⟨s1, h1, hrun⟩ := bind_eq_some_iff.mp hrun
    obtain ⟨hallowed, t1, ht1, hR1⟩ := hstep s t e s1 hR ha.1 h1
    obtain ⟨hrest, t', ht', hR'⟩ := ih hR1 (ha.2 s1 h1) hrun
    refine ⟨⟨hallowed, fun t2 ht2 => ?_⟩, t', bind_eq_some_iff.mpr ⟨t1, ht1, ht'⟩, hR'⟩
    cases ht1.symm.trans ht2
    exact hrest

end System

end PokuOS

import PokuOS.ForkLoop

/-!
# Mapping a run of pages

The kernel backs memory page by page: it takes a frame and calls `map_page`, which takes another
one when the page is the first in its 4 MiB, and says nothing when there is none. What a run of
such steps does depends on the number of free frames alone.

* `Vm.Pooled` — the free frames are apart from the tables that are written.
* `Vm.PagePut` — **one page is mapped**: what the step changes, and that it changes nothing else.
* `Vm.mapNew_cases` — a step finds no frame, or one and no table, or it maps the page.
* `Vm.mapRun_iff`, `Vm.mapRun_enough`, `Vm.mapRun_last` — the run: whether it goes through, and
  whether its last page is there.
-/

namespace PokuOS

open Function List Option

namespace Vm

/-! ## The pool -/

/-- **The free frames are apart** from the loaded directory and its tables for the entries in `S`,
and these tables from one another. -/
structure Pooled (S : Set (Fin 1024)) (vm : Vm) : Prop where
  /-- no frame is free twice -/
  nodup : vm.freeq.Nodup
  /-- the directory is not free -/
  cr3 : vm.cr3 ∉ vm.freeq
  /-- a table is neither the directory nor free -/
  table : ∀ i ∈ S, ∀ e ∈ vm.entry vm.cr3 i, e.frame ≠ vm.cr3 ∧ e.frame ∉ vm.freeq
  /-- every entry has its own table -/
  distinct : ∀ i ∈ S, ∀ i' ∈ S, ∀ e ∈ vm.entry vm.cr3 i, ∀ e' ∈ vm.entry vm.cr3 i',
    e.frame = e'.frame → i = i'

/-- Take a frame and map it at `vaddr`; the flag says whether there was one. -/
def mapNew (user : Bool) (vm : Vm) (vaddr : ℕ) : Bool × Vm :=
  match vm.allocPageFrame with
  | (none, vm) => (false, vm)
  | (some f, vm) => (true, vm.mapPage vaddr f user)

/-- **One page is mapped**: `f` at `vaddr`, in a table that may have been missing. -/
structure PagePut (S : Set (Fin 1024)) (user : Bool) (vaddr f : ℕ) (used : List ℕ)
    (vm vm' : Vm) : Prop where
  /-- the frames taken -/
  freeq : vm.freeq = f :: (used ++ vm'.freeq)
  /-- one for the table, if it was missing -/
  used_eq : used.length = if vm.entry vm.cr3 (pdIdx vaddr) = none then 1 else 0
  cr3 : vm'.cr3 = vm.cr3
  /-- the pool is still apart -/
  pooled : Pooled S vm'
  /-- the table is there -/
  present : ∀ i, vm'.entry vm.cr3 i = none ↔ vm.entry vm.cr3 i = none ∧ i ≠ pdIdx vaddr
  /-- other tables stay -/
  kept : ∀ i, ∀ e ∈ vm.entry vm.cr3 i, vm'.entry vm.cr3 i = some e
  /-- a new one is from the pool -/
  linked : ∀ i, ∀ e ∈ vm'.entry vm.cr3 i, vm.entry vm.cr3 i = none → used = [e.frame]
  /-- nothing else is written -/
  untouched : ∀ g, g ≠ vm.cr3 → g ∉ vm.freeq → (∀ e ∈ vm.entry vm.cr3 (pdIdx vaddr), g ≠ e.frame) →
    vm'.entry g = vm.entry g
  /-- the page is there -/
  self : vm'.lookup vaddr = some ⟨f, true, user⟩
  /-- other pages stay -/
  other : ∀ va, pdIdx va ∈ S → (pdIdx va ≠ pdIdx vaddr ∨ ptIdx va ≠ ptIdx vaddr) →
    vm'.lookup va = vm.lookup va

/-! ## One page -/

section Step

variable {S : Set (Fin 1024)} {vm vm' : Vm} {user : Bool} {vaddr f : ℕ} {i : Fin 1024} {e : Pte}

variable {q : List ℕ}

theorem Pooled.take (h : Pooled S vm) (hfree : vm.freeq = f :: q) (refs : ℕ → ℕ) :
    Pooled S { vm with freeq := q, refCount := refs } := by
  have hsub : ∀ {g}, g ∉ vm.freeq → g ∉ q := fun hg hmem =>
    hg (by rw [hfree]; exact mem_cons_of_mem _ hmem)
  refine ⟨?_, hsub h.cr3, fun i hi e he => (h.table i hi e he).imp_right hsub, h.distinct⟩
  have hnodup := h.nodup
  rw [hfree] at hnodup
  exact (nodup_cons.mp hnodup).2

theorem Pooled.setEntry (h : Pooled S vm) (hi : i ∈ S) (he : vm.entry vm.cr3 i = some e)
    (j : Fin 1024) (p : Option Pte) : Pooled S (vm.setEntry e.frame j p) := by
  have hdir : (vm.setEntry e.frame j p).entry vm.cr3 = vm.entry vm.cr3 :=
    update_of_ne (h.table i hi e he).1.symm ..
  refine ⟨h.nodup, h.cr3, fun i' hi' e' he' => ?_, fun i1 h1 i2 h2 e1 he1 e2 he2 => ?_⟩
  · have he' : e' ∈ (vm.setEntry e.frame j p).entry vm.cr3 i' := he'
    rw [hdir] at he'
    exact h.table i' hi' e' he'
  · have he1 : e1 ∈ (vm.setEntry e.frame j p).entry vm.cr3 i1 := he1
    have he2 : e2 ∈ (vm.setEntry e.frame j p).entry vm.cr3 i2 := he2
    rw [hdir] at he1 he2
    exact h.distinct i1 h1 i2 h2 e1 he1 e2 he2

theorem entry_linkTable_cr3 {pt : ℕ} (hne : pt ≠ vm.cr3) (q : List ℕ) (i' : Fin 1024) :
    (vm.linkTable i pt q).entry vm.cr3 i' =
      if i' = i then some ⟨pt, true, true⟩ else vm.entry vm.cr3 i' := by
  simp only [linkTable, clearTable, Vm.setEntry, update_of_ne hne.symm,
    update_self]
  exact update_apply ..

theorem Pooled.linkTable {pt : ℕ} (h : Pooled S vm) (hfree : vm.freeq = pt :: q) :
    Pooled S (vm.linkTable i pt q) := by
  have hpt : pt ≠ vm.cr3 := fun hc => h.cr3 (by rw [hfree, ← hc]; exact mem_cons_self)
  have hnodup := h.nodup
  rw [hfree] at hnodup
  have hsub : ∀ {g}, g ∉ vm.freeq → g ∉ q := fun hg hmem =>
    hg (by rw [hfree]; exact mem_cons_of_mem _ hmem)
  have hold : ∀ i' ∈ S, ∀ e ∈ vm.entry vm.cr3 i', e.frame ≠ pt := fun i' hi' e he hc =>
    (h.table i' hi' e he).2 (by rw [hfree, ← hc]; exact mem_cons_self)
  -- an entry of the new directory is the new one or an old one
  have hcase : ∀ i', ∀ e ∈ (vm.linkTable i pt q).entry vm.cr3 i',
      (i' = i ∧ e.frame = pt) ∨ e ∈ vm.entry vm.cr3 i' := by
    intro i' e he
    rw [entry_linkTable_cr3 hpt] at he
    by_cases heq : i' = i
    · rw [if_pos heq] at he
      exact .inl ⟨heq, by rw [← some.inj he]⟩
    · rw [if_neg heq] at he
      exact .inr he
  refine ⟨(nodup_cons.mp hnodup).2, hsub h.cr3, fun i' hi' e he => ?_,
    fun i1 h1 i2 h2 e1 he1 e2 he2 heq => ?_⟩
  · rcases hcase i' e he with ⟨-, hframe⟩ | hold
    · rw [hframe]
      exact ⟨hpt, (nodup_cons.mp hnodup).1⟩
    · exact (h.table i' hi' e hold).imp_right hsub
  · rcases hcase i1 e1 he1 with ⟨rfl, hf1⟩ | ho1 <;> rcases hcase i2 e2 he2 with ⟨rfl, hf2⟩ | ho2
    · rfl
    · exact absurd (heq.symm.trans hf1) (hold i2 h2 e2 ho2)
    · exact absurd (heq.trans hf2) (hold i1 h1 e1 ho1)
    · exact h.distinct i1 h1 i2 h2 e1 ho1 e2 ho2 heq

/-- A new table is empty, so nothing more is mapped. -/
theorem Pooled.lookup_linkTable {pt va : ℕ} (h : Pooled S vm) (hfree : vm.freeq = pt :: q)
    (hnone : vm.entry vm.cr3 i = none) (hva : pdIdx va ∈ S) :
    (vm.linkTable i pt q).lookup va = vm.lookup va := by
  have hpt : pt ≠ vm.cr3 := fun hc => h.cr3 (by rw [hfree, ← hc]; exact mem_cons_self)
  have hdir := entry_linkTable_cr3 (i := i) hpt q (pdIdx va)
  have hlookup : (vm.linkTable i pt q).lookup va =
      (vm.linkTable i pt q).entry vm.cr3 (pdIdx va) >>= fun pde =>
        (vm.linkTable i pt q).entry pde.frame (ptIdx va) := rfl
  rw [hlookup, hdir, lookup]
  by_cases heq : pdIdx va = i
  · rw [if_pos heq, heq, hnone]
    simp [Vm.linkTable, clearTable]
  · rw [if_neg heq]
    cases hpde : vm.entry vm.cr3 (pdIdx va) with
    | none => rfl
    | some pde =>
      have hframe := h.table _ hva pde hpde
      have hne : pde.frame ≠ pt := fun hc =>
        hframe.2 (by rw [hfree, hc]; exact mem_cons_self)
      simp only [bind_eq_bind, bind_some, Vm.linkTable, clearTable, Vm.setEntry,
        update_of_ne hne, update_of_ne hframe.1]

/-- A page is mapped in a table that is there. -/
theorem Pooled.lookup_setEntry (h : Pooled S vm) (hi : pdIdx vaddr ∈ S)
    (he : vm.entry vm.cr3 (pdIdx vaddr) = some e) (p : Pte) :
    (vm.setEntry e.frame (ptIdx vaddr) (some p)).lookup vaddr = some p ∧
      ∀ va, pdIdx va ∈ S → (pdIdx va ≠ pdIdx vaddr ∨ ptIdx va ≠ ptIdx vaddr) →
        (vm.setEntry e.frame (ptIdx vaddr) (some p)).lookup va = vm.lookup va := by
  have hdir : (vm.setEntry e.frame (ptIdx vaddr) (some p)).entry vm.cr3 = vm.entry vm.cr3 :=
    update_of_ne (h.table _ hi e he).1.symm ..
  have hlookup : ∀ va, (vm.setEntry e.frame (ptIdx vaddr) (some p)).lookup va =
      vm.entry vm.cr3 (pdIdx va) >>= fun pde =>
        (vm.setEntry e.frame (ptIdx vaddr) (some p)).entry pde.frame (ptIdx va) :=
    fun va => congrArg (· >>= _) (congrFun hdir _)
  refine ⟨?_, fun va hva hne => ?_⟩
  · rw [hlookup, bind_of_some he]
    simp [Vm.setEntry]
  · rw [hlookup, lookup]
    cases hpde : vm.entry vm.cr3 (pdIdx va) with
    | none => rfl
    | some pde =>
      simp only [bind_eq_bind, bind_some, Vm.setEntry]
      by_cases hframe : pde.frame = e.frame
      · have hidx := h.distinct _ hva _ hi pde hpde e he hframe
        rw [hframe, update_self]
        exact update_of_ne (hne.resolve_left fun hc => hc hidx) ..
      · rw [update_of_ne hframe]

theorem Pooled.put (h : Pooled S vm) (hi : pdIdx vaddr ∈ S) {used : List ℕ} {vm0 : Vm}
    (hfree : vm0.freeq = f :: (used ++ vm.freeq)) (hcr3 : vm.cr3 = vm0.cr3)
    (hused : used.length = if vm0.entry vm0.cr3 (pdIdx vaddr) = none then 1 else 0)
    (hpresent : ∀ i, vm.entry vm0.cr3 i = none ↔ vm0.entry vm0.cr3 i = none ∧ i ≠ pdIdx vaddr)
    (hkept : ∀ i, ∀ e ∈ vm0.entry vm0.cr3 i, vm.entry vm0.cr3 i = some e)
    (hlinked : ∀ i, ∀ e ∈ vm.entry vm0.cr3 i, vm0.entry vm0.cr3 i = none → used = [e.frame])
    (huntouched : ∀ g, g ≠ vm0.cr3 → g ∉ vm0.freeq → vm.entry g = vm0.entry g)
    (hother : ∀ va, pdIdx va ∈ S → pdIdx va ≠ pdIdx vaddr ∨ ptIdx va ≠ ptIdx vaddr →
      vm.lookup va = vm0.lookup va)
    (he : vm.entry vm.cr3 (pdIdx vaddr) = some e) :
    PagePut S user vaddr f used vm0 (vm.mapPage vaddr f user) := by
  obtain ⟨hself, hkeep⟩ := h.lookup_setEntry hi he ⟨f, true, user⟩
  rw [mapPage_present he]
  have hdir : (vm.setEntry e.frame (ptIdx vaddr) (some ⟨f, true, user⟩)).entry vm0.cr3 =
      vm.entry vm0.cr3 := by
    rw [← hcr3]
    exact update_of_ne (h.table _ hi e he).1.symm ..
  refine ⟨hfree, hused, hcr3, h.setEntry hi he _ _, fun i => ?_, fun i e' he' => ?_,
    fun i e' he' => ?_, fun g hg hgfree hgne => ?_, hself, fun va hva hne => ?_⟩
  · rw [hdir]
    exact hpresent i
  · rw [hdir]
    exact hkept i e' he'
  · rw [hdir] at he'
    exact hlinked i e' he'
  · rw [← huntouched g hg hgfree]
    refine update_of_ne ?_ ..
    -- the table was there, or it is from the pool
    rw [hcr3] at he
    cases hold : vm0.entry vm0.cr3 (pdIdx vaddr) with
    | none =>
      rintro rfl
      refine hgfree ?_
      rw [hfree, hlinked _ e he hold]
      simp
    | some e0 =>
      obtain rfl := some.inj ((hkept _ e0 hold).symm.trans he)
      exact hgne e0 hold
  · exact (hkeep va hva hne).trans (hother va hva hne)

/-- **What a step does**: there is no frame; there is one, but none for the table that is missing,
and `map_page` returns without a word; or the page is mapped. -/
theorem mapNew_cases (user : Bool) (h : Pooled S vm) (hi : pdIdx vaddr ∈ S) :
    (vm.freeq = [] ∧ vm.mapNew user vaddr = (false, { vm with pressure := true })) ∨
    (∃ f refs, vm.freeq = [f] ∧ vm.entry vm.cr3 (pdIdx vaddr) = none ∧
      vm.mapNew user vaddr = (true, { vm with freeq := [], refCount := refs })) ∨
    ∃ f used vm', vm.mapNew user vaddr = (true, vm') ∧ PagePut S user vaddr f used vm vm' := by
  cases hfree : vm.freeq with
  | nil =>
    refine .inl ⟨rfl, ?_⟩
    simp only [mapNew, allocPageFrame, allocPhysPage, hfree]
  | cons f q =>
    obtain ⟨refs, halloc⟩ := allocPageFrame_cons hfree
    have hstep : vm.mapNew user vaddr =
        (true, ({ vm with freeq := q, refCount := refs } : Vm).mapPage vaddr f user) := by
      simp only [mapNew, halloc]
    have h1 := h.take hfree refs
    generalize hvm1 : ({ vm with freeq := q, refCount := refs } : Vm) = vm1 at hstep h1
    have hcr3 : vm1.cr3 = vm.cr3 := by rw [← hvm1]
    have hentry : vm1.entry = vm.entry := by rw [← hvm1]
    have hq : vm1.freeq = q := by rw [← hvm1]
    cases hpde : vm.entry vm.cr3 (pdIdx vaddr) with
    | some e =>
      refine .inr (.inr ⟨f, [], _, hstep, ?_⟩)
      refine h1.put hi (by rw [hfree, hq]; rfl) hcr3 (by rw [hpde]; rfl) (fun i => ?_)
        (fun i e he => ?_) (fun i e he hnone => ?_) (fun g _ _ => by rw [hentry])
        (fun va _ _ => ?_) (by rw [hcr3, hentry]; exact hpde)
      · rw [hentry, iff_self_and]
        rintro hnone rfl
        cases hpde.symm.trans hnone
      · rw [hentry]
        exact he
      · rw [hentry] at he
        cases hnone.symm.trans he
      · rw [lookup, lookup, hcr3, hentry]
    | none =>
      have hpde1 : vm1.entry vm1.cr3 (pdIdx vaddr) = none := by rw [hcr3, hentry]; exact hpde
      cases q with
      | nil =>
        refine .inr (.inl ⟨f, refs, rfl, rfl, ?_⟩)
        rw [hstep, mapPage_short hpde1 hq, hvm1]
      | cons pt q =>
        have hne : pt ≠ vm1.cr3 := fun hc => h1.cr3 (by rw [hq, ← hc]; exact mem_cons_self)
        have h2 := h1.linkTable (i := pdIdx vaddr) hq
        rw [mapPage_link hpde1 hq hne] at hstep
        have hdir := entry_linkTable_cr3 (i := pdIdx vaddr) hne q
        refine .inr (.inr ⟨f, [pt], _, hstep, ?_⟩)
        refine h2.put hi (by rw [hfree]; rfl) hcr3 (by rw [hpde]; rfl) (fun i => ?_)
          (fun i e he => ?_) (fun i e he hnone => ?_) (fun g hg hgfree => ?_)
          (fun va hva hne' => ?_) ((hdir _).trans (if_pos rfl))
        · rw [← hcr3, hdir, hentry]
          by_cases heq : i = pdIdx vaddr <;> simp [heq]
        · have hneq : i ≠ pdIdx vaddr := by
            rintro rfl
            cases hpde.symm.trans he
          rw [← hcr3, hdir, if_neg hneq, hcr3, hentry]
          exact he
        · rw [← hcr3, hdir, hcr3, hentry, hnone] at he
          split at he
          · rw [← some.inj he]
          · cases he
        · have hgpt : g ≠ pt := by
            rintro rfl
            exact hgfree (by rw [hfree]; simp)
          rw [← hcr3] at hg
          simp only [Vm.linkTable, clearTable, Vm.setEntry, update_of_ne hg,
            update_of_ne hgpt, hentry]
        · rw [h1.lookup_linkTable hq hpde1 hva, lookup, lookup, hcr3, hentry]

/-- A step that fails found no frame. -/
theorem freeq_of_mapNew_false (h : vm.mapNew user vaddr = (false, vm')) : vm'.freeq = [] := by
  cases hfree : vm.freeq with
  | nil =>
    simp only [mapNew, allocPageFrame, allocPhysPage, hfree] at h
    rw [← (Prod.mk.inj h).2]
  | cons f q =>
    obtain ⟨refs, halloc⟩ := allocPageFrame_cons hfree
    simp only [mapNew, halloc] at h
    cases (Prod.mk.inj h).1

/-- A step that succeeds has taken a frame. -/
theorem length_mapNew (h : vm.mapNew user vaddr = (true, vm')) :
    vm'.freeq.length + 1 ≤ vm.freeq.length := by
  cases hfree : vm.freeq with
  | nil =>
    simp only [mapNew, allocPageFrame, allocPhysPage, hfree] at h
    cases (Prod.mk.inj h).1
  | cons f q =>
    obtain ⟨refs, halloc⟩ := allocPageFrame_cons hfree
    simp only [mapNew, halloc] at h
    rw [← (Prod.mk.inj h).2, freeq_mapPage]
    split
    · exact Nat.le_refl _
    · rw [length_tail]
      exact Nat.succ_le_succ (Nat.sub_le _ _)

end Step

/-! ## The run -/

/-- Map pages one after the other, until a frame is missing. -/
def mapRun (user : Bool) : Vm → List ℕ → Bool × Vm
  | vm, [] => (true, vm)
  | vm, vaddr :: vs =>
    match vm.mapNew user vaddr with
    | (false, vm) => (false, vm)
    | (true, vm) => mapRun user vm vs

/-- The entries of the loaded directory that the pages need and that have no table. -/
def missing (vm : Vm) (vs : List ℕ) : Finset (Fin 1024) :=
  {i ∈ (vs.map pdIdx).toFinset | vm.entry vm.cr3 i = none}

section Run

variable {S : Set (Fin 1024)} {vm vm' : Vm} {user : Bool} {vs : List ℕ}

theorem mem_missing {i : Fin 1024} :
    i ∈ vm.missing vs ↔ i ∈ vs.map pdIdx ∧ vm.entry vm.cr3 i = none := by
  simp only [missing, Finset.mem_filter, List.mem_toFinset]

/-- The page that is mapped takes the frame for its table, the others need the rest. -/
theorem PagePut.card_missing {vaddr f : ℕ} {used : List ℕ}
    (h : PagePut S user vaddr f used vm vm') (vs : List ℕ) :
    (vm.missing (vaddr :: vs)).card = used.length + (vm'.missing vs).card := by
  have hmem : ∀ i, i ∈ vm'.missing vs ↔ i ∈ vm.missing vs ∧ i ≠ pdIdx vaddr := by
    intro i
    rw [mem_missing, mem_missing, h.cr3, h.present, and_assoc]
  rw [h.used_eq]
  by_cases hnone : vm.entry vm.cr3 (pdIdx vaddr) = none
  · have hinsert : vm.missing (vaddr :: vs) = insert (pdIdx vaddr) (vm'.missing vs) := by
      ext i
      rw [Finset.mem_insert, hmem, mem_missing, mem_missing, map_cons, mem_cons]
      by_cases heq : i = pdIdx vaddr
      · simp [heq, hnone]
      · simp [heq]
    have hnot : pdIdx vaddr ∉ vm'.missing vs := fun hc => ((hmem _).mp hc).2 rfl
    rw [if_pos hnone, hinsert, Finset.card_insert_of_notMem hnot, Nat.add_comm]
  · have hsame : vm.missing (vaddr :: vs) = vm'.missing vs := by
      ext i
      rw [hmem, mem_missing, mem_missing, map_cons, mem_cons]
      by_cases heq : i = pdIdx vaddr
      · simp [heq, hnone]
      · simp [heq]
    rw [if_neg hnone, hsame, Nat.zero_add]

/-- A run that stops has taken all the frames. -/
theorem freeq_of_mapRun_false : ∀ (vs : List ℕ) (vm : Vm),
    (vm.mapRun user vs).1 = false → (vm.mapRun user vs).2.freeq = [] := by
  intro vs
  induction vs with
  | nil =>
    intro vm hflag
    cases hflag
  | cons vaddr vs ih =>
    intro vm hflag
    rcases hstep : vm.mapNew user vaddr with ⟨_ | _, vm'⟩
    · simp only [mapRun, hstep]
      exact freeq_of_mapNew_false hstep
    · simp only [mapRun, hstep] at hflag ⊢
      exact ih _ hflag

/-- Every page takes a frame, so there are at least as many as pages. -/
theorem length_le_of_mapRun : ∀ (vs : List ℕ) (vm : Vm),
    (vm.mapRun user vs).1 = true → vs.length ≤ vm.freeq.length := by
  intro vs
  induction vs with
  | nil => exact fun vm _ => Nat.zero_le _
  | cons vaddr vs ih =>
    intro vm hflag
    rcases hstep : vm.mapNew user vaddr with ⟨_ | _, vm'⟩
    · simp only [mapRun, hstep] at hflag
      cases hflag
    · simp only [mapRun, hstep] at hflag
      exact (Nat.succ_le_succ (ih _ hflag)).trans (length_mapNew hstep)

/-- **Whether a run goes through**: it needs a frame for every page, and one for every missing
table but that of the last page. -/
theorem mapRun_iff (user : Bool) :
    ∀ (vs : List ℕ) {vm : Vm}, Pooled S vm → (∀ v ∈ vs, pdIdx v ∈ S) →
    ((vm.mapRun user vs).1 = true ↔
      vs.length + (vm.missing vs.dropLast).card ≤ vm.freeq.length) := by
  intro vs
  induction vs with
  | nil =>
    intro vm _ _
    simp [mapRun, missing]
  | cons vaddr vs ih =>
    intro vm h hvs
    have hrest : ∀ v ∈ vs, pdIdx v ∈ S := fun v hv => hvs v (mem_cons_of_mem _ hv)
    rcases mapNew_cases user h (hvs vaddr mem_cons_self) with
      ⟨hfree, hstep⟩ | ⟨f, refs, hfree, -, hstep⟩ | ⟨f, used, vm', hstep, hput⟩
    · simp [mapRun, hstep, hfree]
    · -- the frame was the last one, so the run goes on only if it has ended
      simp only [mapRun, hstep]
      cases vs with
      | nil => simp [mapRun, missing, hfree]
      | cons w vs =>
        simp [mapRun, mapNew, allocPageFrame, allocPhysPage, hfree]
        omega
    · simp only [mapRun, hstep]
      rw [ih hput.pooled hrest, hput.freeq]
      cases vs with
      | nil => simp [missing]
      | cons w vs =>
        have hcard := hput.card_missing (w :: vs).dropLast
        rw [dropLast_cons_cons, hcard]
        simp only [length_cons, length_append]
        omega

/-- **Other pages stay**, however far the run comes. -/
theorem lookup_mapRun (user : Bool) :
    ∀ (vs : List ℕ) {vm : Vm}, Pooled S vm → (∀ v ∈ vs, pdIdx v ∈ S) →
    ∀ va, pdIdx va ∈ S → (∀ v ∈ vs, pdIdx va ≠ pdIdx v ∨ ptIdx va ≠ ptIdx v) →
      (vm.mapRun user vs).2.lookup va = vm.lookup va := by
  intro vs
  induction vs with
  | nil => exact fun _ _ va _ _ => rfl
  | cons vaddr vs ih =>
    intro vm h hvs va hva hne
    have hrest : ∀ v ∈ vs, pdIdx v ∈ S := fun v hv => hvs v (mem_cons_of_mem _ hv)
    have hne' : ∀ v ∈ vs, pdIdx va ≠ pdIdx v ∨ ptIdx va ≠ ptIdx v := fun v hv =>
      hne v (mem_cons_of_mem _ hv)
    rcases mapNew_cases user h (hvs vaddr mem_cons_self) with
      ⟨-, hstep⟩ | ⟨f, refs, hfree, -, hstep⟩ | ⟨f, used, vm', hstep, hput⟩
    · simp only [mapRun, hstep]
      rfl
    · simp only [mapRun, hstep]
      exact ih (h.take hfree refs) hrest va hva hne'
    · simp only [mapRun, hstep]
      exact (ih hput.pooled hrest va hva hne').trans
        (hput.other va hva (hne vaddr mem_cons_self))

/-- **The whole run is mapped**: its pages have frames of the pool, no two the same. -/
structure RunPut (user : Bool) (vs : List ℕ) (vm vm' : Vm) : Prop where
  /-- each page has a frame that was free and is not any more -/
  page : ∀ v ∈ vs, ∃ f ∈ vm.freeq, f ∉ vm'.freeq ∧ vm'.lookup v = some ⟨f, true, user⟩
  /-- different pages have different frames -/
  distinct : ∀ v ∈ vs, ∀ w ∈ vs, ∀ p ∈ vm'.lookup v, ∀ q ∈ vm'.lookup w, p.frame = q.frame → v = w
  /-- frames are only taken -/
  suffix : vm'.freeq <:+ vm.freeq

/-- **With a frame for every page and every missing table, the run is mapped.** -/
theorem mapRun_enough (user : Bool) :
    ∀ (vs : List ℕ) {vm : Vm}, Pooled S vm → (∀ v ∈ vs, pdIdx v ∈ S) →
    vs.Pairwise (fun v w => pdIdx v ≠ pdIdx w ∨ ptIdx v ≠ ptIdx w) →
    vs.length + (vm.missing vs).card ≤ vm.freeq.length →
    RunPut user vs vm (vm.mapRun user vs).2 := by
  intro vs
  induction vs with
  | nil =>
    intro vm _ _ _ _
    refine ⟨?_, ?_, suffix_refl _⟩ <;> exact fun v hv => nomatch hv
  | cons vaddr vs ih =>
    intro vm h hvs hpw hle
    have hrest : ∀ v ∈ vs, pdIdx v ∈ S := fun v hv => hvs v (mem_cons_of_mem _ hv)
    obtain ⟨hfirst, hpw⟩ := pairwise_cons.mp hpw
    rcases mapNew_cases user h (hvs vaddr mem_cons_self) with
      ⟨hfree, -⟩ | ⟨f, refs, hfree, hnone, -⟩ | ⟨f, used, vm', hstep, hput⟩
    · rw [hfree] at hle
      simp at hle
    · have hmem : pdIdx vaddr ∈ vm.missing (vaddr :: vs) := mem_missing.mpr ⟨by simp, hnone⟩
      have := Finset.card_pos.mpr ⟨_, hmem⟩
      rw [hfree] at hle
      simp only [length_cons, length_nil] at hle
      omega
    · have hle' : vs.length + (vm'.missing vs).card ≤ vm'.freeq.length := by
        rw [hput.card_missing, hput.freeq] at hle
        simp only [length_cons, length_append] at hle
        omega
      have hrun := ih hput.pooled hrest hpw hle'
      have hkeep := lookup_mapRun user vs hput.pooled hrest vaddr
        (hvs vaddr mem_cons_self) hfirst
      have hnodup := h.nodup
      simp only [mapRun, hstep]
      generalize hvm2 : (vm'.mapRun user vs).2 = vm2 at hrun hkeep
      rw [hput.self] at hkeep
      have hf : f ∉ vm'.freeq := by
        rw [hput.freeq] at hnodup
        exact fun hc => (nodup_cons.mp hnodup).1 (mem_append_right _ hc)
      have hsub : vm'.freeq <:+ vm.freeq := by
        rw [hput.freeq]
        exact (suffix_append _ _).trans (suffix_cons _ _)
      -- the first page's frame is none of the others'
      have hapart : ∀ w ∈ vs, ∀ q ∈ vm2.lookup w, f ≠ q.frame := by
        intro w hw q hq heq
        obtain ⟨g, hg, -, hlookup⟩ := hrun.page w hw
        rw [hlookup] at hq
        rw [heq, ← some.inj hq] at hf
        exact hf hg
      refine ⟨fun v hv => ?_, fun v hv w hw p hp q hq heq => ?_, hrun.suffix.trans hsub⟩
      · rcases mem_cons.mp hv with rfl | hv
        · refine ⟨f, by rw [hput.freeq]; exact mem_cons_self, ?_, hkeep⟩
          exact fun hc => hf (hrun.suffix.subset hc)
        · obtain ⟨g, hg, hnot, hlookup⟩ := hrun.page v hv
          exact ⟨g, hsub.subset hg, hnot, hlookup⟩
      · rcases mem_cons.mp hv with hv | hv <;> rcases mem_cons.mp hw with hw | hw
        · rw [hv, hw]
        · rw [hv, hkeep] at hp
          rw [← some.inj hp] at heq
          exact absurd heq (hapart w hw q hq)
        · rw [hw, hkeep] at hq
          rw [← some.inj hq] at heq
          exact absurd heq.symm (hapart v hv p hp)
        · exact hrun.distinct v hv w hw p hp q hq heq

/-- **The last page of a run that went through** is there just if there was a frame for its table
as well. -/
theorem mapRun_last (user : Bool) :
    ∀ (vs : List ℕ) {vm : Vm}, Pooled S vm → (∀ v ∈ vs, pdIdx v ∈ S) →
    (vm.mapRun user vs).1 = true → ∀ v ∈ vs.getLast?,
      ((vm.mapRun user vs).2.lookup v).isSome →
        vs.length + (vm.missing vs).card ≤ vm.freeq.length := by
  intro vs
  induction vs with
  | nil => exact fun _ _ _ v hv => nomatch hv
  | cons vaddr vs ih =>
    intro vm h hvs hflag v hv hsome
    have hrest : ∀ v ∈ vs, pdIdx v ∈ S := fun v hv => hvs v (mem_cons_of_mem _ hv)
    rcases mapNew_cases user h (hvs vaddr mem_cons_self) with
      ⟨-, hstep⟩ | ⟨f, refs, hfree, hnone, hstep⟩ | ⟨f, used, vm', hstep, hput⟩
    · simp only [mapRun, hstep] at hflag
      cases hflag
    · simp only [mapRun, hstep] at hflag hsome
      cases vs with
      | nil =>
        -- the page whose table is missing is the last one
        obtain rfl : vaddr = v := by simpa using hv
        have hlookup : vm.lookup vaddr = none := by rw [lookup, hnone]; rfl
        have hsome : (vm.lookup vaddr).isSome := hsome
        rw [hlookup] at hsome
        cases hsome
      | cons w vs =>
        simp only [mapRun, mapNew, allocPageFrame, allocPhysPage] at hflag
        cases hflag
    · simp only [mapRun, hstep] at hflag hsome
      rw [hput.card_missing, hput.freeq]
      simp only [length_cons, length_append]
      cases vs with
      | nil =>
        have hnil : (vm'.missing []).card = 0 := rfl
        rw [hnil, length_nil]
        omega
      | cons w vs =>
        have hle := ih hput.pooled hrest hflag v (by simpa using hv) hsome
        omega

end Run

end Vm

end PokuOS

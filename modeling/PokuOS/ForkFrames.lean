import PokuOS.ForkCopy
import PokuOS.SpaceFrames

/-!
# The frames of a fork

`sys_fork` takes a frame for the directory, maybe one for the table of the pages it copies through,
and a frame for every page and every table. What it took it must give back: when the call fails, and
when the child has ended.

* `Vm.createTaskPd_freeq` — the frames `paging_create_task_pd` takes.
* `Vm.Accounted.copyPages` — the copy loop keeps the account of the new user part.
* `Vm.Accounted.restored_iff` — **a teardown restores the pool just if no frame was lost.**
-/

namespace PokuOS

open Function List

variable {pages : List (ℕ × Pte)}

namespace Vm

/-! ## The directory -/

section Directory

variable {vm vm1 : Vm} {pd : ℕ}

/-- **The frames `paging_create_task_pd` takes.** -/
theorem createTaskPd_freeq (h : vm.pagingCreateTaskPd = some (some pd, vm1)) :
    ∃ w, vm.freeq = pd :: (w ++ vm1.freeq) ∧ w.length = vm.windowFrames := by
  obtain ⟨freeq, refs, vm2, hfree, -, hmap, hpresent, rfl⟩ := createTaskPd_some h
  rw [← hmap] at hpresent
  have hcount : freeq.length = _ := length_mapWindow (by decide) hpresent
  have hsuffix : vm2.freeq <:+ freeq := by
    rw [← hmap, freeq_mapPage]
    split
    · exact suffix_refl _
    · exact tail_suffix _
  obtain ⟨w, hw⟩ := hsuffix
  rw [freeq_unmapPage]
  refine ⟨w, by rw [hfree, ← hw], ?_⟩
  rw [hmap, ← hw, length_append] at hcount
  exact Nat.add_left_cancel ((Nat.add_comm ..).trans hcount)

theorem createTaskPd_none (h : vm.pagingCreateTaskPd = some (none, vm1)) :
    vm.freeq = [] ∧ vm1 = { vm with pressure := true } := by
  unfold pagingCreateTaskPd at h
  cases hfree : vm.freeq with
  | nil =>
    simp only [allocPageFrame, allocPhysPage, hfree] at h
    cases h
    exact ⟨rfl, rfl⟩
  | cons f freeq =>
    obtain ⟨refs, halloc⟩ := allocPageFrame_cons hfree
    rw [halloc] at h
    simp only at h
    split at h
    · cases Option.some.inj h
    · cases h

end Directory

/-! ## The pages -/

section Pages

variable {pool lost : List ℕ} {vm : Vm} {pd wt : ℕ}

section

variable (h : Accounted pool lost vm) (hwt : wt ∉ pool) (hne : wt ≠ vm.cr3)
  (words : Fin 1024 → Option Pte)
include h hwt hne words

/-- A table that is not from the pool is none of the user part. -/
theorem Accounted.lookup_setTable {va : ℕ} (hva : UserIdx (pdIdx va)) :
    (vm.setTable wt words).lookup va = vm.lookup va := by
  have hdir : (vm.setTable wt words).entry vm.cr3 = vm.entry vm.cr3 :=
    update_of_ne hne.symm ..
  have hlookup : (vm.setTable wt words).lookup va = vm.entry vm.cr3 (pdIdx va) >>= fun pde =>
      (vm.setTable wt words).entry pde.frame (ptIdx va) := congrArg (· >>= _) (congrFun hdir _)
  rw [hlookup, lookup]
  cases he : vm.entry vm.cr3 (pdIdx va) with
  | none => rfl
  | some e =>
    have huser : e.frame ∈ vm.userFrames :=
      mem_userFrames_lookup.mpr (.inl ⟨_, hva, e, he, rfl⟩)
    have hframe : e.frame ≠ wt := fun hc =>
      hwt (hc ▸ (h.mem_pool e.frame).mpr (.inr (.inl huser)))
    have hwords : (vm.setTable wt words).entry e.frame = vm.entry e.frame :=
      update_of_ne hframe ..
    exact congrFun hwords _

/-- **Writing to such a table changes nothing in the account.** -/
theorem Accounted.setTable : Accounted pool lost (vm.setTable wt words) := by
  have hdir : (vm.setTable wt words).entry vm.cr3 = vm.entry vm.cr3 :=
    update_of_ne hne.symm ..
  have hword : ∀ i, (vm.setTable wt words).entry (vm.setTable wt words).cr3 i =
      vm.entry vm.cr3 i := congrFun hdir
  refine h.of_eq ⟨h.pooled.nodup, h.pooled.cr3, fun i hi e he => ?_,
    fun i hi i' hi' e he e' he' => ?_⟩ rfl fun g => ?_
  · rw [hword] at he
    exact h.pooled.table i hi e he
  · rw [hword] at he he'
    exact h.pooled.distinct i hi i' hi' e he e' he'
  · exact mem_userFrames_congr (fun i _ => hword i) fun va hva =>
      h.lookup_setTable hwt hne words hva

end

theorem missing_setTable (hne : wt ≠ vm.cr3) (words : Fin 1024 → Option Pte) (vs : List ℕ) :
    (vm.setTable wt words).missing vs = vm.missing vs := by
  have hdir : (vm.setTable wt words).entry vm.cr3 = vm.entry vm.cr3 :=
    update_of_ne hne.symm ..
  ext i
  rw [mem_missing, mem_missing]
  exact and_congr_right fun _ => by rw [← hdir]; rfl

theorem spared_setTable (hne : wt ≠ vm.cr3) (words : Fin 1024 → Option Pte) (vs : List ℕ) :
    (vm.setTable wt words).Spared vs ↔ vm.Spared vs := by
  simp only [Spared, missing_setTable hne]
  rfl

/-- **How far the copy has come**: every page is a copy of one in `done`, and these are all there.
-/
structure Copied (c₀ : Contents) (pool : List ℕ) (done : List (ℕ × Pte)) (vm : Vm) (c : Contents) :
    Prop where
  /-- every page is a copy -/
  page : ∀ va, UserIdx (pdIdx va) → ∀ q ∈ vm.lookup va,
    ∃ p ∈ done, pdIdx p.1 = pdIdx va ∧ ptIdx p.1 = ptIdx va ∧ c q.frame = c₀ p.2.frame
  /-- what was copied is there -/
  mapped : ∀ p ∈ done, UserIdx (pdIdx p.1) ∧ (vm.lookup p.1).isSome
  /-- only frames of the pool are written to -/
  bytes : ∀ g, g ∉ pool → c g = c₀ g

section Copy

variable {c0 c : Contents} {done : List (ℕ × Pte)} {vm' : Vm}

/-- What does not change the user part. -/
theorem Copied.of_lookup (h : Copied c0 pool done vm c)
    (hlookup : ∀ va, UserIdx (pdIdx va) → vm'.lookup va = vm.lookup va) :
    Copied c0 pool done vm' c := by
  refine ⟨fun va hva q hq => ?_, fun p hp => ?_, h.bytes⟩
  · rw [hlookup va hva] at hq
    exact h.page va hva q hq
  · obtain ⟨hva, hsome⟩ := h.mapped p hp
    rw [hlookup p.1 hva]
    exact ⟨hva, hsome⟩

/-- **A page gets its frame, and its bytes.** -/
theorem Copied.put (h : Copied c0 pool done vm c) (hacc : Accounted pool lost vm) {vaddr f : ℕ}
    {used : List ℕ} {pte : Pte} (hput : PagePut userIdxs true vaddr f used vm vm')
    (hva : UserIdx (pdIdx vaddr)) (hold : pte.frame ∉ pool) :
    Copied c0 pool (done ++ [(vaddr, pte)]) vm' (update c f (c pte.frame)) := by
  have hf : f ∈ vm.freeq := by
    rw [hput.freeq]
    exact mem_cons_self
  have hkept : ∀ {va}, UserIdx (pdIdx va) → ¬(pdIdx va = pdIdx vaddr ∧ ptIdx va = ptIdx vaddr) →
      vm'.lookup va = vm.lookup va := fun hva' hne =>
    hput.other _ hva' (Classical.not_and_iff_not_or_not.mp hne)
  refine ⟨fun va hva' q hq => ?_, fun p hp => ?_, fun g hg => ?_⟩
  · by_cases hsame : pdIdx va = pdIdx vaddr ∧ ptIdx va = ptIdx vaddr
    · rw [lookup_congr hsame.1 hsame.2, hput.self] at hq
      cases hq
      refine ⟨_, mem_append_right _ (mem_singleton_self _), hsame.1.symm, hsame.2.symm, ?_⟩
      rw [update_self]
      exact h.bytes _ hold
    · rw [hkept hva' hsame] at hq
      obtain ⟨p, hp, hi, hj, hcopy⟩ := h.page va hva' q hq
      have hne : q.frame ≠ f := fun hc => hacc.apart q.frame
        (mem_userFrames_lookup.mpr (.inr ⟨va, hva', q, hq, rfl⟩)) (hc ▸ hf)
      refine ⟨p, mem_append_left _ hp, hi, hj, ?_⟩
      rw [update_of_ne hne]
      exact hcopy
  · rcases mem_append.mp hp with hp | hp
    · obtain ⟨huser, hsome⟩ := h.mapped p hp
      refine ⟨huser, ?_⟩
      by_cases hsame : pdIdx p.1 = pdIdx vaddr ∧ ptIdx p.1 = ptIdx vaddr
      · rw [lookup_congr hsame.1 hsame.2, hput.self]
        rfl
      · rw [hkept huser hsame]
        exact hsome
    · obtain rfl := mem_singleton.mp hp
      refine ⟨hva, ?_⟩
      rw [hput.self]
      rfl
  · have hne : g ≠ f := by
      rintro rfl
      exact hg ((hacc.mem_pool g).mpr (.inl hf))
    rw [update_of_ne hne]
    exact h.bytes g hg

/-- **How the copy loop ends** that began in `vm` with the pages in `done` copied. -/
structure CopyEnd (c₀ : Contents) (pool : List ℕ) (pd wt : ℕ) (done pages : List (ℕ × Pte))
    (vm : Vm) (ok : Bool) (vm' : Vm) (c' : Contents) (lost : List ℕ) : Prop where
  /-- the child's directory is loaded -/
  cr3 : vm'.cr3 = pd
  /-- where the frames are -/
  accounted : Accounted pool lost vm'
  /-- a frame is lost just if the pages are not spared -/
  spared : lost = [] ↔ vm.Spared (pages.map Prod.fst)
  /-- if all went well, the frames were enough -/
  enough : ok = true → lost = [] →
    pages.length + (vm.missing (pages.map Prod.fst)).card ≤ vm.freeq.length
  /-- and the pages are copied -/
  copied : ok = true → lost = [] → Copied c₀ pool (done ++ pages) vm' c'
  /-- if a frame was lost, a page is missing -/
  missing : ok = true → lost ≠ [] → ∃ p ∈ pages, vm'.lookup p.1 = none
  /-- other frames are not written to -/
  others : ∀ g, g ∉ pool → g ≠ pd → g ≠ wt → vm'.entry g = vm.entry g

/-- The copy loop, a page at a time. -/
theorem copyPagesBytes_cons {vaddr f : ℕ} {pte e : Pte} {q : List ℕ} (hfree : vm.freeq = f :: q)
    (hnew : vm.mapNew true vaddr = (true, vm')) (he : vm'.entry vm'.cr3 896 = some e)
    (hne : e.frame ≠ vm'.cr3) (hold : pte.frame ≠ f) (pages : List (ℕ × Pte)) :
    ∃ words, Vm.copyPagesBytes ((vaddr, pte) :: pages) vm c =
      Vm.copyPagesBytes pages (vm'.setTable e.frame words) (update c f (c pte.frame)) := by
  obtain ⟨refs, halloc⟩ := allocPageFrame_cons hfree
  simp only [mapNew, halloc] at hnew
  obtain rfl := (Prod.mk.inj hnew).2
  obtain ⟨words, hcopy⟩ := vmCopyPhys_window he hne c hold
  refine ⟨words, ?_⟩
  simp only [Vm.copyPagesBytes, halloc, hcopy, Option.bind_eq_bind, Option.bind_some]

theorem copyPagesBytes_nil {p : ℕ × Pte} (hfree : vm.freeq = []) (pages : List (ℕ × Pte)) :
    Vm.copyPagesBytes (p :: pages) vm c = some (false, { vm with pressure := true }, c) := by
  simp only [Vm.copyPagesBytes, allocPageFrame, allocPhysPage, hfree]

/-- **The copy loop** keeps the account, loses a frame just if the pages are not spared, and copies
the pages otherwise. -/
theorem Accounted.copyPages (hwt : wt ∉ pool) (hne : wt ≠ pd) (pages : List (ℕ × Pte)) :
    ∀ {done vm c}, Accounted pool [] vm → Copied c0 pool done vm c → vm.cr3 = pd →
    (∃ e, vm.entry pd 896 = some e ∧ e.frame = wt) →
    (∀ p ∈ pages, UserIdx (pdIdx p.1) ∧ p.2.frame ∉ pool) →
    (pages.map Prod.fst).Pairwise (fun v w => pdIdx v ≠ pdIdx w ∨ ptIdx v ≠ ptIdx w) →
    (∀ p ∈ pages, vm.lookup p.1 = none) →
    ∃ ok vm' c' lost, Vm.copyPagesBytes pages vm c = some (ok, vm', c') ∧
      CopyEnd c0 pool pd wt done pages vm ok vm' c' lost := by
  induction pages with
  | nil =>
    intro done vm c h hcopied hcr3 _ _ _ _
    refine ⟨true, vm, c, [], rfl, hcr3, h, iff_of_true rfl (.inl (Nat.zero_le _)),
      fun _ _ => Nat.zero_le _, fun _ _ => ?_, fun _ hc => absurd rfl hc, fun _ _ _ _ => rfl⟩
    rw [append_nil]
    exact hcopied
  | cons p pages ih =>
    intro done vm c h hcopied hcr3 hwindow hpages hpw hnew
    obtain ⟨vaddr, pte⟩ := p
    obtain ⟨hva, hold⟩ := hpages _ mem_cons_self
    have hrest : ∀ p ∈ pages, UserIdx (pdIdx p.1) ∧ p.2.frame ∉ pool := fun q hq =>
      hpages q (mem_cons_of_mem _ hq)
    obtain ⟨hfirst, hpw⟩ := pairwise_cons.mp hpw
    obtain ⟨e, he, hframe⟩ := hwindow
    rcases mapNew_cases true h.pooled hva with
      ⟨hfree, -⟩ | ⟨f, refs, hfree, hnone, hstep⟩ | ⟨f, used, vm', hstep, hput⟩
    · exact ⟨false, _, c, [], copyPagesBytes_nil hfree pages, hcr3, h.pressed true,
        iff_of_true rfl (spared_of_freeq_nil hfree _), nofun, nofun, nofun, fun _ _ _ _ => rfl⟩
    · -- the frame is lost, and the loop ends at the next page
      have hpool : f ∈ pool := (h.mem_pool f).mpr (.inl (by rw [hfree]; simp))
      have hlost := h.lose hfree refs
      have hne' : pte.frame ≠ f := fun hc => hold (hc ▸ hpool)
      generalize hvm1 : ({ vm with freeq := [], refCount := refs } : Vm) = vm1 at hlost hstep
      have hcr31 : vm1.cr3 = pd := by rw [← hvm1]; exact hcr3
      have he1 : vm1.entry vm1.cr3 896 = some e := by rw [hcr31, ← hvm1]; exact he
      have hframe1 : e.frame ≠ vm1.cr3 := by rw [hcr31, hframe]; exact hne
      obtain ⟨words, hloop⟩ := copyPagesBytes_cons (c := c) hfree hstep he1 hframe1 hne' pages
      rw [hframe] at hloop hframe1
      have hafter := hlost.setTable hwt hframe1 words
      have hempty : (vm1.setTable wt words).freeq = [] := by rw [← hvm1]; rfl
      have hmissing : (vm1.setTable wt words).lookup vaddr = none := by
        rw [hlost.lookup_setTable hwt hframe1 words hva, ← hvm1]
        exact hnew _ mem_cons_self
      have hnot : [f] = [] ↔ vm.Spared (((vaddr, pte) :: pages).map Prod.fst) :=
        iff_of_false nofun (not_spared hfree hnone _)
      have hothers : ∀ g, g ∉ pool → g ≠ pd → g ≠ wt →
          (vm1.setTable wt words).entry g = vm.entry g := by
        intro g _ _ hg
        rw [← hvm1]
        exact update_of_ne hg ..
      rw [hloop]
      cases pages with
      | nil =>
        exact ⟨true, _, _, [f], rfl, hcr31, hafter, hnot, fun _ => nofun, fun _ => nofun,
          fun _ _ => ⟨_, mem_cons_self, hmissing⟩, hothers⟩
      | cons q pages =>
        exact ⟨false, _, _, [f], copyPagesBytes_nil hempty pages, hcr31, hafter.pressed true, hnot,
          nofun, nofun, nofun, hothers⟩
    · have hpool : f ∈ pool := (h.mem_pool f).mpr (.inl (by rw [hput.freeq]; simp))
      have hne' : pte.frame ≠ f := fun hc => hold (hc ▸ hpool)
      have hacc := h.put hput hva (hnew _ mem_cons_self)
      have hcr3' : vm'.cr3 = pd := hput.cr3.trans hcr3
      have he' : vm'.entry vm'.cr3 896 = some e := by
        rw [hput.cr3]
        exact hput.kept 896 e (by rw [hcr3]; exact he)
      have hframe' : e.frame ≠ vm'.cr3 := by rw [hcr3', hframe]; exact hne
      obtain ⟨words, hloop⟩ := copyPagesBytes_cons (c := c) hput.freeq hstep he' hframe' hne' pages
      rw [hframe] at hloop hframe'
      have hcopied' := (hcopied.put h hput hva hold).of_lookup fun va hva' =>
        hacc.lookup_setTable hwt hframe' words hva'
      have hnext : ∀ p ∈ pages, (vm'.setTable wt words).lookup p.1 = none := fun p hp => by
        have hidx := hfirst p.1 (mem_map_of_mem hp)
        rw [hacc.lookup_setTable hwt hframe' words (hrest p hp).1,
          hput.other p.1 (hrest p hp).1 (hidx.imp Ne.symm Ne.symm)]
        exact hnew p (mem_cons_of_mem _ hp)
      have hwindow' : ∃ e, (vm'.setTable wt words).entry pd 896 = some e ∧ e.frame = wt := by
        refine ⟨e, ?_, hframe⟩
        rw [← hcr3']
        exact (congrFun (update_of_ne hframe'.symm ..) _).trans he'
      obtain ⟨ok, vm2, c2, lost, hrun, hend⟩ :=
        ih (hacc.setTable hwt hframe' words) hcopied' hcr3' hwindow' hrest hpw hnext
      refine ⟨ok, vm2, c2, lost, hloop.trans hrun, hend.cr3, hend.accounted, hend.spared.trans ?_,
        fun hok hlost => ?_, fun hok hlost => ?_, fun hok hlost => ?_, fun g hg hgpd hgwt => ?_⟩
      · rw [spared_setTable hframe', map_cons, hput.spared_iff]
      · have hle := hend.enough hok hlost
        rw [missing_setTable hframe'] at hle
        have hlen : vm.freeq.length = used.length + vm'.freeq.length + 1 := by
          rw [hput.freeq, length_cons, length_append]
        have hle' : pages.length + (vm'.missing (pages.map Prod.fst)).card ≤ vm'.freeq.length := hle
        rw [map_cons, hput.card_missing, length_cons]
        omega
      · rw [append_cons]
        exact hend.copied hok hlost
      · obtain ⟨p, hp, hnone⟩ := hend.missing hok hlost
        exact ⟨p, mem_cons_of_mem _ hp, hnone⟩
      · have hstep : (vm'.setTable wt words).entry g = vm'.entry g := update_of_ne hgwt ..
        rw [hend.others g hg hgpd hgwt, hstep]
        exact h.untouched hput hva hg (by rw [hcr3]; exact hgpd)

end Copy

/-! ## Giving it back -/

section

variable (h : Accounted pool lost vm) (hcounted : vm.Counted) (hpool : ∀ g ∈ pool, inPool g)
  (hcr3 : inPool vm.cr3)
include h hcounted hpool hcr3

theorem Accounted.mem_teardown (target g : ℕ) :
    g ∈ (vm.teardownCurrentPd vm.cr3 target).freeq ↔
      g = vm.cr3 ∨ g ∈ vm.userFrames ∨ g ∈ vm.freeq := by
  have htables : ∀ i, UserIdx i → ∀ e ∈ vm.entry vm.cr3 i, e.frame ≠ vm.cr3 := fun i hi e he =>
    (h.pooled.table i hi e he).1
  rw [freeq_teardown vm.cr3 target htables fun f _ => hcounted f, mem_append,
    mem_reverse, mem_filter, mem_append, mem_singleton]
  constructor
  · rintro (⟨hg | hg, -⟩ | hg)
    · exact .inr (.inl hg)
    · exact .inl hg
    · exact .inr (.inr hg)
  · rintro (hg | hg | hg)
    · exact .inl ⟨.inr hg, hg ▸ hcr3⟩
    · exact .inl ⟨.inl hg, hpool g ((h.mem_pool g).mpr (.inr (.inl hg)))⟩
    · exact .inr hg

/-- **A teardown restores the pool just if no frame was lost**, here the frames that were free
before the directory was made: `w` are those that are neither the directory nor in the pool. -/
theorem Accounted.restored_iff {w : List ℕ} (hnodup : (vm.cr3 :: (w ++ pool)).Nodup) (target : ℕ) :
    (∀ g, g ∈ (vm.teardownCurrentPd vm.cr3 target).freeq ↔ g ∈ vm.cr3 :: (w ++ pool)) ↔
      w = [] ∧ lost = [] := by
  have hmem := h.mem_teardown hcounted hpool hcr3 target
  generalize vm.teardownCurrentPd vm.cr3 target = vm' at hmem
  obtain ⟨hdir, hnodup⟩ := nodup_cons.mp hnodup
  obtain ⟨-, -, hapart⟩ := nodup_append.mp hnodup
  simp only [mem_cons, mem_append, not_or] at hdir ⊢
  constructor
  · intro hall
    rw [eq_nil_iff_forall_not_mem, eq_nil_iff_forall_not_mem]
    refine ⟨fun g hg => ?_, fun g hg => ?_⟩
    · rcases (hmem g).mp ((hall g).mpr (.inr (.inl hg))) with hc | hc | hc
      · exact hdir.1 (hc ▸ hg)
      · exact hapart g hg g ((h.mem_pool g).mpr (.inr (.inl hc))) rfl
      · exact hapart g hg g ((h.mem_pool g).mpr (.inl hc)) rfl
    · obtain ⟨hfree, huser⟩ := h.astray g hg
      have hin : g ∈ pool := (h.mem_pool g).mpr (.inr (.inr hg))
      rcases (hmem g).mp ((hall g).mpr (.inr (.inr hin))) with hc | hc | hc
      · exact hdir.2 (hc ▸ hin)
      · exact huser hc
      · exact hfree hc
  · rintro ⟨rfl, rfl⟩ g
    rw [hmem, h.mem_pool]
    simp only [not_mem_nil, or_false, false_or]
    rw [or_comm (a := g ∈ vm.userFrames)]

end

end Pages

/-! ## `sys_fork` -/

section

variable {vm : Vm} (hnone : ∀ i, UserIdx i → vm.entry vm.cr3 i = none)
  (hpages : ∀ p ∈ pages, UserIdx (pdIdx p.1))
include hnone hpages

/-- A directory with no tables misses them all. -/
theorem missing_new : vm.missing (pages.map Prod.fst) = tablesOf pages := by
  ext i
  simp only [mem_missing, tablesOf, map_map, mem_toFinset]
  refine and_iff_left_of_imp fun hi => ?_
  obtain ⟨p, hp, rfl⟩ := mem_map.mp hi
  exact hnone _ (hpages p hp)

theorem spared_new :
    vm.Spared (pages.map Prod.fst) ↔
      pages.length + (tablesOf pages).card ≤ vm.freeq.length ∨
        ∃ m ≤ pages.length, m + (tablesOf (pages.take m)).card = vm.freeq.length := by
  have htake : ∀ m, vm.missing ((pages.map Prod.fst).take m) = tablesOf (pages.take m) := by
    intro m
    rw [← map_take]
    exact missing_new hnone fun p hp => hpages p (mem_of_mem_take hp)
  simp only [Spared, length_map, htake, missing_new hnone hpages]

end

theorem accounted_new {owner : ℕ → Option Owner} {h : Holders} {vm : Vm} {pd : ℕ}
    (ho : Owned owner h vm) (hdir : owner pd = some .dir)
    (hnone : ∀ i, UserIdx i → vm.entry pd i = none) :
    Accounted vm.freeq [] (vm.loadCr3 pd) := by
  have hnone' : ∀ i, UserIdx i → (vm.loadCr3 pd).entry (vm.loadCr3 pd).cr3 i = none := hnone
  have hempty : ∀ g, g ∉ (vm.loadCr3 pd).userFrames := by
    intro g hg
    obtain ⟨i, hi, e, he, -⟩ := mem_userFrames.mp hg
    cases (hnone' i hi).symm.trans he
  refine ⟨⟨ho.nodup, ho.not_mem_free hdir, fun i hi e he => ?_, fun i hi _ _ e he => ?_⟩,
    fun g => ?_, fun g hg => absurd hg (hempty g), nofun⟩
  · cases (hnone' i hi).symm.trans he
  · cases (hnone' i hi).symm.trans he
  · have hfree : (vm.loadCr3 pd).freeq = vm.freeq := rfl
    rw [hfree]
    simp [hempty g]

/-- **The fork loses no frame**: the table of the pages it copies through is there, and the frames
are enough, or are used up when the directory and some of the pages are done. -/
def ForkSpared (vm : Vm) : Prop :=
  vm.windowFrames = 0 ∧ (vm.forkFrames ≤ vm.freeq.length ∨
    ∃ m ≤ vm.userPages.length, 1 + m + (tablesOf (vm.userPages.take m)).card = vm.freeq.length)

instance (vm : Vm) : Decidable vm.ForkSpared := inferInstanceAs (Decidable (_ ∧ _))

end Vm

variable {pid : ℤ} {sb : SandboxConfig} {child : Fin maxTasks}

namespace Kernel

variable {owner : ℕ → Option Owner} {dirs : Set ℕ} {cache : List (Option CacheSlot)} {top : ℕ}
  {k : Kernel} {pd : ℕ} {vm1 : Vm}

/-- **The copy loop of a fork runs**, in a directory whose user part is empty. -/
theorem Isolated.copyLoop (hk : k.Isolated owner dirs cache top) (c : Contents)
    (hpd : k.vm.pagingCreateTaskPd = some (some pd, vm1)) :
    ∃ wt owner1 ok vm2 c' lost,
      Owned owner1 ⟨insert pd dirs, ∅, cache, top, fun _ => Set.univ, False⟩ vm1 ∧
      owner1 pd = some .dir ∧ owner1 wt = some (.kernelTable 896) ∧
      (vm1.loadCr3 pd).copyPagesBytes k.vm.userPages c = some (ok, vm2, c') ∧
      Vm.CopyEnd c vm1.freeq pd wt [] k.vm.userPages (vm1.loadCr3 pd) ok vm2 c' lost ∧
      (lost = [] ↔ k.vm.userPages.length + (tablesOf k.vm.userPages).card ≤ vm1.freeq.length ∨
        ∃ m ≤ k.vm.userPages.length, m + (tablesOf (k.vm.userPages.take m)).card =
          vm1.freeq.length) ∧
      (ok = true → lost = [] →
        k.vm.userPages.length + (tablesOf k.vm.userPages).card ≤ vm1.freeq.length) := by
  obtain ⟨hsame, hnone, -, -⟩ := hk.owned.createTaskPd_eq hk.loaded hpd
  obtain ⟨wt, hwindow, hwt_notMem, hne, owner1, ho1, hdir, hwt⟩ := hk.newSpace hpd
  have hpages := notMem_pool_of_userPages hk hsame ho1 (Set.subset_insert ..)
  have hempty : ∀ va, UserIdx (pdIdx va) → (vm1.loadCr3 pd).lookup va = none := fun va hva => by
    simp only [Vm.lookup, Vm.cr3_loadCr3, Vm.entry_loadCr3, hnone _ hva]
    rfl
  have hstart : Vm.Copied c vm1.freeq [] (vm1.loadCr3 pd) c :=
    ⟨fun va hva q hq => (by cases (hempty va hva).symm.trans hq), fun _ hp => (by cases hp),
      fun _ _ => rfl⟩
  obtain ⟨ok, vm2, c', lost, hloop, hend⟩ :=
    Vm.Accounted.copyPages hwt_notMem hne k.vm.userPages
      (Vm.accounted_new ho1 hdir hnone) hstart rfl
      hwindow hpages k.vm.pairwise_userPages fun p hp => hempty p.1 (hpages p hp).1
  have hidx : ∀ p ∈ k.vm.userPages, UserIdx (pdIdx p.1) := fun p hp => (hpages p hp).1
  refine ⟨wt, owner1, ok, vm2, c', lost, ho1, hdir, hwt, hloop, hend,
    hend.spared.trans (Vm.spared_new hnone hidx), fun hok hlost => ?_⟩
  have hle := hend.enough hok hlost
  rw [Vm.missing_new hnone hidx] at hle
  exact hle

/-- **The loop leaves other directories alone.** -/
theorem lookup_copyEnd {c c' : Contents} {wt : ℕ} {ok : Bool} {vm2 vm3 : Vm} {lost : List ℕ}
    {holders : Holders}
    (hend : Vm.CopyEnd c vm1.freeq pd wt [] pages (vm1.loadCr3 pd) ok vm2 c' lost)
    (ho : Owned owner holders vm1) (hdir : owner pd = some .dir)
    (hwt : owner wt = some (.kernelTable 896)) (hkept : ∀ g, g ≠ pd → vm3.entry g = vm2.entry g)
    {d va : ℕ} (hd : d ∈ holders.dirs) (hne : d ≠ pd) (hva : UserIdx (pdIdx va)) :
    (vm3.loadCr3 d).lookup va = (vm1.loadCr3 d).lookup va :=
  ho.lookup_apart hdir hwt (fun g hg hgpd hgwt => (hkept g hgpd).trans
    (hend.others g hg hgpd hgwt)) hd hne hva

/-- **What a fork's copy loop leaves to undo**: a teardown of what it made restores the pool just if
the fork is spared; other directories are what they were. If all pages were copied, the fork is
spared if the frames were enough. -/
theorem Isolated.forkLoop (hk : k.Isolated owner dirs cache top) (hcounted : k.vm.Counted)
    (hpd : k.vm.pagingCreateTaskPd = some (some pd, vm1)) :
    ∃ ok vm2, (vm1.loadCr3 pd).copyPages k.vm.userPages = some (ok, vm2) ∧ vm2.cr3 = pd ∧
      (∀ target, (∀ g, g ∈ (vm2.teardownCurrentPd pd target).freeq ↔ g ∈ k.vm.freeq) ↔
        k.vm.ForkSpared) ∧
      (∀ target d va, d ∈ dirs → UserIdx (pdIdx va) →
        ((vm2.teardownCurrentPd pd target).loadCr3 d).lookup va = (k.vm.loadCr3 d).lookup va) ∧
      (ok = true → k.vm.ForkSpared → k.vm.forkFrames ≤ k.vm.freeq.length) := by
  obtain ⟨hsame, -, -, -⟩ := hk.owned.createTaskPd_eq hk.loaded hpd
  obtain ⟨wt, owner1, ok, vm2, c', lost, ho1, hdir, hwt, hbytes, hend, hnew, henough⟩ :=
    hk.copyLoop (fun _ _ => 0) hpd
  have hloop : (vm1.loadCr3 pd).copyPages k.vm.userPages = some (ok, vm2) := by
    rw [← Vm.copyPages_eq _ _ fun _ _ => 0, hbytes]
    rfl
  have hcounted2 : vm2.Counted := by
    have ho : Owned owner ⟨dirs, ∅, cache, top, fun _ => Set.univ, True⟩ k.vm :=
      hk.owned.reroom (fun _ _ _ _ _ _ _ _ _ => trivial) fun _ => hcounted
    obtain ⟨-, -, hsome⟩ := ho.createTaskPd hk.loaded _ hpd
    obtain ⟨-, -, _, hnew⟩ := hsome pd rfl
    obtain ⟨⟨_, hcopied⟩, -⟩ := Owned.copyPages _ (fun _ hp => (Vm.lookup_of_userPages hp).1)
      (hnew.loadCr3 pd) (Set.mem_insert ..) (fun _ _ => trivial) _ hloop
    exact hcopied.counts trivial
  obtain ⟨w, hfree, hwlen⟩ := Vm.createTaskPd_freeq hpd
  have hlen : k.vm.freeq.length = k.vm.windowFrames + vm1.freeq.length + 1 := by
    rw [hfree, length_cons, length_append, hwlen]
  -- the fork is spared just if its loop is, and nothing else was taken
  have hspared : k.vm.ForkSpared ↔ k.vm.windowFrames = 0 ∧ lost = [] := by
    rw [Vm.ForkSpared, hnew, Vm.forkFrames]
    refine and_congr_right fun hwin =>
      or_congr ?_ (exists_congr fun m => and_congr_right fun _ => ?_)
    · omega
    · omega
  refine ⟨ok, vm2, hloop, hend.cr3, fun target => ?_, fun target d va hd hva => ?_,
    fun hok hsp => ?_⟩
  · have hinPool : ∀ {g}, g ∈ frames → inPool g := fun hg => by
      simp only [inPool, Bool.and_eq_true, decide_eq_true_eq]
      exact hg
    have hnodup := hk.owned.nodup
    have hdirPool : inPool vm2.cr3 := by
      rw [hend.cr3]
      exact hinPool (ho1.owned hdir)
    rw [hfree, ← hend.cr3] at hnodup
    have hrestored := hend.accounted.restored_iff hcounted2
      (fun g hg => hinPool (ho1.freeNone g hg).1) hdirPool hnodup target
    rw [hend.cr3] at hrestored
    rw [hspared, hfree, ← hwlen, length_eq_zero_iff]
    exact hrestored
  · obtain ⟨-, -, hsome⟩ := hk.owned.createTaskPd hk.loaded _ hpd
    have hne : d ≠ pd := fun hc => (hsome pd rfl).1 (hc ▸ hd)
    have htables : ∀ i, UserIdx i → ∀ e ∈ vm2.entry vm2.cr3 i, e.frame ≠ vm2.cr3 :=
      fun i hi e he => (hend.accounted.pooled.table i hi e he).1
    obtain ⟨-, -, hkept, -⟩ := Vm.entry_teardown target htables
    rw [hend.cr3] at hkept
    have hafter : ∀ g, g ≠ pd → (vm2.teardownCurrentPd pd target).entry g = vm2.entry g :=
      fun g hg => funext fun i => hkept g i fun hc => hg hc.1
    generalize vm2.teardownCurrentPd pd target = vm3 at hafter
    rw [lookup_copyEnd hend ho1 hdir hwt hafter (Set.mem_insert_of_mem _ hd) hne hva]
    exact Owned.SameUser.lookup hk.owned hsame hd hva
  · have hle := henough hok (hspared.mp hsp).2
    have := (hspared.mp hsp).1
    rw [Vm.forkFrames]
    omega

/-! ## The child's life -/

/-- Tasks run one after the other and leave the frames alone. -/
def switches : List TaskPtr → Kernel → Option Kernel
  | [], k => some k
  | t :: ts, k => k.switchTo t >>= switches ts

variable {k' : Kernel}

/-- A switch loads the directory of the task. -/
theorem switchTo_eq {t : TaskPtr} (h : k.switchTo t = some k') :
    k'.vm = k.vm.loadCr3 (k.sched.task t).cr3 ∧ k'.sched.currentTask = t ∧
      ∀ u, (k'.sched.task u).cr3 = (k.sched.task u).cr3 := by
  unfold switchTo at h
  split at h
  · cases h
    refine ⟨?_, rfl, fun u => (Housed.task_switchToTask k.sched t u).1⟩
    exact congrArg k.vm.loadCr3 (Housed.task_switchToTask k.sched t t).1
  · cases h

/-- Switches change nothing but the loaded directory. -/
theorem switches_eq (ts : List TaskPtr) : ∀ {k k' : Kernel}, k.switches ts = some k' →
    (∃ pd, k'.vm = k.vm.loadCr3 pd) ∧ ∀ u, (k'.sched.task u).cr3 = (k.sched.task u).cr3 := by
  induction ts with
  | nil =>
    intro k k' h
    cases h
    exact ⟨⟨k.vm.cr3, rfl⟩, fun _ => rfl⟩
  | cons t ts ih =>
    intro k k' h
    obtain ⟨k1, hfirst, hrest⟩ := Option.bind_eq_some_iff.mp h
    obtain ⟨hvm, -, htasks⟩ := switchTo_eq hfirst
    obtain ⟨⟨pd, hpd⟩, htasks'⟩ := ih hrest
    refine ⟨⟨pd, ?_⟩, fun u => (htasks' u).trans (htasks u)⟩
    rw [hpd, hvm]
    rfl

theorem switches_append (ts us : List TaskPtr) : ∀ k : Kernel,
    k.switches (ts ++ us) = k.switches ts >>= switches us := by
  induction ts with
  | nil => exact fun k => rfl
  | cons t ts ih =>
    intro k
    rw [cons_append, switches, switches]
    cases k.switchTo t with
    | none => rfl
    | some k1 => exact ih k1

theorem freeq_schedule (h : k.schedule = some k') : k'.vm.freeq = k.vm.freeq := by
  obtain ⟨s, -, hk'⟩ := Option.bind_eq_some_iff.mp h
  cases hk'
  rfl

/-- `task_exit` takes the directory of the running task down. -/
theorem freeq_taskExit {code : ℤ} (h : k.taskExit code = some k') :
    k'.vm.freeq = (k.vm.teardownCurrentPd (k.sched.task k.sched.currentTask).cr3
      k.sched.pageDirectory).freeq := by
  obtain ⟨s, -, hsched⟩ := Option.bind_eq_some_iff.mp h
  exact freeq_schedule hsched

theorem freeq_sysWait (h : k.sysWait pid = some k') : k'.vm.freeq = k.vm.freeq := by
  unfold sysWait at h
  split at h
  · rw [← Option.some.inj h]
  · split at h
    · rw [← Option.some.inj h]
    · obtain ⟨s, -, hsched⟩ := Option.bind_eq_some_iff.mp h
      have hfree := freeq_schedule hsched
      exact hfree

/-- A fork that returns a task has made its directory. -/
theorem sysFork_pos (h : k.sysFork sb = some (pid, k')) (hpos : 0 < pid) :
    ∃ child pd vm1 vm2, k.sched.createTaskSlot.1 = some child ∧
      k.vm.pagingCreateTaskPd = some (some pd, vm1) ∧
      (vm1.loadCr3 pd).copyPages k.vm.userPages = some (true, vm2) ∧
      (∃ cr3, k'.vm = vm2.loadCr3 cr3) ∧ (k'.sched.task (.slot child)).cr3 = pd := by
  rw [← sysFork_eq k fun _ _ => 0] at h
  obtain ⟨⟨r, c'⟩, hbytes, hr⟩ := Option.map_eq_some_iff.mp h
  obtain ⟨child, s, fields, pd, vm1, vm2, hslot, -, hpd, hcopy, hend⟩ :=
    sysForkBytes_pos _ hbytes (by rw [show r = (pid, k') from hr]; exact hpos)
  obtain ⟨hvm, hcr3, -, -, -⟩ := forkEnd_true _ _ _ _ _ hend
  rw [show r = (pid, k') from hr] at hvm hcr3
  refine ⟨child, pd, vm1, vm2, by rw [hslot], hpd, ?_, ⟨_, hvm⟩, hcr3⟩
  rw [← Vm.copyPages_eq _ _ fun _ _ => 0, hcopy]
  rfl

/-- **The frames of a child that has lived and ended**: all are free again just if the fork had
frames for everything, and the table of the pages it copies through was there. -/
theorem Isolated.forkExit (hk : k.Isolated owner dirs cache top) (hcounted : k.vm.Counted)
    {k1 k2 k3 : Kernel} (hfork : k.sysFork sb = some (pid, k1)) (hpos : 0 < pid)
    (hslot : k.sched.createTaskSlot.1 = some child) {ts : List TaskPtr}
    (hrun : k1.switches (ts ++ [.slot child]) = some k2) {code : ℤ}
    (hexit : k2.taskExit code = some k3) :
    (∀ f, f ∈ k3.vm.freeq ↔ f ∈ k.vm.freeq) ↔
      k.vm.windowFrames = 0 ∧ k.vm.forkFrames ≤ k.vm.freeq.length := by
  obtain ⟨child', pd, vm1, vm2, hslot', hpd, hcopy, ⟨cr3, hvm⟩, hcr3⟩ := sysFork_pos hfork hpos
  obtain rfl : child = child' := Option.some.inj (hslot.symm.trans hslot')
  obtain ⟨ok, vm2', hcopy', hloaded, hrestored, -, henough⟩ := hk.forkLoop hcounted hpd
  obtain ⟨rfl, rfl⟩ := Prod.mk.inj (Option.some.inj (hcopy.symm.trans hcopy'))
  -- the child runs in the directory the loop has filled
  rw [switches_append] at hrun
  obtain ⟨k1', hfirst, hlast⟩ := Option.bind_eq_some_iff.mp hrun
  obtain ⟨k2', hswitch, hnil⟩ := Option.bind_eq_some_iff.mp hlast
  obtain rfl := Option.some.inj hnil
  obtain ⟨⟨pd', hvm1⟩, htasks1⟩ := switches_eq ts hfirst
  obtain ⟨hvm2, hcurrent, htasks2⟩ := switchTo_eq hswitch
  have hdir : (k2'.sched.task k2'.sched.currentTask).cr3 = pd := by
    rw [hcurrent, htasks2, htasks1, hcr3]
  have hvm2' : k2'.vm = vm2 := by
    rw [hvm2, htasks1, hcr3, hvm1, hvm, ← hloaded]
    rfl
  have hfree := freeq_taskExit hexit
  rw [hdir, hvm2'] at hfree
  rw [hfree, hrestored]
  constructor
  · exact fun hsp => ⟨hsp.1, henough rfl hsp⟩
  · exact fun hboth => ⟨hboth.1, .inl hboth.2⟩

end Kernel

/-! ## Exact teardowns -/

/-- **A child that has run, ended and been waited for.** -/
theorem FrameState.Isolated.forkWait {st : FrameState} (h : st.Isolated) (hcounted : st.Counted)
    {k1 k2 k3 k4 k5 : Kernel} (hfork : st.kernel.sysFork sb = some (pid, k1)) (hpos : 0 < pid)
    (hslot : st.kernel.sched.createTaskSlot.1 = some child) {ts us : List TaskPtr}
    (hrun : k1.switches (ts ++ [.slot child]) = some k2) {code : ℤ}
    (hexit : k2.taskExit code = some k3) (hback : k3.switches us = some k4) {who : ℤ}
    (hwait : k4.sysWait who = some k5) :
    (∀ f, f ∈ k5.vm.freeq ↔ f ∈ st.kernel.vm.freeq) ↔
      st.kernel.vm.windowFrames = 0 ∧
        st.kernel.vm.forkFrames ≤ st.kernel.vm.freeq.length := by
  obtain ⟨owner, dirs, top, hk, -, -⟩ := h
  obtain ⟨⟨pd, hvm⟩, -⟩ := Kernel.switches_eq us hback
  have hfree : k5.vm.freeq = k3.vm.freeq := by
    rw [Kernel.freeq_sysWait hwait, hvm]
    rfl
  rw [hfree]
  exact hk.forkExit hcounted hfork hpos hslot hrun hexit

/-- **When a teardown is exact, and when a fork leaves no trace.** For every directory with
different frames of at most one reference each, and every other directory to go on with: the
teardown frees its frames, each once, and changes nothing else, if and only if all are such as
`_free_phys_page` takes back. And for every machine whose frames are in order: once a child has run,
ended and been waited for, the same frames are free as before the fork if and only if there were
frames for the directory, for every page and for every table, and the table of the pages that are
copied through was there. -/
theorem teardown_exact_iff (vm : Vm) (target : ℕ) (st : FrameState) :
    ((vm.userFrames ++ [vm.cr3]).Nodup →
      (∀ f ∈ vm.userFrames ++ [vm.cr3], vm.refCount f ≤ 1) →
      (Vm.TornDown vm vm.cr3 target (vm.teardownCurrentPd vm.cr3 target) ↔
        ∀ f ∈ vm.userFrames ++ [vm.cr3], inPool f)) ∧
    (st.Isolated → st.Counted →
      ∀ (sb : SandboxConfig) (pid : ℤ) (child : Fin maxTasks) (ts us : List TaskPtr) (code who : ℤ)
        (k₁ k₂ k₃ k₄ k₅ : Kernel), st.kernel.sysFork sb = some (pid, k₁) → 0 < pid →
        st.kernel.sched.createTaskSlot.1 = some child →
        k₁.switches (ts ++ [.slot child]) = some k₂ → k₂.taskExit code = some k₃ →
        k₃.switches us = some k₄ → k₄.sysWait who = some k₅ →
        ((∀ f, f ∈ k₅.vm.freeq ↔ f ∈ st.kernel.vm.freeq) ↔
          st.kernel.vm.windowFrames = 0 ∧
            st.kernel.vm.forkFrames ≤ st.kernel.vm.freeq.length)) := by
  refine ⟨fun hnodup hrefs => Vm.tornDown_iff target hnodup hrefs, ?_⟩
  intro h hcounted sb pid child ts us code who k₁ k₂ k₃ k₄ k₅ hfork hpos hslot hrun hexit hback
    hwait
  exact h.forkWait hcounted hfork hpos hslot hrun hexit hback hwait

/-- A directory with one table and one page. -/
def onePageVm : Vm where
  freeq := []
  refCount := fun _ => 1
  entry := fun f i =>
    if f = 2000 ∧ i = 1 then some ⟨2001, true, true⟩
    else if f = 2001 ∧ i = 0 then some ⟨2002, true, true⟩
    else none
  cr3 := 2000
  pressure := false

/-- The program runs with this many free frames, and this is so of it. -/
theorem exists_program (n : ℕ) (P : FrameState → Prop)
    (hrun : ∃ st ∈ (frameSystem capsLayout).run frameBoot programRun, P (st.withPool n)) :
    ∃ st : FrameState, st.Isolated ∧ st.Counted ∧ P st := by
  obtain ⟨st, hst, hp⟩ := hrun
  have hreach := reachable_programRun hst
  have hcounted := FrameState.counted_of_reachable hreach
  exact ⟨st.withPool n, (FrameState.isolated_of_reachable hreach).withPool n, hcounted, hp⟩

/-- The running task forks; the child runs, ends, and is waited for. -/
structure Reaped (st : FrameState) (k₁ k₂ k₃ k₄ k₅ : Kernel) (pid : ℤ) (child : Fin maxTasks) :
    Prop where
  /-- the fork -/
  fork : st.kernel.sysFork .inherit = some (pid, k₁)
  /-- it returns a task -/
  pos : 0 < pid
  /-- the child's slot -/
  slot : st.kernel.sched.createTaskSlot.1 = some child
  /-- the child runs -/
  run : k₁.switches [.slot child] = some k₂
  /-- it ends -/
  exit : k₂.taskExit 0 = some k₃
  /-- the parent runs -/
  back : k₃.switches [st.kernel.sched.currentTask] = some k₄
  /-- and waits -/
  wait : k₄.sysWait (-1) = some k₅

/-- The same, as a computation. -/
def reapedTest (st : FrameState) : Bool :=
  st.kernel.sysFork .inherit |>.any fun r =>
    decide (0 < r.1) && st.kernel.sched.createTaskSlot.1.any fun child =>
      r.2.switches [.slot child] |>.any fun k₂ =>
        k₂.taskExit 0 |>.any fun k₃ =>
          k₃.switches [st.kernel.sched.currentTask] |>.any fun k₄ =>
            (k₄.sysWait (-1)).isSome

theorem exists_reaped {st : FrameState} (h : reapedTest st) :
    ∃ k1 k2 k3 k4 k5 pid child, Reaped st k1 k2 k3 k4 k5 pid child := by
  simp only [reapedTest, Option.any_eq_true, Bool.and_eq_true, decide_eq_true_eq,
    Option.isSome_iff_exists] at h
  obtain ⟨⟨pid, k1⟩, hfork, hpos, child, hslot, k2, hrun, k3, hexit, k4, hback, k5, hwait⟩ := h
  exact ⟨k1, k2, k3, k4, k5, pid, child, hfork, hpos, hslot, hrun, hexit, hback, hwait⟩

/-- With five free frames the child leaves no trace, and a directory with one page is taken down
exactly. -/
theorem teardown_exact_iff_program : ∃ st k₁ k₂ k₃ k₄ k₅ pid child,
    Reaped st k₁ k₂ k₃ k₄ k₅ pid child ∧ (∀ f, f ∈ k₅.vm.freeq ↔ f ∈ st.kernel.vm.freeq) ∧
    onePageVm.TornDown 2000 0 (onePageVm.teardownCurrentPd 2000 0) := by
  obtain ⟨st, hiso, hcounted, htest, hframes⟩ := exists_program 5
    (fun st => reapedTest st ∧ st.kernel.vm.windowFrames = 0 ∧
      st.kernel.vm.forkFrames ≤ st.kernel.vm.freeq.length) (by decide +kernel)
  obtain ⟨k₁, k₂, k₃, k₄, k₅, pid, child, hr⟩ := exists_reaped htest
  have hnodup : (onePageVm.userFrames ++ [onePageVm.cr3]).Nodup := by decide +kernel
  obtain ⟨hdown, hfork⟩ := teardown_exact_iff onePageVm 0 st
  have hfree := hfork hiso hcounted _ _ _ [] _ _ _ _ _ _ _ _ hr.fork hr.pos hr.slot hr.run
    hr.exit hr.back hr.wait
  exact ⟨st, k₁, k₂, k₃, k₄, k₅, pid, child, hr, hfree.mpr hframes,
    (hdown hnodup fun _ _ => le_rfl).mpr (by decide +kernel)⟩

/-- **With four, the child leaves a trace**: after it has ended and been waited for, other frames
are free than before the fork. -/
theorem fork_exit_loses_frame : ∃ st k₁ k₂ k₃ k₄ k₅ pid child, FrameState.Isolated st ∧
    st.Counted ∧ st.kernel.vm.freeq.length = 4 ∧ Reaped st k₁ k₂ k₃ k₄ k₅ pid child ∧
    ¬∀ f, f ∈ k₅.vm.freeq ↔ f ∈ st.kernel.vm.freeq := by
  obtain ⟨st, hiso, hcounted, htest, hfour, hfive⟩ := exists_program 4
    (fun st => reapedTest st ∧ st.kernel.vm.freeq.length = 4 ∧ st.kernel.vm.forkFrames = 5)
    (by decide +kernel)
  obtain ⟨k₁, k₂, k₃, k₄, k₅, pid, child, hr⟩ := exists_reaped htest
  refine ⟨st, k₁, k₂, k₃, k₄, k₅, pid, child, hiso, hcounted, hfour, hr, fun hall => ?_⟩
  have hrun : k₁.switches ([] ++ [.slot child]) = some k₂ := hr.run
  have hiff := hiso.forkWait hcounted hr.fork hr.pos hr.slot hrun hr.exit hr.back
    hr.wait
  have hle := (hiff.mp hall).2
  omega

end PokuOS

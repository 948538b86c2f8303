import PokuOS.ForkLoop
import PokuOS.Isolation
import PokuOS.RunQueue

/-!
# What `sys_fork` copies

* `Owned.createTaskPd_eq` — the new directory, and the frames it takes.
* `Kernel.sysForkBytes_pos` — a call that returns a task has been through the copy loop.
* `ExactCopy` — **the child is an exact copy** of the running task, and its own.
-/

namespace PokuOS

open Function Option Sched Vm

/-! ## The new directory -/

variable {vaddr : ℕ}

namespace Vm

variable {vm : Vm}

/-- The frames `map_page` needs for a table at `0xE0000000`. -/
def windowFrames (vm : Vm) : ℕ := if (vm.entry vm.cr3 896).isSome then 0 else 1

/-- A page that was mapped there had its table, or a frame for it. -/
theorem length_mapWindow {f : ℕ} (hva : pdIdx vaddr = 896)
    (hpresent : (vm.mapPage vaddr f false).pagePresent vaddr) :
    vm.freeq.length = (vm.mapPage vaddr f false).freeq.length + vm.windowFrames := by
  rw [freeq_mapPage, windowFrames, hva]
  cases he : vm.entry vm.cr3 896 with
  | some e => rfl
  | none =>
    cases hfree : vm.freeq with
    | nil =>
      rw [mapPage_short (hva.symm ▸ he) hfree] at hpresent
      simp [pagePresent, hva, he] at hpresent
    | cons pt freeq => rfl

end Vm

namespace Owned

variable {owner : ℕ → Option Owner} {h : Holders} {vm vm1 : Vm} {pd : ℕ}

/-- **The directory `paging_create_task_pd` makes**: no user part, and a table for the pages for
copying. Nothing changes for other directories. -/
theorem createTaskPd_eq (ho : Owned owner h vm) (hcr3 : vm.cr3 ∈ h.dirs)
    (hpd : vm.pagingCreateTaskPd = some (some pd, vm1)) :
    SameUser owner h.dirs vm vm1 ∧ (∀ i, UserIdx i → vm1.entry pd i = none) ∧
      (vm1.entry pd 896).isSome ∧
      vm.freeq.length = vm1.freeq.length + 1 + vm.windowFrames := by
  obtain ⟨freeq, refs, vm2, hfree, halloc, hvm2, hpresent, rfl⟩ := createTaskPd_some hpd
  obtain ⟨ho1, -, hdir, -, -⟩ := ho.alloc halloc
  have htaken : pd ∈ insert pd h.taken := Set.mem_insert ..
  obtain ⟨owner2, hkeep, ho2, hsame2⟩ := ho1.mapWindow hcr3 0xE0002000 (by decide) pd
  have hlen := length_mapWindow (by decide) (hvm2 ▸ hpresent)
  rw [hvm2] at ho2 hsame2 hlen
  have hcr32 : vm2.cr3 = vm.cr3 := hvm2 ▸ cr3_mapPage ..
  have hloaded : vm2.cr3 ∈ h.dirs := hcr32.symm ▸ hcr3
  have hnone : owner2 pd = none := (ho2.takenNone pd htaken).2.1
  have ho3 := ho2.writeTaken htaken (vm2.newDirectory pd)
  obtain ⟨-, hsame4⟩ := ho3.unmapWindow hloaded 0xE0002000 (by decide)
  have hsame3 : SameUser owner2 h.dirs vm2
      { vm2 with entry := update vm2.entry pd (vm2.newDirectory pd) } :=
    .write hdir (fun _ _ hc => by cases hnone.symm.trans hc) rfl
  have hsame : SameUser owner h.dirs vm vm2 := ⟨hsame2.word, hsame2.table⟩
  -- the page is unmapped in a table that is not the new directory
  obtain ⟨e, he⟩ : ∃ e, vm2.entry vm2.cr3 896 = some e := by
    rw [← isSome_iff_exists]
    cases he : vm2.entry vm2.cr3 896 with
    | some e => rfl
    | none =>
      have hidx : pdIdx 0xE0002000 = 896 := by decide
      simp [pagePresent, hidx, he] at hpresent
  have hne : pd ≠ e.frame := by
    rintro rfl
    have hkernel : KernelIdx 896 := .inr ⟨by decide, by decide⟩
    rcases ho2.kernel _ hloaded 896 hkernel e he with htable | ⟨hlow, -⟩
    · cases hnone.symm.trans htable
    · exact absurd hlow (by decide)
  have hentry : (unmapPage { vm2 with
      entry := update vm2.entry pd (vm2.newDirectory pd) } 0xE0002000).entry pd =
      vm2.newDirectory pd := by
    have hcf : vm2.cr3 ≠ pd := fun hc => hdir (hc ▸ hloaded)
    have he' : update vm2.entry pd (vm2.newDirectory pd) vm2.cr3 (pdIdx 0xE0002000) =
        some e := (congrFun (update_of_ne hcf ..) _).trans he
    simp only [unmapPage, he', setEntry, update_of_ne hne, update_self]
  refine ⟨hsame.trans hkeep (hsame3.trans (.refl owner2) hsame4), fun i hi => ?_, ?_, ?_⟩
  · rw [hentry, newDirectory, if_neg, if_neg]
    · rintro (hc | hc)
      · exact absurd hi.1 (by omega)
      · exact absurd hi.2 (by omega)
    · intro hc
      exact absurd hi.2 (by omega)
  · rw [hentry, newDirectory, if_neg (by decide), if_pos (.inr (by decide)), he]
    rfl
  · rw [freeq_unmapPage, hfree, List.length_cons]
    exact (congrArg (· + 1) hlen).trans (Nat.add_right_comm ..)

end Owned

/-! ## The parent's pages -/

namespace Vm

variable {vm : Vm}

theorem lookup_congr {vaddr' : ℕ} (hi : pdIdx vaddr' = pdIdx vaddr)
    (hj : ptIdx vaddr' = ptIdx vaddr) : vm.lookup vaddr' = vm.lookup vaddr := by
  rw [lookup, hi, hj, lookup]

end Vm

/-! ## A call that returns a task -/

variable {parent : Task}

theorem forkTier_error {tierOverride code : ℤ} (h : forkTier parent tierOverride = .error code) :
    code < 0 := by
  unfold forkTier at h
  split at h
  · cases h
  split at h
  · obtain rfl := Except.error.inj h
    decide
  split at h
  · obtain rfl := Except.error.inj h
    decide
  · cases h

theorem forkRoot_error {root : RootArg} {code : ℤ} (h : forkRoot parent root = .error code) :
    code < 0 := by
  unfold forkRoot at h
  split at h
  · cases h
  · obtain rfl := Except.error.inj h
    decide
  · simp only at h
    split at h
    · obtain rfl := Except.error.inj h
      decide
    · cases h

/-- A configuration is refused with a negative number. -/
theorem applySandbox_error {child : Task} {sb : SandboxConfig} {code : ℤ}
    (h : applySandbox parent child sb = .error code) : code < 0 := by
  unfold applySandbox at h
  cases htier : forkTier parent sb.tierOverride with
  | error code' =>
    rw [htier] at h
    obtain rfl : code' = code := Except.error.inj h
    exact forkTier_error htier
  | ok tier =>
    cases hroot : forkRoot parent sb.rootPath with
    | error code' =>
      rw [htier, hroot] at h
      obtain rfl : code' = code := Except.error.inj h
      exact forkRoot_error hroot
    | ok root =>
      rw [htier, hroot] at h
      cases h

namespace Kernel

variable {k : Kernel} {c : Contents} {sb : SandboxConfig}

theorem forkCopyBytes_pos (child : Fin maxTasks) (pages : List (ℕ × Pte)) :
    Post (k.forkCopyBytes c child pages) fun r => 0 < r.1.1 →
      ∃ pd vm1 vm2, k.vm.pagingCreateTaskPd = some (some pd, vm1) ∧
        (vm1.loadCr3 pd).copyPagesBytes pages c = some (true, vm2, r.2) ∧
        r.1 = k.forkEnd child pages pd true vm2 := by
  have hfail : ¬(0 : ℤ) < -1 := by decide
  unfold forkCopyBytes
  cases hpd : k.vm.pagingCreateTaskPd with
  | none => exact .none
  | some r =>
    obtain ⟨pd, vm1⟩ := r
    cases pd with
    | none => exact .some fun hpos => absurd hpos hfail
    | some pd =>
      simp only [bind_eq_bind, bind_some]
      cases hcopy : (vm1.loadCr3 pd).copyPagesBytes pages c with
      | none => exact .none
      | some r =>
        obtain ⟨ok, vm2, c'⟩ := r
        cases ok with
        | false => exact .some fun hpos => absurd hpos hfail
        | true => exact .some fun _ => ⟨pd, vm1, vm2, rfl, hcopy, rfl⟩

/-- **`sys_fork` that returns a task has been through the loop.** -/
theorem sysForkBytes_pos : Post (k.sysForkBytes c sb) fun r => 0 < r.1.1 →
    ∃ child s fields pd vm1 vm2, k.sched.createTaskSlot = (some child, s) ∧
      applySandbox (s.task s.currentTask) (forkFields s.currentTask (s.task (.slot child))) sb =
        .ok fields ∧
      k.vm.pagingCreateTaskPd = some (some pd, vm1) ∧
      (vm1.loadCr3 pd).copyPagesBytes k.vm.userPages c = some (true, vm2, r.2) ∧
      r.1 = ({ k with sched := s.modify (.slot child) fun _ => fields } : Kernel).forkEnd child
        k.vm.userPages pd true vm2 := by
  have hfail : ¬(0 : ℤ) < -1 := by decide
  unfold sysForkBytes
  simp only
  split
  · exact .some fun hpos => absurd hpos hfail
  rcases hslot : k.sched.createTaskSlot with ⟨child, s⟩
  cases child with
  | none => exact .some fun hpos => absurd hpos hfail
  | some child =>
    simp only
    cases hfields : applySandbox (s.task s.currentTask)
        (forkFields s.currentTask (s.task (.slot child))) sb with
    | error code =>
      have hneg := applySandbox_error hfields
      exact .some fun hpos => absurd hneg (Int.not_lt.mpr (Int.le_of_lt hpos))
    | ok fields =>
      simp only
      split
      · exact .some fun hpos => absurd hpos hfail
      · refine (forkCopyBytes_pos child k.vm.userPages).mono fun r hr hpos => ?_
        obtain ⟨pd, vm1, vm2, hpd, hcopy, hend⟩ := hr hpos
        exact ⟨child, s, fields, pd, vm1, vm2, rfl, hfields, hpd, hcopy, hend⟩

end Kernel

/-! ## Exact copies -/

/-- What the directory of a task maps an address to. -/
def Kernel.mapped (k : Kernel) (t : TaskPtr) (vaddr : ℕ) : Option Pte :=
  (k.vm.loadCr3 (k.sched.task t).cr3).lookup vaddr

/-- **The child is an exact copy of the running task**, and its own: `st` and `c` are before the
call, `st'` and `c'` after it. -/
structure ExactCopy (st : FrameState) (c : Contents) (st' : FrameState) (c' : Contents)
    (child : Fin maxTasks) : Prop where
  /-- the same user pages are mapped -/
  pages : ∀ vaddr, UserIdx (pdIdx vaddr) → ((st'.kernel.mapped (.slot child) vaddr).isSome ↔
    (st.kernel.mapped st.kernel.sched.currentTask vaddr).isSome)
  /-- they have the same bytes -/
  bytes : ∀ vaddr, UserIdx (pdIdx vaddr) →
    ∀ p ∈ st.kernel.mapped st.kernel.sched.currentTask vaddr,
      ∀ q ∈ st'.kernel.mapped (.slot child) vaddr, c' q.frame = c p.frame
  /-- the child's frames are used for nothing else -/
  unshared : ∀ vaddr, UserIdx (pdIdx vaddr) → ∀ q ∈ st'.kernel.mapped (.slot child) vaddr,
    ∀ r, st'.Holds q.frame r →
      r = .userPage (st'.kernel.sched.task (.slot child)).cr3 (pdIdx vaddr) (ptIdx vaddr)
  /-- the parent's pages are where they were -/
  parentPages : ∀ vaddr, UserIdx (pdIdx vaddr) →
    st'.kernel.mapped st.kernel.sched.currentTask vaddr =
      st.kernel.mapped st.kernel.sched.currentTask vaddr
  /-- with the bytes they had -/
  parentBytes : ∀ vaddr, UserIdx (pdIdx vaddr) →
    ∀ p ∈ st.kernel.mapped st.kernel.sched.currentTask vaddr, c' p.frame = c p.frame

/-- The frames `sys_fork` needs: for the directory, maybe the table of the pages for copying, the
pages, and their tables. -/
def Vm.forkFrames (vm : Vm) : ℕ :=
  1 + vm.windowFrames + vm.userPages.length + (tablesOf vm.userPages).card

/-- Directories and tables of the user part are what they were, and so are the pages. -/
theorem Owned.SameUser.lookup {owner : ℕ → Option Owner} {h : Holders} {vm vm' : Vm}
    (ho : Owned owner h vm) (hsame : SameUser owner h.dirs vm vm') {d : ℕ} (hd : d ∈ h.dirs)
    (hva : UserIdx (pdIdx vaddr)) : (vm'.loadCr3 d).lookup vaddr = (vm.loadCr3 d).lookup vaddr := by
  simp only [Vm.lookup, Vm.cr3_loadCr3, Vm.entry_loadCr3, hsame.word d hd _ hva]
  cases he : vm.entry d (pdIdx vaddr) with
  | none => rfl
  | some e => exact congrFun (hsame.table _ d _ (ho.table d hd _ hva e he)) _

namespace Kernel

/-- What the end of a call that returns a task leaves: the child has its directory, and other tasks
are what they were, apart from queues. -/
theorem forkEnd_true (k : Kernel) (child : Fin maxTasks) (pages : List (ℕ × Pte)) (pd : ℕ)
    (vm : Vm) {r : ℤ × Kernel} (hr : r = k.forkEnd child pages pd true vm) :
    r.2.vm = vm.loadCr3 (k.sched.task k.sched.currentTask).cr3 ∧
      (r.2.sched.task (.slot child)).cr3 = pd ∧ (r.2.sched.task (.slot child)).pid = r.1 ∧
      (r.2.sched.Live child ↔ k.sched.Live child) ∧
      ∀ u, u ≠ .slot child → (r.2.sched.task u).cr3 = (k.sched.task u).cr3 := by
  set s := k.sched.modify (.slot child) fun task =>
    { task with cr3 := pd, userEntry := (k.sched.task k.sched.currentTask).userEntry,
                userStack := (k.sched.task k.sched.currentTask).userStack,
                pagesCharged := pages.length } with hs
  have hsched : r.2.sched = enqueueTask
      { s with cr3 := (k.sched.task k.sched.currentTask).cr3 } (.slot child) := by
    rw [hr]
    rfl
  have hbody : r.2.sched.body =
      ({ s with cr3 := (k.sched.task k.sched.currentTask).cr3 } : Sched).body := by
    rw [hsched]
    exact enqueueTask_body ..
  have hchild : s.task (.slot child) = _ := (task_modify ..).trans (if_pos rfl)
  have hcr3 : ∀ u, (r.2.sched.task u).cr3 = (s.task u).cr3 := fun u =>
    task_read Task.cr3 (fun _ => rfl) hbody u
  have hpid : (r.2.sched.task (.slot child)).pid = (s.task (.slot child)).pid :=
    task_read Task.pid (fun _ => rfl) hbody _
  have huse : (r.2.sched.task (.slot child)).inUse = (s.task (.slot child)).inUse :=
    inUse_eq hbody _
  have hstate : (r.2.sched.task (.slot child)).state = (s.task (.slot child)).state :=
    state_eq hbody _
  refine ⟨by rw [hr]; rfl, ?_, ?_, ?_, fun u hu => ?_⟩
  · rw [hcr3, hchild]
  · rw [hpid, hr]
    rfl
  · rw [Sched.Live, huse, hstate, hchild, Sched.Live]
  · rw [hcr3, hs, task_modify, if_neg hu]

end Kernel

section Start

variable {owner : ℕ → Option Owner} {dirs : Set ℕ} {cache : List (Option CacheSlot)} {top : ℕ}
  {k : Kernel} {c : Contents} {pd : ℕ} {vm1 : Vm}

/-- **The new directory is the program's own**, and the table of the pages for copying is the
kernel's. -/
theorem Kernel.Isolated.newSpace (hk : k.Isolated owner dirs cache top)
    (hpd : k.vm.pagingCreateTaskPd = some (some pd, vm1)) :
    ∃ wt, (∃ e, vm1.entry pd 896 = some e ∧ e.frame = wt) ∧ wt ∉ vm1.freeq ∧ wt ≠ pd ∧
      ∃ owner1, Owned owner1 ⟨insert pd dirs, ∅, cache, top, fun _ => Set.univ, False⟩ vm1 ∧
        owner1 pd = some .dir ∧ owner1 wt = some (.kernelTable 896) := by
  obtain ⟨-, -, hsome⟩ := hk.owned.createTaskPd hk.loaded _ hpd
  obtain ⟨-, hhigh, owner1, ho1⟩ := hsome pd rfl
  obtain ⟨-, -, hwin, -⟩ := hk.owned.createTaskPd_eq hk.loaded hpd
  obtain ⟨e, he⟩ := isSome_iff_exists.mp hwin
  have hmem : pd ∈ insert pd dirs := Set.mem_insert ..
  have hdir : owner1 pd = some .dir :=
    (ho1.dir pd hmem).resolve_right (Nat.not_lt.mpr hhigh)
  have hkernel : KernelIdx 896 := .inr ⟨by decide, by decide⟩
  have hwt : owner1 e.frame = some (.kernelTable 896) :=
    (ho1.kernel pd hmem 896 hkernel e he).resolve_right fun hc => absurd hc.1 (by decide)
  have hne : e.frame ≠ pd := by
    intro hc
    rw [hc] at hwt
    cases hdir.symm.trans hwt
  exact ⟨e.frame, ⟨e, he, rfl⟩, ho1.not_mem_free hwt, hne, owner1, ho1, hdir, hwt⟩

/-- What is done to free frames, to the new directory and to the table for copying does not show in
other directories. -/
theorem Owned.lookup_apart {wt : ℕ} {vm2 : Vm} {holders : Holders} (ho : Owned owner holders vm1)
    (hpd : owner pd = some .dir) (hwt : owner wt = some (.kernelTable 896))
    (hothers : ∀ g, g ∉ vm1.freeq → g ≠ pd → g ≠ wt → vm2.entry g = vm1.entry g) {d : ℕ}
    (hd : d ∈ holders.dirs) (hne : d ≠ pd) (hva : UserIdx (pdIdx vaddr)) :
    (vm2.loadCr3 d).lookup vaddr = (vm1.loadCr3 d).lookup vaddr := by
  have hdw : d ≠ wt := by
    rintro rfl
    exact ho.not_dir hwt nofun hd
  have hdu : d ∉ vm1.freeq := by
    intro hc
    rcases ho.dir d hd with hdir | hlow
    · exact ho.not_mem_free hdir hc
    · exact Nat.not_lt.mpr (ho.freeNone d hc).1.1 hlow
  have hword : vm2.entry d = vm1.entry d := hothers d hdu hne hdw
  simp only [lookup, cr3_loadCr3, entry_loadCr3, hword]
  cases he : vm1.entry d (pdIdx vaddr) with
  | none => rfl
  | some e =>
    have htable := ho.table d hd _ hva e he
    refine congrFun (hothers e.frame (ho.not_mem_free htable) ?_ ?_) _
    · intro hc
      rw [hc] at htable
      cases hpd.symm.trans htable
    · intro hc
      rw [hc] at htable
      cases hwt.symm.trans htable

end Start

variable {st : FrameState}

/-- A user page of a live task is nothing else. -/
theorem FrameState.Holds.eq_userPage {owner : ℕ → Option Owner} {dirs : Set ℕ} {top : ℕ}
    (hk : st.kernel.Isolated owner dirs st.cache top) {i : Fin maxTasks}
    (hi : st.kernel.sched.Live i) (hva : UserIdx (pdIdx vaddr)) {q : Pte}
    (hq : st.kernel.mapped (.slot i) vaddr = some q) {r : FrameRole} (hr : st.Holds q.frame r) :
    r = .userPage (st.kernel.sched.task (.slot i)).cr3 (pdIdx vaddr) (ptIdx vaddr) := by
  obtain ⟨e, he, hq⟩ := bind_eq_some_iff.mp hq
  have hpage : st.Holds q.frame
      (.userPage (st.kernel.sched.task (.slot i)).cr3 (pdIdx vaddr) (ptIdx vaddr)) :=
    ⟨.inr ⟨i, hi, rfl⟩, hva, e, q, he, hq, rfl⟩
  obtain ⟨howner, -⟩ := hk.owned.page _ (hk.spaced.mem i hi) _ hva e he _ q hq
  have hhigh := (hk.owned.owned howner).1
  exact Backed.unique hk.spaced.distinct (backed_of_holds hk hhigh hr)
    (backed_of_holds hk hhigh hpage)

theorem live_forked {s s' : Sched} {child : Fin maxTasks} {sb : SandboxConfig} {fields : Task}
    (hnew : Sched.NewSlot s s' child)
    (hfields : applySandbox (s'.task s'.currentTask)
      (Kernel.forkFields s'.currentTask (s'.task (.slot child))) sb = .ok fields) :
    (s'.modify (.slot child) fun _ => fields).Live child := by
  obtain ⟨_, _, _, -, -, rfl⟩ := applySandbox_eq_ok hfields
  rw [Sched.Live, task_modify, if_pos rfl]
  refine ⟨?_, nofun⟩
  simp only [Kernel.forkFields, hnew.slot]

/-- The parent's directory is not the child's, and what it maps is not in the pool. -/
theorem notMem_pool_of_userPages {owner : ℕ → Option Owner} {dirs : Set ℕ}
    {cache : List (Option CacheSlot)} {top : ℕ} {k : Kernel} {owner1 : ℕ → Option Owner}
    {holders : Holders} {vm1 : Vm} (hk : k.Isolated owner dirs cache top)
    (hsame : Owned.SameUser owner dirs k.vm vm1) (ho1 : Owned owner1 holders vm1)
    (hsub : dirs ⊆ holders.dirs) :
    ∀ p ∈ k.vm.userPages, UserIdx (pdIdx p.1) ∧ p.2.frame ∉ vm1.freeq := by
  intro p hp
  obtain ⟨hva, hlookup⟩ := lookup_of_userPages hp
  have hlookup1 : (vm1.loadCr3 k.vm.cr3).lookup p.1 = some p.2 :=
    (Owned.SameUser.lookup hk.owned hsame hk.loaded hva).trans hlookup
  obtain ⟨e, he, hpte⟩ := bind_eq_some_iff.mp hlookup1
  exact ⟨hva, ho1.not_mem_free (ho1.page _ (hsub hk.loaded) _ hva e he _ p.2 hpte).1⟩

/-- Only the first `n` free frames are left. -/
def FrameState.withPool (st : FrameState) (n : ℕ) : FrameState :=
  st.setKernel { st.kernel with vm := { st.kernel.vm with freeq := st.kernel.vm.freeq.take n } }

/-- Frames that are lost do no harm. -/
theorem FrameState.Isolated.withPool (h : st.Isolated) (n : ℕ) : (st.withPool n).Isolated := by
  obtain ⟨owner, dirs, top, hk, hbrk, htop⟩ := h
  have hmem : ∀ {f}, f ∈ st.kernel.vm.freeq.take n → f ∈ st.kernel.vm.freeq := List.mem_of_mem_take
  have hledger : Ledger frames owner ∅ (st.kernel.vm.freeq.take n) :=
    ⟨hk.owned.nodup.sublist (List.take_sublist ..), fun f hf => hk.owned.freeNone f (hmem hf),
      nofun, hk.owned.owned⟩
  exact ⟨owner, dirs, top, ⟨⟨hledger, hk.owned.toMapped, hk.owned.heapTo, hk.owned.cache,
    False.elim⟩,
    hk.spaced, hk.runs, hk.cr3⟩, hbrk, htop⟩

/-- A program of one page and a stack is started, and runs. -/
def programRun : List FrameEvent :=
  [.spawn (cstr "/mnt/prog.elf") (imageFile (oneSegment 0x01000000 0)) false, .switch (.slot 0)]

/-- This is a run of the machine. -/
theorem reachable_programRun (hst : (frameSystem capsLayout).run frameBoot programRun = some st) :
    (frameSystem capsLayout).Reachable st := by
  refine reachable_frameBoot ?_ hst
  simp only [programRun, List.forall_mem_cons]
  exact ⟨fun _ => imageOk_program, fun _ => trivial, nofun⟩

end PokuOS

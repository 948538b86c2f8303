import PokuOS.Directories
import PokuOS.SandboxRun
import PokuOS.SpaceOwners

/-!
# No frame is used twice

Programs are started, fork, execute files, end and take page faults, files are read through the
page cache and the heap grows, in any order and whether these succeed or not. Which task runs is
not decided here: the next task is any that is in use and has not ended, or the idle task.

* `Kernel.Isolated` — there is a ledger of the frames, and every live task has a directory of its
  own; **every operation keeps this**.
* `frames_isolated` — no frame has two roles, or one role twice.
-/

namespace PokuOS

open List Sched Set

/-! ## The system -/

/-- Tasks, page tables, the page cache and the heap. -/
structure FrameState where
  /-- tasks and page tables -/
  kernel : Kernel
  /-- `cache` of `page_cache.c` -/
  cache : List (Option CacheSlot)
  heapBrk : ℕ

namespace Kernel

/-- `task_exit`, up to its call of `schedule`. -/
def endTask (k : Kernel) (code : ℤ) : Option Kernel := do
  let pd := (k.sched.task k.sched.currentTask).cr3
  let s ← k.sched.exitCurrent code
  return { sched := s, vm := k.vm.teardownCurrentPd pd k.sched.pageDirectory }

theorem taskExit_eq (k : Kernel) (code : ℤ) : k.taskExit code = k.endTask code >>= schedule := by
  unfold taskExit endTask
  cases k.sched.exitCurrent code <;> rfl

/-- `page_fault_handler` for a fault in user mode, where `next` goes on once a task has ended. -/
def faultThen (next : Kernel → Option Kernel) (k : Kernel) (vaddr : ℕ) (present write : Bool) :
    Option Kernel :=
  if (k.sched.task k.sched.currentTask).map ∧ present ∧ write then do
    let (r, vm) ← k.vm.vmFaultCow vaddr
    let k := ({ k with vm := vm } : Kernel).handlePressure
    if r = 0 then return k else k.endTask 14 >>= next
  else k.endTask 14 >>= next

theorem pageFault_eq (k : Kernel) (vaddr : ℕ) (present write : Bool) :
    k.pageFault vaddr present write = k.faultThen schedule vaddr present write := by
  unfold pageFault faultThen
  simp only [taskExit_eq]

/-- Another task runs: one that is in use and has not ended, or the idle task. -/
def switchTo (k : Kernel) (next : TaskPtr) : Option Kernel :=
  if next = .idle ∨ (k.sched.task next).inUse = true ∧ (k.sched.task next).state ≠ .exited then
    some (k.setSched (k.sched.switchToTask next))
  else none

/-- The loop of `heap_grow`: `true` if all pages could be had. -/
def growPages : ℕ → ℕ → Kernel → Bool × Kernel
  | 0, _, k => (true, k)
  | pages + 1, vaddr, k =>
    if k.vm.freeq.isEmpty then (false, k.expandHeap vaddr)
    else growPages pages (vaddr + pageSize) (k.expandHeap vaddr)

end Kernel

namespace FrameState

/-- Tasks and page tables change. -/
def setKernel (st : FrameState) (k : Kernel) : FrameState := { st with kernel := k }

/-- `heap_grow`, as far as frames go. -/
def heapGrow (st : FrameState) (pages : ℕ) : FrameState :=
  if 0xFE000000 ≤ st.heapBrk then st
  else
    match Kernel.growPages pages st.heapBrk st.kernel with
    | (false, k) => st.setKernel k
    | (true, k) => { st with kernel := k, heapBrk := st.heapBrk + pages * pageSize }

/-- The page cache; what its pages hold does not matter here. -/
def pageCache (st : FrameState) : PageCache where
  slots := st.cache
  freeq := st.kernel.vm.freeq
  frames _ := fun _ => 0

/-- `readpage`; `ok` says whether `s_op->readpage` succeeds. -/
def readpage (st : FrameState) (ino pgoff : ℕ) (ok : Bool) : FrameState :=
  match st.pageCache.find ino pgoff, st.pageCache.allocSlot with
  | none, some slot =>
    match st.kernel.vm.allocPageFrame with
    | (none, vm) => st.setKernel ({ st.kernel with vm := vm } : Kernel).handlePressure
    | (some f, vm) =>
      if ok then
        { st with kernel := { st.kernel with vm := vm },
                  cache := st.cache.set slot (some ⟨ino, pgoff, f⟩) }
      else st.setKernel { st.kernel with vm := vm.freePageFrame f }
  | _, _ => st

end FrameState

/-- What happens to frames. -/
inductive FrameEvent where
  /-- `spawn_user_process` -/
  | spawn (path : CStr) (file : FileRead) (mapped : Bool)
  /-- `sys_fork` -/
  | fork (sb : SandboxConfig)
  /-- `sys_exec` -/
  | exec (path : CStr) (argv : List CStr) (file : FileRead)
  /-- `task_exit`, and the task that runs then -/
  | exit (code : ℤ) (next : TaskPtr)
  /-- a page fault in user mode, and the task that runs if this ends the faulting one -/
  | fault (vaddr : ℕ) (present write : Bool) (next : TaskPtr)
  | readpage (ino pgoff : ℕ) (ok : Bool)
  | heapGrow (pages : ℕ)
  /-- another task runs -/
  | switch (next : TaskPtr)

/-- An image that is read is in order. -/
def FileRead.InOrder : FileRead → Prop
  | .image mem data => ImageOk mem data
  | _ => True

/-- All that uses frames, from `paging_init` and `task_init` on. The idle task makes no system
calls and has no user mode. -/
def frameSystem (L : Layout) : System FrameState FrameEvent where
  init st := ∃ tables : StaticTables, tables.Apart ∧
    st = ⟨⟨.taskInit tables.pageDirectory, pagingInit tables⟩,
      replicate pageCacheSize none, heapStartPage * pageSize⟩
  allowed st
    | .spawn _ file _ => file.InOrder
    | .fork _ => st.kernel.sched.currentTask ≠ .idle
    | .exec _ _ file => st.kernel.sched.currentTask ≠ .idle ∧ file.InOrder
    | .exit _ _ => st.kernel.sched.currentTask ≠ .idle
    | .fault _ _ _ _ => st.kernel.sched.currentTask ≠ .idle
    | _ => True
  step st
    | .spawn path file mapped =>
      (st.kernel.spawnUserProcess L path file mapped).map fun r => st.setKernel r.2
    | .fork sb => (st.kernel.sysFork sb).map fun r => st.setKernel r.2
    | .exec path argv file => (st.kernel.sysExec L path argv file).map fun r => st.setKernel r.2
    | .exit code next =>
      (st.kernel.endTask code >>= fun k => k.switchTo next).map st.setKernel
    | .fault vaddr present write next =>
      (st.kernel.faultThen (fun k => k.switchTo next) vaddr present write).map st.setKernel
    | .readpage ino pgoff ok => some (st.readpage ino pgoff ok)
    | .heapGrow pages => some (st.heapGrow pages)
    | .switch next => (st.kernel.switchTo next).map st.setKernel

/-! ## Operations -/

variable {L : Layout}

/-- The limit is checked at a fork with this configuration: the child has none, or one of a
page or more, or there is nothing to copy. -/
def Kernel.ForkChecked (k : Kernel) (sb : SandboxConfig) : Prop :=
  let limit := clampLimit (k.sched.task k.sched.currentTask).memLimit sb.memLimit
  limit = 0 ∨ pageSize ≤ limit ∨ k.vm.userPages = []

/-- The running task has no memory limit. -/
def Kernel.Unlimited (k : Kernel) : Prop := (k.sched.task k.sched.currentTask).memLimit = 0

/-- Limits are checked where the event changes an address space. -/
def FrameEvent.Checked (k : Kernel) : FrameEvent → Prop
  | fork sb => k.ForkChecked sb
  | exec _ _ _ => k.Unlimited
  | _ => True

/-- So many pages are within the limit; zero is no limit. -/
def WithinLimit (pages limit : ℕ) : Prop := limit ≠ 0 → pages * pageSize ≤ limit

/-- **What `sys_fork` checks is the limit**, unless it is less than a page. Limits that do not
fit `uint32_t` pages are no exception: a task has at most 256 pages. -/
theorem withinLimit_fork {limit pages : ℕ} (hsmall : limit = 0 ∨ pageSize ≤ limit ∨ pages = 0)
    (hcheck : ¬(limit / pageSize % 2 ^ 32 ≠ 0 ∧ limit / pageSize % 2 ^ 32 < pages))
    (hpages : pages ≤ maxUserPages) : WithinLimit pages limit := by
  intro hlimit
  unfold pageSize maxUserPages at *
  by_cases htrunc : limit / 4096 % 2 ^ 32 = 0
  · omega
  · have hle : pages ≤ limit / 4096 := by
      have := Nat.mod_le (limit / 4096) (2 ^ 32)
      omega
    omega

/-- There are at most `n` of these places. -/
def AtMost (n : ℕ) (places : Set (Fin 1024 × Fin 1024)) : Prop :=
  ∃ l : List (Fin 1024 × Fin 1024), l.length ≤ n ∧ ∀ x ∈ places, x ∈ l

/-- The pages that are charged are as many as these places, and within the limit. -/
def Covers (charge : ℕ × ℕ) (places : Set (Fin 1024 × Fin 1024)) : Prop :=
  AtMost charge.1 places ∧ WithinLimit charge.1 charge.2

theorem Covers.mono {charge : ℕ × ℕ} {places places' : Set (Fin 1024 × Fin 1024)}
    (h : Covers charge places) (hsub : places' ⊆ places) : Covers charge places' := by
  obtain ⟨⟨l, hlen, hl⟩, hlimit⟩ := h
  exact ⟨⟨l, hlen, fun x hx => hl x (hsub hx)⟩, hlimit⟩

/-- Where these pages are. -/
def placesOf (pages : List (ℕ × Pte)) : Set (Fin 1024 × Fin 1024) :=
  {x | x ∈ pages.map fun p => (pdIdx p.1, ptIdx p.1)}

theorem atMost_placesOf (pages : List (ℕ × Pte)) : AtMost pages.length (placesOf pages) :=
  ⟨_, Nat.le_of_eq (length_map ..), fun _ hx => hx⟩

/-- All user pages are charged, and there is no limit. -/
theorem covers_userPages (vm : Vm) {limit : ℕ} (hlimit : limit = 0) :
    Covers (vm.countUserPages, limit) (placesOf vm.userPages) := by
  refine ⟨?_, fun hc => absurd hlimit hc⟩
  simp only [Vm.countUserPages]
  exact atMost_placesOf vm.userPages

/-- A new directory may have user pages in `places`. -/
def newRoom (dirs : Set ℕ) (room : ℕ → Set (Fin 1024 × Fin 1024))
    (places : Set (Fin 1024 × Fin 1024)) (d : ℕ) : Set (Fin 1024 × Fin 1024) :=
  {x | (d ∈ dirs → x ∈ room d) ∧ (d ∉ dirs → x ∈ places)}

namespace Owned

variable {once : Prop} {owner : ℕ → Option Owner} {dirs dirs' : Set ℕ}
  {room : ℕ → Set (Fin 1024 × Fin 1024)}
  {places : Set (Fin 1024 × Fin 1024)} {cache : List (Option CacheSlot)} {top : ℕ} {vm : Vm}

theorem oldRoom (ho : Owned owner ⟨dirs, ∅, cache, top, newRoom dirs room places, once⟩ vm) :
    Owned owner ⟨dirs, ∅, cache, top, room, once⟩ vm :=
  ho.reroom (fun d hd i hi e he j p hp => (ho.page d hd i hi e he j p hp).2.1 hd) ho.counts

/-- The new directory is loaded, and has its pages where they are. -/
theorem placed (ho : Owned owner ⟨dirs', ∅, cache, top, newRoom dirs room places, once⟩ vm)
    (hnew : ∀ d ∈ dirs', d ∉ dirs → d = vm.cr3) :
    Owned owner ⟨dirs', ∅, cache, top, newRoom dirs room (placesOf vm.userPages), once⟩ vm := by
  refine ho.reroom (fun d hd i hi e he j p hp => ?_) ho.counts
  refine ⟨(ho.page d hd i hi e he j p hp).2.1, fun hc => ?_⟩
  obtain rfl := hnew d hd hc
  exact mem_map.mpr ⟨(_, p), Vm.mem_userPages.mpr ⟨i, j, e, hi, he, hp, rfl⟩,
    Prod.ext (pdIdx_page i j) (ptIdx_page i j)⟩

end Owned

namespace Kernel

/-- **Tasks and frames between operations**: there is a ledger of the frames, and every live task
has a directory of its own, with user pages in the places of `room`. If `counted`, it is charged
for them and within its limit. -/
structure Housed (counted once : Prop) (owner : ℕ → Option Owner) (dirs : Set ℕ)
    (room : ℕ → Set (Fin 1024 × Fin 1024)) (cache : List (Option CacheSlot)) (top : ℕ)
    (k : Kernel) : Prop where
  /-- the ledger -/
  owned : Owned owner ⟨dirs, ∅, cache, top, room, once⟩ k.vm
  /-- the directories -/
  spaced : Spaced dirs (fun d c => counted → Covers c (room d)) k.sched
  /-- the running task is live -/
  runs : k.sched.Runs
  cr3 : k.vm.cr3 = (k.sched.task k.sched.currentTask).cr3

/-- User pages may be anywhere. -/
abbrev Isolated (owner : ℕ → Option Owner) (dirs : Set ℕ) (cache : List (Option CacheSlot))
    (top : ℕ) (k : Kernel) : Prop := Housed False False owner dirs (fun _ => univ) cache top k

/-- There are such a ledger and such directories. -/
abbrev Orderly (counted once : Prop) (cache : List (Option CacheSlot)) (top : ℕ)
    (k : Kernel) : Prop :=
  ∃ owner dirs room, Housed counted once owner dirs room cache top k

namespace Housed

open Owned

variable {counted once : Prop} {owner owner' : ℕ → Option Owner} {dirs : Set ℕ}
  {room : ℕ → Set (Fin 1024 × Fin 1024)} {cache : List (Option CacheSlot)}
  {top : ℕ} {k : Kernel} {s : Sched} {vm : Vm}
  (h : Housed counted once owner dirs room cache top k)
include h

theorem isolated :
    k.Isolated owner dirs cache top :=
  ⟨h.owned.reroom (fun _ _ _ _ _ _ _ _ _ => trivial) False.elim,
    h.spaced.refit fun _ _ _ _ => False.elim,
    h.runs, h.cr3⟩

theorem loaded : k.vm.cr3 ∈ dirs := by
  rw [h.cr3]
  exact h.spaced.current_mem h.runs

theorem setVm (ho : Owned owner' ⟨dirs, ∅, cache, top, room, once⟩ vm)
    (hcr3 : vm.cr3 = k.vm.cr3) : Housed counted once owner' dirs room cache top
    { k with vm := vm } :=
  ⟨ho, h.spaced, h.runs, hcr3.trans h.cr3⟩

theorem resched (hv : Sched.Via SameSpace k.sched s)
    (hcur : s.currentTask = k.sched.currentTask) :
    Housed counted once owner dirs room cache top { k with sched := s } := by
  refine ⟨h.owned, h.spaced.same hv.pageDirectory hv.task, fun i hi => ?_, ?_⟩
  · exact (Sched.Live.of_same hv.task).mpr (h.runs i (hcur.symm.trans hi))
  · rw [hcur, (hv.task _).cr3]
    exact h.cr3

variable {pd : ℕ}

theorem loadCr3 (hpd : k.vm.cr3 = pd) :
    Housed counted once owner dirs room cache top (k.loadCr3 pd) :=
  ⟨h.owned.loadCr3 pd, h.spaced.same rfl fun _ => queueing_sameSpace.refl _, h.runs,
    hpd.symm.trans h.cr3⟩

omit h in
theorem sameSpace_makeCritical (task : Task) : SameSpace task (makeCritical task) := by
  unfold makeCritical
  split <;> exact ⟨rfl, rfl, rfl, Iff.rfl⟩

omit h in
theorem currentTask_handlePressure (k : Kernel) :
    k.handlePressure.sched.currentTask = k.sched.currentTask := by
  unfold Kernel.handlePressure
  split <;> rfl

theorem handlePressure :
    Housed counted once owner dirs room cache top k.handlePressure := by
  unfold Kernel.handlePressure
  split
  · have hsched := h.resched (s := k.sched.modify k.sched.currentTask makeCritical)
      (.modify queueing_sameSpace _ _ (sameSpace_makeCritical _)) rfl
    exact ⟨hsched.owned.of_eq rfl rfl id, hsched.spaced, hsched.runs, hsched.cr3⟩
  · exact h

variable {child : Fin maxTasks}

theorem forkFail (hat : AtSlot k.sched s child)
    (hne : k.sched.currentTask ≠ .slot child) (ho : Owned owner' ⟨dirs, ∅, cache, top, room,
    once⟩ vm)
    (hcr3 : vm.cr3 = k.vm.cr3) (code : ℤ) :
    Housed counted once owner' dirs room cache top (Kernel.forkFail ⟨s, vm⟩ child code).2 := by
  have hat' : AtSlot k.sched (s.freeTaskSlot (.slot child)) child := hat.modify fun _ => Task.zero
  refine handlePressure ⟨ho, h.spaced.atSlot hat' fun hlive => ?_, hat'.runs h.runs hne, ?_⟩
  · have huse := hlive.1
    rw [task_freeTaskSlot, if_pos rfl] at huse
    cases huse
  · rw [hat'.cr3 hne]
    exact hcr3.trans h.cr3

/-- A directory is being filled: it is new, it is loaded, and its pages are in `places`. -/
structure Filling (once : Prop) (dirs : Set ℕ) (room : ℕ → Set (Fin 1024 × Fin 1024))
    (cache : List (Option CacheSlot)) (top : ℕ) (places : Set (Fin 1024 × Fin 1024)) (pd : ℕ)
    (vm : Vm) : Prop where
  /-- nobody has it -/
  fresh : pd ∉ dirs
  /-- it is a frame of the pool -/
  high : pageStartIndex ≤ pd
  /-- it is loaded -/
  loaded : vm.cr3 = pd
  /-- the ledger has it too -/
  owned : ∃ owner, Owned owner ⟨insert pd dirs, ∅, cache, top, newRoom dirs room places, once⟩ vm

variable {places : Set (Fin 1024 × Fin 1024)}

omit h in
theorem Filling.teardown (h : Filling once dirs room cache top places pd vm) (target : ℕ) :
    ∃ owner, Owned owner ⟨dirs, ∅, cache, top, room, once⟩ (vm.teardownCurrentPd pd target) := by
  obtain ⟨owner, ho⟩ := h.owned
  obtain ⟨owner', ho'⟩ := ho.teardown (mem_insert ..) h.high h.loaded target
  have hold := ho'.mono (fun d hd => ⟨.inr hd, fun hc => h.fresh (hc ▸ hd)⟩) fun _ ht => ht
  exact ⟨owner', oldRoom hold⟩

omit h in
theorem Filling.placed (h : Filling once dirs room cache top places pd vm) :
    Filling once dirs room cache top (placesOf vm.userPages) pd vm := by
  obtain ⟨owner, ho⟩ := h.owned
  refine ⟨h.fresh, h.high, h.loaded, owner, Owned.placed ho fun d hd hc => ?_⟩
  exact (hd.resolve_right hc).trans h.loaded.symm

omit h in
theorem Filling.anywhere (h : Filling once dirs room cache top univ pd vm) :
    newRoom dirs room univ vm.cr3 = univ := by
  rw [h.loaded, eq_univ_iff_forall]
  exact fun x => ⟨fun hc => absurd hc h.fresh, fun _ => trivial⟩

theorem makes
    (places : Set (Fin 1024 × Fin 1024)) :
    Post k.vm.pagingCreateTaskPd (Makes (fun vm =>
      Owned owner ⟨dirs, ∅, cache, top, room, once⟩ vm ∧
      vm.cr3 = k.vm.cr3) (Filling once dirs room cache top places)) := by
  have ho : Owned owner ⟨dirs, ∅, cache, top, newRoom dirs room places, once⟩ k.vm :=
    h.owned.reroom (fun d hd i hi e he j p hp =>
      ⟨fun _ => (h.owned.page d hd i hi e he j p hp).2, fun hc => absurd hd hc⟩) h.owned.counts
  refine (ho.createTaskPd h.loaded).mono ?_
  rintro ⟨_ | pd, vm⟩ ⟨hcr3, hnone, hsome⟩
  · exact ⟨oldRoom (hnone rfl), hcr3⟩
  · obtain ⟨hnew, hhigh, owner', ho⟩ := hsome pd rfl
    exact ⟨hnew, hhigh, rfl, owner', ho.loadCr3 pd⟩

variable {i : Fin maxTasks}

omit h in
theorem newDir (h : Spaced dirs (fun d c => counted → Covers c (room d)) k.sched)
    (hat : AtSlot k.sched s i) (hpd : (s.task (.slot i)).cr3 = pd) (hhigh : pageStartIndex ≤ pd)
    (hnew : pd ∉ dirs) (hcharge : counted → Covers (s.task (.slot i)).charge places) :
    Spaced (insert pd dirs) (fun d c => counted → Covers c (newRoom dirs room places d)) s := by
  refine (h.refit fun d hd n hn hc => (hn hc).mono fun x hx => hx.1 hd).create hat hpd hhigh hnew ?_
  exact fun hc => (hcharge hc).mono fun x hx => hx.2 hnew

theorem place {cr3 : ℕ} (hat : AtSlot k.sched s i)
    (hne : k.sched.currentTask ≠ .slot i) (hpd : (s.task (.slot i)).cr3 = pd)
    (hf : Filling once dirs room cache top places pd vm) (hcr3 : cr3 = k.vm.cr3)
    (hcharge : counted → Covers (s.task (.slot i)).charge places) :
    Orderly counted once cache top
      ⟨Sched.enqueueTask { s with cr3 := cr3 } (.slot i), vm.loadCr3 cr3⟩ := by
  obtain ⟨owner', ho⟩ := hf.owned
  have hplaced : Housed counted once owner' (insert pd dirs) (newRoom dirs room places) cache top
      (({ sched := s, vm := vm } : Kernel).loadCr3 cr3) := by
    refine ⟨ho.loadCr3 _, (newDir h.spaced hat hpd hf.high hf.fresh hcharge).same rfl fun _ =>
      queueing_sameSpace.refl _, hat.runs h.runs hne, ?_⟩
    exact hcr3.trans (h.cr3.trans (hat.cr3 hne).symm)
  exact ⟨owner', insert pd dirs, _, hplaced.resched
    (via_enqueueTask queueing_sameSpace _ _)
    (currentTask_eq (enqueueTask_body _ _))⟩

theorem forkCopy (hat : AtSlot k.sched s child)
    (hne : k.sched.currentTask ≠ .slot child) {pages : List (ℕ × Pte)}
    (hpages : ∀ p ∈ pages, UserIdx (pdIdx p.1))
    (hlimit : counted → WithinLimit pages.length (s.task (.slot child)).memLimit) :
    Post (Kernel.forkCopy ⟨s, k.vm⟩ child pages) fun r =>
      Orderly counted once cache top r.2 := by
  have hparent : (s.task s.currentTask).cr3 = k.vm.cr3 := (hat.cr3 hne).trans h.cr3.symm
  refine forkCopy_rule (h.makes (placesOf pages)) (fun pd vm hf => ?_) (fun vm hvm => ?_)
    (fun pd vm hf => ?_)
    fun pid pd vm s' hf hs' => ?_
  · obtain ⟨owner1, ho1⟩ := hf.owned
    refine (copyPages pages hpages ho1 (hf.loaded ▸ mem_insert ..) fun p hp => ?_).mono ?_
    · rw [hf.loaded]
      exact ⟨fun hc => absurd hc hf.fresh, fun _ => mem_map.mpr ⟨p, hp, rfl⟩⟩
    · exact fun r hr => ⟨hf.fresh, hf.high, hr.2.trans hf.loaded, hr.1⟩
  · exact ⟨owner, dirs, room, h.forkFail hat hne hvm.1 hvm.2 (-1)⟩
  · obtain ⟨owner1, ho1⟩ := hf.teardown (s.task s.currentTask).cr3
    have hat' : AtSlot k.sched { s with cr3 := (s.task s.currentTask).cr3 } child :=
      ⟨hat.others, hat.currentTask, hat.pageDirectory⟩
    exact ⟨owner1, dirs, room, h.forkFail hat' hne (ho1.loadCr3 _) hparent (-1)⟩
  · subst hs'
    refine h.place (hat.modify _) hne ?_ hf hparent fun hc => ?_
    all_goals rw [task_modify, if_pos rfl]
    exact ⟨atMost_placesOf pages, hlimit hc⟩

/-- **`sys_fork`.** -/
theorem sysFork (sb : SandboxConfig)
    (hchecked : counted → k.ForkChecked sb) :
    Post (k.sysFork sb) fun r => Orderly counted once cache top r.2 := by
  refine sysFork_rule ⟨owner, dirs, room, h⟩ (fun child s f code hslot => ?_)
    fun child s fields hslot hfields hlen hcheck => ?_
  · have hnew := newSlot_of_createTaskSlot hslot
    exact ⟨owner, dirs, room, h.forkFail ((NewSlot.atSlot hnew).modify f)
      (h.runs.ne hnew.free) h.owned
      rfl code⟩
  · have hnew := newSlot_of_createTaskSlot hslot
    have hat := NewSlot.atSlot hnew
    refine h.forkCopy (hat.modify _) (h.runs.ne hnew.free)
      (fun _ hp => (Vm.lookup_of_userPages hp).1) fun hc => ?_
    rw [task_modify, if_pos rfl]
    refine withinLimit_fork ?_ hcheck hlen
    obtain ⟨_, _, _, -, -, rfl⟩ := applySandbox_eq_ok hfields
    rw [hat.currentTask, hat.others _ (h.runs.ne hnew.free)]
    exact (hchecked hc).imp_right (.imp_right length_eq_zero_iff.mpr)

theorem freeBuiltPd (hf : Filling once dirs room cache top places pd vm)
    (cr3 : ℕ) :
    ∃ owner, Housed counted once owner dirs room cache top (Kernel.freeBuiltPd
      ⟨{ k.sched with cr3 := cr3 }, vm⟩ pd (k.sched.task k.sched.currentTask).cr3) := by
  obtain ⟨owner1, ho1⟩ := hf.teardown (k.sched.task k.sched.currentTask).cr3
  exact ⟨owner1, handlePressure ⟨ho1.loadCr3 _, h.spaced.same rfl fun _ =>
    queueing_sameSpace.refl _, h.runs, rfl⟩⟩

/-- Another directory was made and loaded, and is not used; the running task's is loaded again. -/
theorem withPd {cr3 : ℕ} (hf : Filling once dirs room cache top places pd vm) :
    ∃ owner, Housed counted once owner dirs room cache top
      (Kernel.loadCr3 ⟨{ k.sched with cr3 := cr3 }, vm⟩ k.vm.cr3) := by
  obtain ⟨owner', ho⟩ := hf.owned
  have ho' := oldRoom (ho.mono (fun d hd => .inr hd) fun _ ht => ht)
  exact ⟨owner', ho'.loadCr3 _, h.spaced.same rfl fun _ => queueing_sameSpace.refl _, h.runs, h.cr3⟩

variable {file : FileRead}

theorem builds (hfile : file.InOrder) :
    ∀ mem data, file = .image mem data → k.Builds mem data
      (fun vm => Owned owner ⟨dirs, ∅, cache, top, room, once⟩ vm ∧ vm.cr3 = k.vm.cr3)
      (Filling once dirs room cache top univ) := by
  rintro mem data rfl
  refine ⟨hfile, h.makes _, fun {pd vm} hf => ?_, fun halloc hf => ?_, fun halloc hf => ?_⟩
  all_goals obtain ⟨owner1, ho1⟩ := hf.owned
  · obtain ⟨ho2, hcr3⟩ := Owned.elfLoad loaderFuel (l := ⟨vm, mem, []⟩) hfile ho1
      (hf.loaded ▸ mem_insert ..) hf.anywhere
    exact ⟨hf.fresh, hf.high, hcr3.trans hf.loaded, ho2⟩
  · obtain ⟨ho2, hcr3⟩ := ho1.alloc_none halloc
    exact ⟨hf.fresh, hf.high, hcr3.trans hf.loaded, owner1, ho2⟩
  · refine ⟨hf.fresh, hf.high, ?_, ho1.alloc_mapUser (hf.loaded ▸ mem_insert ..) halloc
      (userIdx_pdIdx ⟨by decide, by decide⟩) (eq_univ_iff_forall.mp hf.anywhere _) true⟩
    exact (Vm.cr3_mapPage ..).trans ((ho1.alloc halloc).2.2.2.2.trans hf.loaded)

omit h in
theorem execTier_same (s : Sched) (t : TaskPtr) (resolved : CStr) :
    Post (execTier s t resolved) fun s' => Sched.Via SameSpace s s' ∧
      s'.currentTask = s.currentTask := by
  unfold execTier
  split
  · refine Post.and ?_ ?_
    · exact via_taskSetTier queueing_sameSpace (fun _ => ⟨rfl, rfl, rfl, Iff.rfl⟩) s t
    · exact (frame_taskSetTier releveling_stays.toRelinking
        (fun _ => ⟨rfl, rfl⟩) s).mono fun _ hs => hs.currentTask
  · exact .some ⟨.refl queueing_sameSpace s, rfl⟩

/-- The running task gets a new directory, and its old one is not needed any more. -/
theorem swapDir (hcur : k.sched.currentTask = .slot i)
    (hnew : pd ∉ dirs) (hhigh : pageStartIndex ≤ pd) (hat : AtSlot k.sched s i)
    (hpd : (s.task (.slot i)).cr3 = pd) (hlive : s.Live i)
    (hcharge : counted → Covers (s.task (.slot i)).charge places)
    (ho : Owned owner' ⟨insert pd dirs \ {(k.sched.task (.slot i)).cr3}, ∅, cache, top,
      newRoom dirs room places, once⟩ (vm.loadCr3 pd)) :
    Housed counted once owner' (insert pd dirs \ {(k.sched.task (.slot i)).cr3})
      (newRoom dirs room places) cache top ⟨s, vm.loadCr3 pd⟩ := by
  have hi := h.runs i hcur
  refine ⟨ho, (newDir h.spaced hat hpd hhigh hnew hcharge).drop (h.spaced.high i hi) ?_, ?_, ?_⟩
  · intro j hj hc
    by_cases hji : j = i
    · rw [hji, hpd] at hc
      exact hnew (hc ▸ h.spaced.mem i hi)
    · have hold : s.task (.slot j) = k.sched.task (.slot j) :=
        hat.others _ fun hc => hji (TaskPtr.slot.inj hc)
      rw [hold] at hc
      exact hji (h.spaced.distinct j i ((hat.live hji).mp hj) hi hc)
  · intro j hj
    obtain rfl : i = j := TaskPtr.slot.inj (hcur.symm.trans (hat.currentTask.symm.trans hj))
    exact hlive
  · change pd = (s.task s.currentTask).cr3
    rw [hat.currentTask, hcur, hpd]

/-- `sys_exec` once the image is loaded: the old directory is taken down. -/
theorem execSwap
    (hcur : k.sched.currentTask = .slot i) (hchecked : counted → k.Unlimited)
    {cr3 : ℕ} (hf : Filling once dirs room cache top places pd vm) (entry : ℕ) (resolved : CStr)
    (argv : List CStr) :
    Post (Kernel.execSwap ⟨{ k.sched with cr3 := cr3 }, vm⟩ (.slot i) pd entry resolved argv)
      fun r => Orderly counted once cache top r.2 := by
  have hi := h.runs i hcur
  obtain ⟨owner', ho⟩ := hf.owned
  obtain ⟨owner1, ho1⟩ := (ho.loadCr3 (k.sched.task (.slot i)).cr3).teardown
    (.inr (h.spaced.mem i hi)) (h.spaced.high i hi) rfl k.sched.pageDirectory
  unfold Kernel.execSwap
  simp only
  generalize (vm.loadCr3 (k.sched.task (.slot i)).cr3).teardownCurrentPd
    (k.sched.task (.slot i)).cr3 k.sched.pageDirectory = vm1 at ho1
  split
  swap
  · exact .none
  refine (execTier_same _ (.slot i) resolved).bind ?_
  rintro s2 ⟨hvia, hcur2⟩
  have hat : AtSlot k.sched { k.sched with cr3 := cr3 } i := ⟨fun _ _ => rfl, rfl, rfl⟩
  have ho2 := placed (ho1.loadCr3 pd) fun d hd hc => hd.1.resolve_right hc
  have hswapped := h.swapDir hcur hf.fresh hf.high (hat.modify fun task =>
    { task with cr3 := pd, userEntry := entry, userStack := buildArgStack argv, map := false,
                pagesCharged := (vm1.loadCr3 pd).countUserPages }) ?_ ?_ (fun hc => ?_) ho2
  · exact .some ⟨owner1, _, _, (hswapped.resched hvia hcur2).loadCr3 rfl⟩
  · rw [task_modify, if_pos rfl]
  · unfold Sched.Live
    rw [task_modify, if_pos rfl]
    exact hi
  · simp only [task_modify, if_true, Task.charge]
    have hnone : (k.sched.task (.slot i)).memLimit = 0 := hcur ▸ hchecked hc
    exact covers_userPages _ hnone

/-- **`sys_exec`.** -/
theorem sysExec (hcur : k.sched.currentTask ≠ .idle)
    (hchecked : counted → k.Unlimited) (hfile : file.InOrder) (path : CStr) (argv : List CStr) :
    Post (k.sysExec L path argv file) fun r => Orderly counted once cache top r.2 := by
  refine sysExec_rule path argv (h.builds hfile) (fun _ => ⟨owner, dirs, room, h⟩)
    (fun vm hvm => ⟨owner, dirs, room, (h.setVm hvm.1 hvm.2).handlePressure⟩) (fun _ pd vm hf => ?_)
    fun pd vm entry hf => ?_
  · obtain ⟨owner1, hfreed⟩ := h.freeBuiltPd hf pd
    exact ⟨owner1, dirs, room, hfreed⟩
  · cases hc : k.sched.currentTask with
    | idle => exact absurd hc hcur
    | slot i => exact h.execSwap hc hchecked hf _ _ argv

theorem spawnTask {cr3 : ℕ}
    (hf : Filling once dirs room cache top places pd vm) (path : CStr) (entry : ℕ) (mapped : Bool) :
    Orderly counted once cache top (Kernel.spawnTask
      ⟨{ k.sched with cr3 := cr3 }, vm⟩ path pd k.vm.cr3 entry mapped).2 := by
  unfold Kernel.spawnTask
  split
  · obtain ⟨owner', hback⟩ := h.withPd hf
    exact ⟨owner', dirs, room, hback⟩
  · rename_i i s1 hslot
    have hnew := newSlot_of_createTaskSlot hslot
    have hat : AtSlot k.sched s1 i := ⟨hnew.others, hnew.currentTask, hnew.pageDirectory⟩
    have hvm : Filling once dirs room cache top places pd
        (if mapped then vm.vmScanUserPages.vmProtectReadonly else vm) := by
      obtain ⟨owner', ho⟩ := hf.owned
      obtain ⟨ho', hcr3⟩ := ho.spawnProtect (hf.loaded ▸ mem_insert ..)
      split
      · exact ⟨hf.fresh, hf.high, hcr3.trans hf.loaded, owner', ho'⟩
      · exact hf
    refine h.place (s := s1.modify (.slot i) _) (hat.modify _) (h.runs.ne hnew.free) ?_ hvm.placed
      rfl fun _ => ?_
    all_goals simp only [task_modify, if_true, Task.charge]
    exact covers_userPages _ rfl

/-- **`spawn_user_process`.** -/
theorem spawnUserProcess (hfile : file.InOrder)
    (path : CStr) (mapped : Bool) :
    Post (k.spawnUserProcess L path file mapped) fun r =>
      Orderly counted once cache top r.2 := by
  refine spawnUserProcess_rule path mapped (h.builds hfile) ⟨owner, dirs, room, h⟩
    (fun vm hvm => ⟨owner, dirs, room, (h.setVm hvm.1 hvm.2).handlePressure⟩) (fun pd vm hf => ?_)
    fun pd vm entry hf => h.spawnTask hf path entry mapped
  obtain ⟨owner', hback⟩ := h.withPd hf
  exact ⟨owner', dirs, room, hback.handlePressure⟩

/-- **`task_exit`**: the running task has ended, and its frames are free. -/
theorem endTask (hcur : k.sched.currentTask ≠ .idle)
    (code : ℤ) : Post (k.endTask code) fun k' =>
      ∃ owner dirs, Owned owner ⟨dirs, ∅, cache, top, room, once⟩ k'.vm ∧
        Spaced dirs (fun d c => counted → Covers c (room d)) k'.sched := by
  refine (h.spaced.exitCurrent code).bind fun s1 ⟨hspaced, hlive⟩ => .some ?_
  have hhigh := h.spaced.current_high h.runs hcur
  obtain ⟨owner1, ho1⟩ := h.owned.teardown (h.spaced.current_mem h.runs) hhigh h.cr3
    k.sched.pageDirectory
  refine ⟨owner1, _, ho1, hspaced.drop hhigh fun i hi hc => ?_⟩
  cases hcur' : k.sched.currentTask with
  | idle => exact hcur hcur'
  | slot j =>
    obtain ⟨hi', hne, hcr3⟩ := hlive i hi
    rw [hcur'] at hc hne
    obtain rfl := h.spaced.distinct i j hi' (h.runs j hcur') (hcr3.symm.trans hc)
    exact hne rfl

omit h in
/-- `switch_to_task` leaves directories alone, and the task it switches to runs. -/
theorem task_switchToTask (s : Sched) (next t : TaskPtr) :
    ((s.switchToTask next).task t).cr3 = (s.task t).cr3 ∧
      ((s.switchToTask next).task t).charge = (s.task t).charge ∧
      ((s.switchToTask next).task t).inUse = (s.task t).inUse ∧
      (((s.switchToTask next).task t).state = if t = next then .running else (s.task t).state) := by
  by_cases ht : t = next
  · subst ht
    simp only [switchToTask, setTaskTimeslice, setState, task_modify, if_true, Task.charge,
      and_self]
  · simp only [switchToTask, setTaskTimeslice, setState, task_modify, if_neg ht, and_self]

omit h in
theorem switchTo (ho : Owned owner ⟨dirs, ∅, cache, top, room, once⟩ k.vm)
    (hs : Spaced dirs (fun d c => counted → Covers c (room d)) k.sched) (next : TaskPtr) :
    Post (k.switchTo next) fun k' => Housed counted once owner dirs room cache top k' := by
  unfold Kernel.switchTo
  split
  swap
  · exact .none
  rename_i hnext
  have hlive : ∀ i, (k.sched.switchToTask next).Live i → k.sched.Live i := by
    intro i hi
    obtain ⟨-, -, huse, hstate⟩ := task_switchToTask k.sched next (.slot i)
    by_cases hin : (.slot i : TaskPtr) = next
    · subst hin
      exact hnext.resolve_left nofun
    · rw [if_neg hin] at hstate
      exact ⟨huse ▸ hi.1, hstate ▸ hi.2⟩
  refine .some ⟨ho.loadCr3 _, hs.of_live rfl (task_switchToTask k.sched next .idle).1 fun i hi =>
    ⟨hlive i hi, (task_switchToTask k.sched next (.slot i)).1,
      (task_switchToTask k.sched next (.slot i)).2.1⟩, fun i hi => ?_, rfl⟩
  obtain rfl : next = .slot i := hi
  obtain ⟨-, -, huse, hstate⟩ := task_switchToTask k.sched (.slot i) (.slot i)
  refine ⟨huse.trans (hnext.resolve_left nofun).1, ?_⟩
  rw [if_pos rfl] at hstate
  exact fun hc => nomatch hstate.symm.trans hc

theorem endThen (hcur : k.sched.currentTask ≠ .idle)
    (code : ℤ) (next : TaskPtr) : Post (k.endTask code >>= fun k => k.switchTo next) fun k' =>
      Orderly counted once cache top k' := by
  refine (h.endTask hcur code).bind ?_
  rintro k1 ⟨owner1, dirs1, ho1, hs1⟩
  exact (switchTo ho1 hs1 next).mono fun _ hk => ⟨owner1, dirs1, room, hk⟩

/-- **A page fault in user mode.** -/
theorem faultThen (hcur : k.sched.currentTask ≠ .idle)
    (vaddr : ℕ) (present write : Bool) (next : TaskPtr) :
    Post (k.faultThen (fun k => k.switchTo next) vaddr present write) fun k' =>
      Orderly counted once cache top k' := by
  unfold Kernel.faultThen
  split
  · refine (h.owned.faultCow h.loaded vaddr).bind ?_
    rintro ⟨r, vm1⟩ ⟨⟨owner1, ho1⟩, hcr31⟩
    have hrepaired := (h.setVm ho1 hcr31).handlePressure
    simp only
    split
    · exact .some ⟨owner1, dirs, room, hrepaired⟩
    · refine hrepaired.endThen ?_ 14 next
      rw [currentTask_handlePressure]
      exact hcur
  · exact h.endThen hcur 14 next

theorem expandHeap (htop : heapStartPage ≤ top) :
    ∃ owner, Housed counted once owner dirs room cache (if k.vm.freeq.isEmpty then top else top + 1)
      (k.expandHeap (top * pageSize)) := by
  unfold Kernel.expandHeap
  rcases halloc : k.vm.allocPageFrame with ⟨f, vm1⟩
  cases f with
  | none =>
    obtain ⟨ho1, hcr31⟩ := h.owned.alloc_none halloc
    have hempty : k.vm.freeq.isEmpty = true := by
      rcases k.vm.allocPhysPage_cases with ⟨-, hfree⟩ | ⟨g, freeq, -, hsome⟩
      · rw [hfree]
        rfl
      · rw [Vm.allocPageFrame, hsome] at halloc
        cases (Prod.mk.inj halloc).1
    rw [if_pos hempty]
    exact ⟨owner, (h.setVm ho1 hcr31).handlePressure⟩
  | some f =>
    have hsome : ¬k.vm.freeq.isEmpty = true := by
      intro hempty
      rw [Vm.allocPageFrame, Vm.allocPhysPage, isEmpty_iff.mp hempty] at halloc
      cases (Prod.mk.inj halloc).1
    obtain ⟨owner1, ho1⟩ := h.owned.growHeap h.loaded htop halloc
    have hcr31 : (vm1.mapPage (top * pageSize) f false).cr3 = k.vm.cr3 :=
      (Vm.cr3_mapPage ..).trans (h.owned.alloc halloc).2.2.2.2
    rw [if_neg hsome]
    exact ⟨owner1, ho1, h.spaced, h.runs, hcr31.trans h.cr3⟩

omit h in
theorem growPages (pages : ℕ) : ∀ {owner top k}, Housed counted once owner dirs room cache top k →
    heapStartPage ≤ top →
    ∃ owner, Housed counted once owner dirs room cache
      (if (Kernel.growPages pages (top * pageSize) k).1 then top + pages else top)
      (Kernel.growPages pages (top * pageSize) k).2 := by
  induction pages with
  | zero => exact fun h _ => ⟨_, h⟩
  | succ pages ih =>
    intro owner top k h htop
    obtain ⟨owner1, h1⟩ := h.expandHeap htop
    unfold Kernel.growPages
    split
    · rename_i hempty
      rw [if_pos hempty] at h1
      exact ⟨owner1, h1⟩
    · rename_i hsome
      rw [if_neg hsome] at h1
      obtain ⟨owner2, h2⟩ := ih h1 (Nat.le_succ_of_le htop)
      rw [Nat.succ_mul] at h2
      refine ⟨owner2, ?_⟩
      split
      · rename_i hok
        rw [if_pos hok, Nat.add_right_comm] at h2
        exact h2
      · rename_i hfail
        rw [if_neg hfail] at h2
        exact ⟨h2.owned.lowerHeap (Nat.le_succ top), h2.spaced, h2.runs, h2.cr3⟩

end Housed

end Kernel

/-! ## Runs -/

namespace FrameState

/-- The ledger is right, and so are the directories. -/
def Isolated (st : FrameState) : Prop :=
  ∃ owner dirs top, st.kernel.Isolated owner dirs st.cache top ∧ st.heapBrk = top * pageSize ∧
    heapStartPage ≤ top

/-- The invariant that every event keeps. -/
def Orderly (counted once : Prop) (st : FrameState) : Prop :=
  ∃ top, st.kernel.Orderly counted once st.cache top ∧ st.heapBrk = top * pageSize ∧
    heapStartPage ≤ top

variable {counted once : Prop} {st : FrameState}

theorem Orderly.isolated (h : st.Orderly counted once) : st.Isolated := by
  obtain ⟨top, ⟨owner, dirs, room, hk⟩, hbrk, htop⟩ := h
  exact ⟨owner, dirs, top, hk.isolated, hbrk, htop⟩

/-- What changes tasks and page tables keeps it. -/
theorem Orderly.setKernel {α : Type} {x : Option α} {f : α → Kernel} (h : st.Orderly counted once)
    (hx : ∀ {owner dirs room top}, st.kernel.Housed counted once owner dirs room st.cache top →
      Post x fun a => (f a).Orderly counted once st.cache top) :
    Post (x.map fun a => st.setKernel (f a)) (Orderly counted once) := by
  obtain ⟨top, ⟨owner, dirs, room, hk⟩, hbrk, htop⟩ := h
  exact (hx hk).map fun a ha => ⟨top, ha, hbrk, htop⟩

theorem Orderly.heapGrow (h : st.Orderly counted once) (pages : ℕ) :
    (st.heapGrow pages).Orderly counted once := by
  obtain ⟨top, ⟨owner, dirs, room, hk⟩, hbrk, htop⟩ := h
  unfold FrameState.heapGrow
  split
  · exact ⟨top, ⟨owner, dirs, room, hk⟩, hbrk, htop⟩
  · obtain ⟨owner1, hk1⟩ := hk.growPages pages htop
    rw [hbrk]
    rcases hgrow : Kernel.growPages pages (top * pageSize) st.kernel with ⟨ok, k1⟩
    rw [hgrow] at hk1
    cases ok with
    | true =>
      refine ⟨top + pages, ⟨owner1, dirs, room, hk1⟩, ?_, Nat.le_add_right_of_le htop⟩
      exact (Nat.add_mul top pages pageSize).symm
    | false => exact ⟨top, ⟨owner1, dirs, room, hk1⟩, hbrk, htop⟩

theorem Orderly.readpage (h : st.Orderly counted once) (ino pgoff : ℕ) (ok : Bool) :
    (st.readpage ino pgoff ok).Orderly counted once := by
  obtain ⟨top, ⟨owner, dirs, room, hk⟩, hbrk, htop⟩ := h
  unfold FrameState.readpage
  split
  swap
  · exact ⟨top, ⟨owner, dirs, room, hk⟩, hbrk, htop⟩
  rename_i slot _ _
  rcases halloc : st.kernel.vm.allocPageFrame with ⟨f, vm1⟩
  cases f with
  | none =>
    obtain ⟨ho1, hcr31⟩ := hk.owned.alloc_none halloc
    exact ⟨top, ⟨owner, dirs, room, (hk.setVm ho1 hcr31).handlePressure⟩, hbrk, htop⟩
  | some f =>
    obtain ⟨ho1, -, -, -, hcr31⟩ := hk.owned.alloc halloc
    have hempty : ∀ {g}, g ∈ (∅ : Set ℕ) → g ∈ insert f (∅ : Set ℕ) \ {f} := fun hg => hg.elim
    simp only
    split
    · have ho2 := (ho1.fillCache (mem_insert ..) slot ino pgoff).mono (fun _ hd => hd)
        fun _ => hempty
      exact ⟨top, ⟨_, dirs, room, ho2, hk.spaced, hk.runs, hcr31.trans hk.cr3⟩, hbrk, htop⟩
    · have ho2 := (ho1.freeTaken (mem_insert ..)).mono (fun _ hd => hd) fun _ => hempty
      have hcr32 := (Vm.cr3_freePageFrame vm1 f).trans hcr31
      exact ⟨top, ⟨owner, dirs, room, hk.setVm ho2 hcr32⟩, hbrk, htop⟩

/-- After `paging_init` no frame that is handed out is used. -/
theorem owned_pagingInit {tables : StaticTables} (hapart : tables.Apart) :
    Owned (fun _ => none) ⟨{tables.pageDirectory}, ∅, replicate pageCacheSize none,
      heapStartPage, fun _ => univ, once⟩ (pagingInit tables) := by
  have hfree : ∀ f ∈ (pagingInit tables).freeq, f ∈ frames := by
    intro f hf
    obtain ⟨i, hi, rfl⟩ := mem_range'.mp hf
    unfold frames numPages pageSize pageStartIndex at *
    constructor <;> omega
  -- user mode has no access to what the static tables map
  have hstatic : ∀ {f}, f < pageStartIndex → f ≠ tables.pageDirectory →
      StaticTable {tables.pageDirectory} (pagingInit tables).entry f := by
    intro f hlow hne
    refine ⟨hlow, hne, fun j p hp => ?_⟩
    have hp : (pagingInit tables).entry f j = some p := hp
    simp only [pagingInit, if_neg hne] at hp
    split at hp
    · cases hp
      rfl
    · obtain ⟨_, -, rfl⟩ := Option.map_eq_some_iff.mp hp
      rfl
  -- the words of the kernel's directory
  have hword : ∀ i e, (pagingInit tables).entry tables.pageDirectory i = some e →
      e.rw = true ∧ ¬UserIdx i ∧ (i = 1023 → e.frame = tables.pageDirectory) ∧
      (KernelIdx i → i.val < 784 ∧
        StaticTable {tables.pageDirectory} (pagingInit tables).entry e.frame) := by
    intro i e he
    simp only [pagingInit, if_true] at he
    split at he
    · rename_i hzero
      cases he
      refine ⟨rfl, fun hi => absurd hi.1 (by omega), ?_, fun _ => ⟨by omega, ?_⟩⟩
      · rintro rfl
        exact absurd hzero (by decide)
      · exact hstatic hapart.tableLow hapart.table
    split at he
    · rename_i hlast
      cases he
      refine ⟨rfl, fun hi => absurd hi.2 (by omega), fun _ => rfl, fun hi => ?_⟩
      unfold KernelIdx at hi
      omega
    split at he
    · rename_i hne _ hphys
      cases he
      refine ⟨rfl, fun hi => absurd hi.2 (by omega), ?_, fun _ => ⟨hphys.2, ?_⟩⟩
      · rintro rfl
        exact absurd hphys.2 (by decide)
      · exact hstatic (hapart.physmapLow _) (hapart.physmap _)
    · cases he
  refine ⟨⟨nodup_range', fun f hf => ⟨hfree f hf, rfl⟩, fun f hf => hf.elim, ?_⟩,
    ⟨?_, ?_, ?_, ?_, ?_, ?_, ?_⟩, fun n hlo hhi => absurd hhi (Nat.not_lt.mpr hlo), ?_,
    fun _ _ => Nat.zero_le _⟩
  · intro f x hx
    cases hx
  · rintro d rfl
    exact .inr hapart.dirLow
  · rintro d rfl i e he
    exact (hword i e he).1
  · rintro d rfl e he
    exact (hword 1023 e he).2.2.1 rfl
  · rintro d rfl i hi e he
    exact absurd hi (hword i e he).2.1
  · rintro d rfl i hi e he
    exact absurd hi (hword i e he).2.1
  · rintro d rfl i hi e he
    exact .inr ((hword i e he).2.2.2 hi)
  · intro f x hx
    cases hx
  · intro i s hs
    have hmem := mem_of_getElem? hs
    cases (eq_of_mem_replicate hmem)

theorem Orderly.init (h : (frameSystem L).init st) : st.Orderly counted once := by
  obtain ⟨tables, hapart, rfl⟩ := h
  refine ⟨heapStartPage, ⟨_, _, _, owned_pagingInit hapart, ⟨hapart.dirLow, rfl, rfl, ?_, ?_, ?_,
    ?_⟩, nofun, rfl⟩, rfl, Nat.le_refl _⟩
  · exact fun i hi => nomatch hi.1
  · exact fun i hi => nomatch hi.1
  · exact fun i j hi => nomatch hi.1
  · exact fun i hi => nomatch hi.1

/-- **Every event keeps it.** -/
theorem Orderly.step (h : st.Orderly counted once) {e : FrameEvent}
    (hallowed : (frameSystem L).allowed st e) (hchecked : counted → e.Checked st.kernel) :
    Post ((frameSystem L).step st e) (Orderly counted once) := by
  cases e with
  | spawn path file mapped =>
    have hfile : file.InOrder := hallowed
    exact h.setKernel (f := Prod.snd) fun hk => hk.spawnUserProcess hfile path mapped
  | fork sb =>
    simp only [frameSystem]
    exact h.setKernel (f := Prod.snd) fun hk => hk.sysFork sb hchecked
  | exec path argv file =>
    obtain ⟨hcur, hfile⟩ := hallowed
    exact h.setKernel (f := Prod.snd) fun hk => hk.sysExec hcur hchecked hfile path argv
  | exit code next =>
    exact h.setKernel (f := id) fun hk => hk.endThen hallowed code next
  | fault vaddr present write next =>
    exact h.setKernel (f := id) fun hk => hk.faultThen hallowed vaddr present write next
  | readpage ino pgoff ok => exact .some (h.readpage ino pgoff ok)
  | heapGrow pages => exact .some (h.heapGrow pages)
  | switch next =>
    refine h.setKernel (f := id) fun hk => ?_
    exact (Kernel.Housed.switchTo hk.owned hk.spaced next).mono fun _ hk => ⟨_, _, _, hk⟩

/-- No count is above one. -/
def Counted (st : FrameState) : Prop := st.kernel.vm.Counted

/-- **Frames are in order in every run**, and none is counted twice. -/
theorem orderly_of_reachable (h : (frameSystem L).Reachable st) : st.Orderly False True := by
  refine System.Reachable.invariant (S := frameSystem L) (fun _ hinit => .init hinit) ?_ h
  exact fun _ _ st' hst hallowed hstep => hst.step hallowed False.elim st' hstep

theorem isolated_of_reachable (h : (frameSystem L).Reachable st) : st.Isolated :=
  (orderly_of_reachable h).isolated

theorem counted_of_reachable (h : (frameSystem L).Reachable st) : st.Counted := by
  obtain ⟨_, ⟨_, _, _, hk⟩, -⟩ := orderly_of_reachable h
  exact hk.owned.counts trivial

/-! ## Roles -/

/-- The directories in use: the kernel's and those of live tasks. -/
def dirs (st : FrameState) : Set ℕ :=
  {d | d = st.kernel.sched.pageDirectory ∨
    ∃ i, st.kernel.sched.Live i ∧ (st.kernel.sched.task (.slot i)).cr3 = d}

end FrameState

/-- What a frame can be. -/
inductive FrameRole where
  /-- it is on the free list -/
  | free
  /-- a user page: word `j` of table `i` of a directory names it -/
  | userPage (d : ℕ) (i j : Fin 1024)
  /-- the table of a directory for an entry of the user part -/
  | userTable (d : ℕ) (i : Fin 1024)
  /-- the kernel's table for an entry -/
  | kernelTable (i : Fin 1024)
  /-- the directory of a task -/
  | pageDirectory (i : Fin maxTasks)
  /-- a page of the heap, by its number -/
  | heapPage (n : ℕ)
  /-- a page of the page cache, by its slot -/
  | cachePage (slot : ℕ)

/-- The frame has this role. -/
def FrameState.Holds (st : FrameState) (f : ℕ) : FrameRole → Prop
  | .free => f ∈ st.kernel.vm.freeq
  | .userPage d i j => d ∈ st.dirs ∧ UserIdx i ∧ ∃ e p, st.kernel.vm.entry d i = some e ∧
      st.kernel.vm.entry e.frame j = some p ∧ p.frame = f
  | .userTable d i => d ∈ st.dirs ∧ UserIdx i ∧
      ∃ e, st.kernel.vm.entry d i = some e ∧ e.frame = f
  | .kernelTable i => KernelIdx i ∧
      ∃ d ∈ st.dirs, ∃ e, st.kernel.vm.entry d i = some e ∧ e.frame = f
  | .pageDirectory i => st.kernel.sched.Live i ∧ (st.kernel.sched.task (.slot i)).cr3 = f
  | .heapPage n => ∃ d ∈ st.dirs, ∃ i j, HeapIdx i ∧ n = i.val * 1024 + j.val ∧
      ∃ e p, st.kernel.vm.entry d i = some e ∧ st.kernel.vm.entry e.frame j = some p ∧ p.frame = f
  | .cachePage slot => ∃ s, st.cache[slot]? = some (some s) ∧ s.phys = f

namespace FrameState

variable {st : FrameState}

/-- What the ledger says of a frame with a role. -/
inductive Backed (st : FrameState) (owner : ℕ → Option Owner) (f : ℕ) :
    Option Owner → FrameRole → Prop where
  /-- it has no owner -/
  | free : Backed st owner f none .free
  /-- the table is the directory's -/
  | userPage {d t : ℕ} {i j : Fin 1024} (ht : owner t = some (.userTable d i)) :
    Backed st owner f (some (.userPage t j)) (.userPage d i j)
  /-- the table itself -/
  | userTable {d : ℕ} {i : Fin 1024} : Backed st owner f (some (.userTable d i)) (.userTable d i)
  /-- a table of the kernel -/
  | kernelTable {i : Fin 1024} : Backed st owner f (some (.kernelTable i)) (.kernelTable i)
  /-- the task is live and has it -/
  | pageDirectory {i : Fin maxTasks} (hlive : st.kernel.sched.Live i)
    (hcr3 : (st.kernel.sched.task (.slot i)).cr3 = f) :
    Backed st owner f (some .dir) (.pageDirectory i)
  /-- a page of the heap -/
  | heapPage {n : ℕ} : Backed st owner f (some (.heapPage n)) (.heapPage n)
  /-- a page of the page cache -/
  | cachePage {slot : ℕ} : Backed st owner f (some (.cachePage slot)) (.cachePage slot)

/-- **A frame has one owner, and so one role.** -/
theorem Backed.unique {owner : ℕ → Option Owner} {f : ℕ} {o : Option Owner} {r r' : FrameRole}
    (hdistinct : ∀ i j, st.kernel.sched.Live i → st.kernel.sched.Live j →
      (st.kernel.sched.task (.slot i)).cr3 = (st.kernel.sched.task (.slot j)).cr3 → i = j)
    (h : Backed st owner f o r) (h' : Backed st owner f o r') : r = r' := by
  cases h with
  | free => cases h'; rfl
  | userPage ht =>
    cases h' with
    | userPage ht' =>
      obtain ⟨rfl, rfl⟩ := Owner.userTable.inj (Option.some.inj (ht.symm.trans ht'))
      rfl
  | userTable => cases h'; rfl
  | kernelTable => cases h'; rfl
  | pageDirectory hlive hcr3 =>
    cases h' with
    | pageDirectory hlive' hcr3' =>
      rw [hdistinct _ _ hlive hlive' (hcr3.trans hcr3'.symm)]
  | heapPage => cases h'; rfl
  | cachePage => cases h'; rfl

theorem backed_of_holds {owner : ℕ → Option Owner} {dirs : Set ℕ} {top : ℕ}
    (h : st.kernel.Isolated owner dirs st.cache top) {f : ℕ} (hf : pageStartIndex ≤ f)
    {r : FrameRole} (hr : st.Holds f r) : Backed st owner f (owner f) r := by
  have hdirs : ∀ {d}, d ∈ st.dirs → d ∈ dirs := by
    rintro d (rfl | ⟨i, hi, rfl⟩)
    · exact h.spaced.root
    · exact h.spaced.mem i hi
  cases r with
  | free =>
    rw [(h.owned.freeNone f hr).2]
    exact .free
  | userPage d i j =>
    obtain ⟨hd, hi, e, p, he, hp, rfl⟩ := hr
    rw [(h.owned.page d (hdirs hd) i hi e he j p hp).1]
    exact .userPage (h.owned.table d (hdirs hd) i hi e he)
  | userTable d i =>
    obtain ⟨hd, hi, e, he, rfl⟩ := hr
    rw [h.owned.table d (hdirs hd) i hi e he]
    exact .userTable
  | kernelTable i =>
    obtain ⟨hi, d, hd, e, he, rfl⟩ := hr
    rw [(h.owned.kernel d (hdirs hd) i hi e he).resolve_right
      fun hstatic => Nat.not_lt.mpr hf hstatic.2.1]
    exact .kernelTable
  | pageDirectory i =>
    obtain ⟨hi, rfl⟩ := hr
    rw [(h.owned.dir _ (h.spaced.mem i hi)).resolve_right (Nat.not_lt.mpr hf)]
    exact .pageDirectory hi rfl
  | heapPage n =>
    obtain ⟨d, hd, i, j, hi, rfl, e, p, he, hp, rfl⟩ := hr
    have hkernel : KernelIdx i :=
      .inr ⟨Nat.le_trans (by decide) hi.1, Nat.lt_trans hi.2 (by decide)⟩
    have htable := (h.owned.kernel d (hdirs hd) i hkernel e he).resolve_right
      fun hstatic => Nat.not_lt.mpr (Nat.le_trans (by decide) hi.1) hstatic.1
    rw [(h.owned.heap _ i htable j p hp).2 hi]
    exact .heapPage
  | cachePage slot =>
    obtain ⟨s, hs, rfl⟩ := hr
    rw [h.owned.cache slot s hs]
    exact .cachePage

end FrameState

/-- **No frame is used twice.** In every state that is reached by starting programs, forking,
executing files, ending, page faults, reads through the page cache and growth of the heap,
successful or not, with images in order: nothing is on the free list twice, and no frame that is
handed out has two roles, or the same one in two places. -/
theorem frames_isolated {L : Layout} {st : FrameState} (h : (frameSystem L).Reachable st) :
    st.kernel.vm.freeq.Nodup ∧
    ∀ f r r', pageStartIndex ≤ f → st.Holds f r → st.Holds f r' → r = r' := by
  obtain ⟨owner, dirs, top, hk, -, -⟩ := FrameState.isolated_of_reachable h
  refine ⟨hk.owned.nodup, fun f r r' hf hr hr' => ?_⟩
  exact FrameState.Backed.unique hk.spaced.distinct (FrameState.backed_of_holds hk hf hr)
    (FrameState.backed_of_holds hk hf hr')

/-- The machine after `paging_init` and `task_init`. -/
def frameBoot : FrameState :=
  ⟨⟨.taskInit 300, pagingInit someTables⟩, replicate pageCacheSize none,
    heapStartPage * pageSize⟩

theorem reachable_frameBoot {es : List FrameEvent} {st : FrameState}
    (hes : ∀ e ∈ es, ∀ s, (frameSystem capsLayout).allowed s e)
    (hst : (frameSystem capsLayout).run frameBoot es = some st) :
    (frameSystem capsLayout).Reachable st := by
  refine System.reachable_run (.init ⟨someTables, ?_, rfl⟩) (System.allowedRun_of_forall hes _) hst
  exact ⟨by decide, by decide, by decide, by decide, by decide⟩

/-- A program is started and runs, a page is read, and the heap grows by two pages. -/
def frameRun : List FrameEvent :=
  [.spawn (cstr "/mnt/prog.elf") (imageFile (oneSegment 0x01000000 0)) false, .switch (.slot 0),
    .readpage 7 0 true, .heapGrow 2]

/-- Frame 1026 is the program's first page, and nothing else; frame 1030 is in the page cache. -/
theorem frames_isolated_program :
    ∃ st, (frameSystem capsLayout).Reachable st ∧ st.Holds 1026 (.userPage 1024 4 0) ∧
      st.Holds 1030 (.cachePage 0) ∧ (∀ r, st.Holds 1026 r → r = .userPage 1024 4 0) ∧
      ∀ r, st.Holds 1030 r → r = .cachePage 0 := by
  obtain ⟨st, hst, hlive, hcr3, htable, hpage, hcache⟩ :
      ∃ st ∈ (frameSystem capsLayout).run frameBoot frameRun, st.kernel.sched.Live 0 ∧
        (st.kernel.sched.task (.slot 0)).cr3 = 1024 ∧
        st.kernel.vm.entry 1024 4 = some ⟨1027, true, true⟩ ∧
        st.kernel.vm.entry 1027 0 = some ⟨1026, true, true⟩ ∧
        st.cache[0]? = some (some ⟨7, 0, 1030⟩) := by
    decide +kernel
  have hreach : (frameSystem capsLayout).Reachable st := by
    refine reachable_frameBoot ?_ hst
    simp only [frameRun, forall_mem_cons]
    exact ⟨fun _ => imageOk_program, fun _ => trivial, fun _ => trivial, fun _ => trivial, nofun⟩
  have huser : st.Holds 1026 (.userPage 1024 4 0) :=
    ⟨.inr ⟨0, hlive, hcr3⟩, ⟨by decide, by decide⟩, _, _, htable, hpage, rfl⟩
  have hcached : st.Holds 1030 (.cachePage 0) := ⟨_, hcache, rfl⟩
  have hone := (frames_isolated hreach).2
  exact ⟨st, hreach, huser, hcached, fun r hr => hone 1026 r _ (by decide) hr huser,
    fun r hr => hone 1030 r _ (by decide) hr hcached⟩

end PokuOS

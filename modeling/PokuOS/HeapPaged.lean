import PokuOS.HeapFit
import PokuOS.HeapSizes
import PokuOS.Isolation
import PokuOS.PageRun

/-!
# The heap and the frames behind it

`kmalloc` once more, now with the page tables and the pool of free frames in the state.
`expand_heap` takes a frame and maps it; `grow_heap` does so page by page, and only when all of
them have been had does it move the break.

* A page that cannot be had ends the call, **but the frames taken for the pages before it are not
  given back** (`kmalloc_null_iff`).
* `map_page` returns without a word when there is no frame for a table, so the last page of the new
  ones **may not be there when `grow_heap` writes the new block's footer** (`growHeap_backed_iff`).
-/

namespace PokuOS

open Heap List Option

/-- The allocator, the page tables in use, and what the frames hold. The frames the allocator gets
come from the pool of `vm`. -/
structure PagedHeap where
  /-- kernel memory and the static variables of `heap.c` -/
  heap : Heap
  /-- the page tables and the free frames -/
  vm : Vm
  /-- what the frames hold -/
  contents : ℕ → Page

namespace PagedHeap

/-! ## `heap.c`, with frames -/

/-- The allocator's own state changes. -/
def setHeap (st : PagedHeap) (h : Heap) : PagedHeap := { st with heap := h }

/-- `expand_heap`: take a frame and map it. A page that is mapped shows what its frame holds. -/
def expandHeap (st : PagedHeap) (vaddr : ℕ) : Bool × PagedHeap :=
  match st.vm.allocPageFrame with
  | (none, vm) => (false, { st with vm := vm })
  | (some f, vm) =>
    let vm := vm.mapPage vaddr f false
    if vm.pagePresent vaddr then
      (true, { st with
        heap := { st.heap with mem := st.heap.mem.blit vaddr pageSize (st.contents f) }
        vm := vm })
    else (true, { st with vm := vm })

/-- The loop of `grow_heap`. -/
def expandPages (st : PagedHeap) (i : ℕ) : ℕ → Bool × PagedHeap
  | 0 => (true, st)
  | n + 1 =>
    match st.expandHeap (add32 st.heap.heapBrk (i * pageSize)) with
    | (false, st) => (false, st)
    | (true, st) => expandPages st (i + 1) n

/-- The rest of `grow_heap`, once the loop is through: the last block swallows the new pages, or
they become a block of their own. The kernel faults on a page that is not there, and stops; looked
at are the footer before the break and the header and footer that are written. -/
def growEnd (st : PagedHeap) (pages : ℕ) : Option PagedHeap :=
  let h := st.heap
  let prevSize := h.mem.load (sub32 h.heapBrk tagSize)
  let prev := sub32 h.heapBrk prevSize
  let footer := sub32 (add32 h.heapBrk (pages * pageSize)) tagSize
  if heapVirtStart < h.heapBrk ∧ !st.vm.pagePresent (sub32 h.heapBrk tagSize) then none
  else if heapVirtStart < h.heapBrk ∧ h.blockInHeap prev ∧ add32 prev prevSize = h.heapBrk ∧
      blockIsFree h.mem prev then
    if st.vm.pagePresent footer then (h.growMerge prev prevSize pages).map st.setHeap else none
  else if st.vm.pagePresent h.heapBrk ∧ st.vm.pagePresent footer then
    (h.growNew pages).map st.setHeap
  else none

/-- `grow_heap`; the flag tells whether it returned `0`. -/
def growHeap (st : PagedHeap) (needBytes : ℕ) : Option (Bool × PagedHeap) :=
  if needBytes = 0 then some (false, st)
  else if 0xFE000000 ≤ st.heap.heapBrk then some (false, st)
  else
    let pages := add32 needBytes (pageSize - 1) / pageSize
    match st.expandPages 0 pages with
    | (false, st) => some (false, st)
    | (true, st) => (st.growEnd pages).map (true, ·)

/-- The last part of `kmalloc`. -/
def carve (st : PagedHeap) (block totalSize : ℕ) : Option (ℕ × PagedHeap) :=
  (st.heap.carve block totalSize).map fun r => (r.1, st.setHeap r.2)

/-- `kmalloc`. -/
def kmalloc (st : PagedHeap) (size : ℕ) : Option (ℕ × PagedHeap) :=
  if size = 0 then some (0, st)
  else do
    match ← st.heap.findFit (totalSize size) with
    | some fb => st.carve fb (totalSize size)
    | none =>
      let (ok, st) ← st.growHeap (totalSize size)
      if ok then
        match ← st.heap.findFit (totalSize size) with
        | some fb => st.carve fb (totalSize size)
        | none => return (0, st)
      else return (0, st)

/-! ## What holds of every state -/

/-- **The allocator's invariant, with frames.** -/
structure Valid (st : PagedHeap) (cs : List Cell) : Prop where
  /-- the heap's invariant -/
  rep : Rep st.heap cs
  /-- frames come from the pool alone -/
  own : st.heap.frames.granted = 0
  /-- the break is a page boundary -/
  aligned : st.heap.heapBrk % pageSize = 0
  /-- the machine has no more frames than fit below the limit -/
  room : st.heap.heapBrk + st.vm.freeq.length * pageSize ≤ heapLimit
  /-- the free frames are apart from the tables of the heap -/
  pooled : st.vm.Pooled {i | HeapIdx i}
  /-- and from its pages -/
  page : ∀ i, HeapIdx i → ∀ e ∈ st.vm.entry st.vm.cr3 i, ∀ j, ∀ p ∈ st.vm.entry e.frame j,
    p.frame ∉ st.vm.freeq

/-- **The frames are apart in every run**: the ledger of the frames says so, for whichever
directory is loaded. -/
theorem pooled_of_isolated {st : FrameState} (h : st.Isolated) :
    st.kernel.vm.Pooled {i | HeapIdx i} ∧
      ∀ i, HeapIdx i → ∀ e ∈ st.kernel.vm.entry st.kernel.vm.cr3 i,
        ∀ j, ∀ p ∈ st.kernel.vm.entry e.frame j, p.frame ∉ st.kernel.vm.freeq := by
  obtain ⟨owner, dirs, top, h, -, -⟩ := h
  have hdir := h.loaded
  have htable : ∀ i, HeapIdx i → ∀ e ∈ st.kernel.vm.entry st.kernel.vm.cr3 i,
      owner e.frame = some (.kernelTable i) := by
    intro i hi e he
    have hi' : 832 ≤ i.val ∧ i.val < 896 := hi
    refine (h.owned.kernel _ hdir i (.inr ⟨by omega, by omega⟩) e he).resolve_right ?_
    exact fun hc => absurd hc.1 (by omega)
  have hcr3 : owner st.kernel.vm.cr3 = some .dir ∨ st.kernel.vm.cr3 < pageStartIndex :=
    h.owned.dir _ hdir
  refine ⟨⟨h.owned.nodup, fun hmem => ?_, fun i hi e he => ⟨fun hc => ?_, ?_⟩, ?_⟩, ?_⟩
  · obtain ⟨hframe, hnone⟩ := h.owned.freeNone _ hmem
    rcases hcr3 with hc | hc
    · cases hc.symm.trans hnone
    · exact absurd hframe.1 (by omega)
  · have hown := htable i hi e he
    rw [hc] at hown
    rcases hcr3 with hc | hc
    · cases hc.symm.trans hown
    · exact absurd (h.owned.owned hown).1 (by omega)
  · exact h.owned.not_mem_free (htable i hi e he)
  · intro i hi i' hi' e he e' he' heq
    have hown := htable i hi e he
    rw [heq, htable i' hi' e' he'] at hown
    exact (Owner.kernelTable.inj (some.inj hown)).symm
  · intro i hi e he j p hp
    exact h.owned.not_mem_free ((h.owned.heap _ i (htable i hi e he) j p hp).2 hi)

/-- The pages behind the break, from page `i` on. -/
def newPages (brk i n : ℕ) : List ℕ := (List.range' i n).map fun i => add32 brk (i * pageSize)

theorem newPages_succ (brk i n : ℕ) :
    newPages brk i (n + 1) = add32 brk (i * pageSize) :: newPages brk (i + 1) n := rfl

/-! ## The loop -/

/-- What the loop does to the allocator: nothing below the break. -/
structure LoopFrame (st st' : PagedHeap) : Prop where
  /-- memory below the break stays -/
  mem : Mem.SameOff {x | st.heap.heapBrk ≤ x} st.heap.mem st'.heap.mem
  /-- and the rest of the allocator's state -/
  heap : ∃ m, st'.heap = { st.heap with mem := m }

theorem LoopFrame.refl (st : PagedHeap) : LoopFrame st st := ⟨Mem.SameOff.refl _ _, _, rfl⟩

theorem LoopFrame.trans {st st' st'' : PagedHeap} (h : LoopFrame st st')
    (h' : LoopFrame st' st'') : LoopFrame st st'' := by
  obtain ⟨m, hm⟩ := h.heap
  obtain ⟨m', hm'⟩ := h'.heap
  have hbrk : st'.heap.heapBrk = st.heap.heapBrk := by rw [hm]
  refine ⟨h.mem.trans ?_, m', by rw [hm', hm]⟩
  rw [← hbrk]
  exact h'.mem

theorem LoopFrame.brk {st st' : PagedHeap} (h : LoopFrame st st') :
    st'.heap.heapBrk = st.heap.heapBrk := by
  obtain ⟨m, hm⟩ := h.heap
  rw [hm]

/-- The tiling is not touched. -/
theorem LoopFrame.rep {st st' : PagedHeap} (h : LoopFrame st st') {cs : List Cell}
    (r : Rep st.heap cs) : Rep st'.heap cs := by
  obtain ⟨m, hm⟩ := h.heap
  refine Backed.rep r ⟨h.mem, ?_, ?_, ?_, ?_⟩ <;> rw [hm]

theorem expandHeap_eq (st : PagedHeap) (vaddr : ℕ) :
    ((st.expandHeap vaddr).1, (st.expandHeap vaddr).2.vm) = st.vm.mapNew false vaddr ∧
      (st.heap.heapBrk ≤ vaddr → LoopFrame st (st.expandHeap vaddr).2) := by
  simp only [expandHeap, Vm.mapNew]
  rcases st.vm.allocPageFrame with ⟨_ | f, vm⟩
  · exact ⟨rfl, fun _ => ⟨Mem.SameOff.refl _ _, _, rfl⟩⟩
  · simp only
    split
    · refine ⟨rfl, fun hle => ⟨Mem.SameOff.blit fun x hx _ => ?_, _, rfl⟩⟩
      exact Nat.le_trans hle hx
    · exact ⟨rfl, fun _ => ⟨Mem.SameOff.refl _ _, _, rfl⟩⟩

/-- **The loop of `grow_heap` is a run of pages** behind the break, and leaves the tiling alone. -/
theorem expandPages_eq : ∀ (n : ℕ) (st : PagedHeap) (i : ℕ),
    st.heap.heapBrk + (i + st.vm.freeq.length) * pageSize < 2 ^ 32 →
    ((st.expandPages i n).1, (st.expandPages i n).2.vm) =
        st.vm.mapRun false (newPages st.heap.heapBrk i n) ∧
      LoopFrame st (st.expandPages i n).2 := by
  intro n
  induction n with
  | zero => exact fun st i _ => ⟨rfl, .refl st⟩
  | succ n ih =>
    intro st i hlt
    have haddr : add32 st.heap.heapBrk (i * pageSize) = st.heap.heapBrk + i * pageSize := by
      have : i * pageSize ≤ (i + st.vm.freeq.length) * pageSize :=
        Nat.mul_le_mul_right _ (Nat.le_add_right _ _)
      exact add32_eq (by omega)
    obtain ⟨hstep, hframe⟩ := st.expandHeap_eq (add32 st.heap.heapBrk (i * pageSize))
    have hframe := hframe (by rw [haddr]; exact Nat.le_add_right _ _)
    rw [newPages_succ]
    simp only [expandPages, Vm.mapRun, ← hstep]
    rcases hexp : st.expandHeap (add32 st.heap.heapBrk (i * pageSize)) with ⟨_ | _, st1⟩
    · rw [hexp] at hframe
      exact ⟨rfl, hframe⟩
    · rw [hexp] at hframe hstep
      have hlen : st1.vm.freeq.length + 1 ≤ st.vm.freeq.length := Vm.length_mapNew hstep.symm
      have hbrk := hframe.brk
      obtain ⟨hrun, hframe1⟩ := ih st1 (i + 1) (by
        rw [hbrk]
        refine Nat.lt_of_le_of_lt (Nat.add_le_add_left (Nat.mul_le_mul_right _ ?_) _) hlt
        omega)
      rw [hbrk] at hrun
      exact ⟨hrun, hframe.trans hframe1⟩

/-! ## Addresses of the heap -/

theorem heapIdx_of_lt {v : ℕ} (hlo : heapVirtStart ≤ v) (hhi : v < heapLimit) :
    HeapIdx (pdIdx v) := by
  have hlim : heapLimit = 0xD4040000 := by decide
  rw [HeapIdx, pdIdx_val]
  rw [heapVirtStart] at hlo
  omega

/-- Two different pages differ in an index. -/
theorem page_ne {v w : ℕ} (hv : v % pageSize = 0) (hw : w % pageSize = 0) (hv' : v < 2 ^ 32)
    (hw' : w < 2 ^ 32) (hne : v ≠ w) : pdIdx v ≠ pdIdx w ∨ ptIdx v ≠ ptIdx w := by
  rw [pageSize] at hv hw
  by_contra hc
  obtain ⟨hi, hj⟩ := not_or.mp hc
  have hi : v / 2 ^ 22 % 1024 = w / 2 ^ 22 % 1024 := congrArg Fin.val (not_not.mp hi)
  have hj : v / 2 ^ 12 % 1024 = w / 2 ^ 12 % 1024 := congrArg Fin.val (not_not.mp hj)
  omega

theorem mem_newPages {brk k v : ℕ} (hle : brk + k * pageSize ≤ heapLimit) :
    v ∈ newPages brk 0 k ↔ ∃ i < k, v = brk + i * pageSize := by
  have hlim := heapLimit_lt
  have haddr : ∀ i < k, add32 brk (i * pageSize) = brk + i * pageSize := fun i hi => by
    have : i * pageSize ≤ k * pageSize := Nat.mul_le_mul_right _ hi.le
    exact add32_eq (by omega)
  simp only [newPages, List.mem_map, mem_range'_1, Nat.zero_le, true_and, Nat.zero_add]
  constructor
  · rintro ⟨i, hi, rfl⟩
    exact ⟨i, hi, haddr i hi⟩
  · rintro ⟨i, hi, rfl⟩
    exact ⟨i, hi, haddr i hi⟩

/-- The new pages are pages of the heap. -/
theorem heapIdx_newPages {brk k : ℕ} (hstart : heapVirtStart ≤ brk)
    (hle : brk + k * pageSize ≤ heapLimit) : ∀ v ∈ newPages brk 0 k, HeapIdx (pdIdx v) := by
  intro v hv
  obtain ⟨i, hi, rfl⟩ := (mem_newPages hle).mp hv
  have : (i + 1) * pageSize ≤ k * pageSize := Nat.mul_le_mul_right _ hi
  rw [Nat.add_mul, pageSize] at this
  rw [pageSize] at hle ⊢
  exact heapIdx_of_lt (by omega) (by omega)

theorem newPages_pairwise {brk k : ℕ} (halign : brk % pageSize = 0)
    (hle : brk + k * pageSize ≤ heapLimit) :
    (newPages brk 0 k).Pairwise fun v w => pdIdx v ≠ pdIdx w ∨ ptIdx v ≠ ptIdx w := by
  have hlim := heapLimit_lt
  have hpage : ∀ i < k, add32 brk (i * pageSize) = brk + i * pageSize ∧
      brk + i * pageSize < 2 ^ 32 ∧ (brk + i * pageSize) % pageSize = 0 := fun i hi => by
    have : i * pageSize ≤ k * pageSize := Nat.mul_le_mul_right _ hi.le
    refine ⟨add32_eq (by omega), by omega, ?_⟩
    rw [Nat.add_mul_mod_self_right]
    exact halign
  rw [newPages, pairwise_map]
  refine List.Pairwise.imp_of_mem ?_ (nodup_range' (s := 0) (n := k))
  intro i j hi hj hne
  obtain ⟨hi1, hi2, hi3⟩ := hpage i (by simpa using hi)
  obtain ⟨hj1, hj2, hj3⟩ := hpage j (by simpa using hj)
  rw [hi1, hj1]
  refine page_ne hi3 hj3 hi2 hj2 fun heq => hne ?_
  exact Nat.eq_of_mul_eq_mul_right (show 0 < pageSize by decide) (Nat.add_left_cancel heq)

/-! ## Frames -/

/-- The frames the loop has to find: one for every page, and one for every missing table but that
of the last page. -/
def loopFrames (st : PagedHeap) (pages : ℕ) : ℕ :=
  pages + (st.vm.missing (newPages st.heap.heapBrk 0 pages).dropLast).card

/-- The frames for all pages and all missing tables. -/
def allFrames (st : PagedHeap) (pages : ℕ) : ℕ :=
  pages + (st.vm.missing (newPages st.heap.heapBrk 0 pages)).card

section Loop

variable {st : PagedHeap} {cs : List Cell} {k : ℕ}

theorem length_newPages (brk i n : ℕ) : (newPages brk i n).length = n := by
  simp [newPages]

variable (v : st.Valid cs)
include v

theorem Valid.start_le : heapVirtStart ≤ st.heap.heapBrk := by
  rw [v.rep.brk]
  exact start_le_blockAt cs

/-- The pages that there are frames for lie below the limit. -/
theorem Valid.below (hk : k ≤ st.vm.freeq.length) :
    st.heap.heapBrk + k * pageSize ≤ heapLimit :=
  (Nat.add_le_add_left (Nat.mul_le_mul_right _ hk) _).trans v.room

theorem Valid.loop_eq (k : ℕ) :
    ((st.expandPages 0 k).1, (st.expandPages 0 k).2.vm) =
        st.vm.mapRun false (newPages st.heap.heapBrk 0 k) ∧
      LoopFrame st (st.expandPages 0 k).2 := by
  refine expandPages_eq k st 0 ?_
  have := heapLimit_lt
  have := v.room
  rw [Nat.zero_add]
  omega

/-- **When the loop goes through.** -/
theorem Valid.loop_iff (k : ℕ) :
    (st.expandPages 0 k).1 = true ↔ st.loopFrames k ≤ st.vm.freeq.length := by
  have hflag := congrArg Prod.fst (v.loop_eq k).1
  simp only at hflag
  rw [hflag, loopFrames]
  rcases Nat.lt_or_ge st.vm.freeq.length k with hlt | hle
  · refine iff_of_false (fun hc => ?_) (by omega)
    have := Vm.length_le_of_mapRun _ _ hc
    rw [length_newPages] at this
    omega
  · have h := Vm.mapRun_iff false (newPages st.heap.heapBrk 0 k) v.pooled
      (heapIdx_newPages v.start_le (v.below hle))
    rw [length_newPages] at h
    exact h

/-- **A loop that stops has taken every free frame.** -/
theorem Valid.loop_false (hflag : (st.expandPages 0 k).1 = false) :
    (st.expandPages 0 k).2.vm.freeq = [] := by
  have heq := (v.loop_eq k).1
  have hvm := congrArg Prod.snd heq
  simp only at hvm
  rw [hvm]
  refine Vm.freeq_of_mapRun_false _ _ ?_
  rw [← heq]
  exact hflag

end Loop

/-! ## The end of `grow_heap` -/

variable {l : List Cell}

section Grow

variable {st st' : PagedHeap} {cs : List Cell} {k need : ℕ}

/-- The word before the break and the last word of the new pages. -/
theorem Rep.footer_eq {h : Heap} (r : Rep h cs) (hle : h.heapBrk + k * pageSize ≤ heapLimit) :
    sub32 (add32 h.heapBrk (k * pageSize)) tagSize = h.heapBrk + k * pageSize - 4 := by
  have := heapLimit_lt
  have := start_le_blockAt cs
  have hpos : 4 ≤ heapVirtStart := by decide
  rw [← r.brk] at this
  rw [add32_eq (by omega), tagSize, sub32_eq (by omega) (by omega)]

theorem growEnd_eq {c : Cell} (r : Rep st.heap (l ++ [c]))
    (hle : st.heap.heapBrk + k * pageSize ≤ heapLimit) :
    st.growEnd k =
      if !st.vm.pagePresent (st.heap.heapBrk - 4) then none
      else if c.free then
        if st.vm.pagePresent (st.heap.heapBrk + k * pageSize - 4) then
          (st.heap.growMerge (blockAt l) c.size k).map st.setHeap else none
      else if st.vm.pagePresent st.heap.heapBrk ∧
          st.vm.pagePresent (st.heap.heapBrk + k * pageSize - 4) then
        (st.heap.growNew k).map st.setHeap
      else none := by
  obtain ⟨hfoot, hprev, hin, hadd, hfree⟩ := r.last_block
  have hpos : heapVirtStart < st.heap.heapBrk := by
    have := (Sized.cons.mp (Sized.append.mp r.sized).2).1.2
    have := start_le_blockAt l
    rw [r.brk, blockAt_append, span_cons]
    omega
  have hlast : sub32 st.heap.heapBrk tagSize = st.heap.heapBrk - 4 := by
    have := r.brk_le
    have := heapLimit_lt
    have : 4 ≤ heapVirtStart := by decide
    rw [tagSize, sub32_eq (by omega) (by omega)]
  rw [hlast] at hfoot
  unfold growEnd
  simp only [Rep.footer_eq r hle, hfoot, hprev, hlast, hpos, hin, hadd, hfree, true_and]

section

variable (r : Rep st.heap cs) (hown : st.heap.frames.granted = 0) (hk : 0 < k)
  (hle : st.heap.heapBrk + k * pageSize ≤ heapLimit)
include r hown hk hle

/-- **The new pages become part of the last block, or a block of their own.** -/
theorem growEnd_some (h : st.growEnd k = some st') :
    st.vm.pagePresent (st.heap.heapBrk + k * pageSize - 4) ∧
      ∃ h', st' = st.setHeap h' ∧ Rep h' (grown (k * pageSize) cs) := by
  obtain rfl | ⟨l, ⟨t, free⟩, rfl⟩ := eq_nil_or_concat' cs
  · exact absurd rfl r.nonempty
  have hroom : st.heap.heapBrk + k * pageSize + st.heap.frames.granted * pageSize ≤ heapLimit := by
    rw [hown, Nat.zero_mul]
    exact hle
  rw [growEnd_eq r hle] at h
  rw [grown_concat]
  split at h
  · cases h
  · cases free with
    | true =>
      simp only [if_true] at h ⊢
      split at h
      · obtain ⟨h', hmerge, r', -⟩ := growMerge_spec r hroom
        rw [hmerge] at h
        exact ⟨‹_›, h', (some.inj h).symm, r'⟩
      · cases h
    | false =>
      simp only [Bool.false_eq_true, if_false] at h ⊢
      split at h
      · obtain ⟨h', hnew, r', -⟩ := growNew_spec r hk (by simp) hroom
        rw [hnew] at h
        exact ⟨(‹_ ∧ _›).2, h', (some.inj h).symm, r'⟩
      · cases h

/-- It goes through when the words it uses are there. -/
theorem growEnd_isSome (hlast : st.vm.pagePresent (st.heap.heapBrk - 4))
    (hbrk : st.vm.pagePresent st.heap.heapBrk)
    (hfoot : st.vm.pagePresent (st.heap.heapBrk + k * pageSize - 4)) :
    ∃ st', st.growEnd k = some st' := by
  obtain rfl | ⟨l, ⟨t, free⟩, rfl⟩ := eq_nil_or_concat' cs
  · exact absurd rfl r.nonempty
  have hroom : st.heap.heapBrk + k * pageSize + st.heap.frames.granted * pageSize ≤ heapLimit := by
    rw [hown, Nat.zero_mul]
    exact hle
  rw [growEnd_eq r hle, hlast]
  cases free with
  | true =>
    obtain ⟨h', hmerge, -⟩ := growMerge_spec r hroom
    simp [hfoot, hmerge]
  | false =>
    obtain ⟨h', hnew, -⟩ := growNew_spec r hk (by simp) hroom
    simp [hfoot, hbrk, hnew]

end

theorem Valid.growHeap_eq (v : st.Valid cs) (hneed : need ≠ 0) :
    st.growHeap need =
      if (st.expandPages 0 (growPages need)).1 then
        ((st.expandPages 0 (growPages need)).2.growEnd (growPages need)).map (true, ·)
      else some (false, (st.expandPages 0 (growPages need)).2) := by
  have hbrk : ¬ 0xFE000000 ≤ st.heap.heapBrk := by
    have := v.rep.brk_le
    have := heapLimit_lt
    omega
  have hpages : add32 need (pageSize - 1) / pageSize = growPages need := rfl
  simp only [growHeap, if_neg hneed, if_neg hbrk, hpages]
  rcases st.expandPages 0 (growPages need) with ⟨_ | _, st1⟩ <;> rfl

end Grow

/-! ## A request that fails -/

section Null

variable {st st' : PagedHeap} {cs : List Cell} {n : ℕ}

/-- **Nothing has been spent**: the tiling, the static variables and the free frames are as they
were. -/
structure Unspent (cs : List Cell) (st st' : PagedHeap) : Prop where
  /-- the tiling -/
  rep : Rep st'.heap cs
  freeList : st'.heap.freeList = st.heap.freeList
  heapBrk : st'.heap.heapBrk = st.heap.heapBrk
  heapEnd : st'.heap.heapEnd = st.heap.heapEnd
  /-- the free frames -/
  freeq : ∀ f, f ∈ st'.vm.freeq ↔ f ∈ st.vm.freeq

/-- The static variables go with the tiling. -/
theorem Unspent.of_rep (r : Rep st.heap cs) (r' : Rep st'.heap cs)
    (hvm : st'.vm.freeq = st.vm.freeq) : Unspent cs st st' := by
  have hbrk : st'.heap.heapBrk = st.heap.heapBrk := by rw [r.brk, r'.brk]
  refine ⟨r', ?_, hbrk, by rw [r.fin, r'.fin, hbrk], fun f => by rw [hvm]⟩
  have hhead := r.chain.head_eq.trans r'.chain.head_eq.symm
  simp only [ptr] at hhead
  split at hhead <;> split at hhead <;> simp_all

/-- The block size for a request of any size. -/
theorem totalSize_bounds (hn : n < 2 ^ 32) :
    (totalSize n % 4 = 0 ∧ 16 ≤ totalSize n) ∧ totalSize n < 2 ^ 32 := by
  rcases Nat.lt_or_ge (2 ^ 32 - 12) n with hbig | hsmall
  · rw [totalSize_wrap hbig hn]
    decide
  · rw [totalSize_eq hsmall, minBlockSize]
    omega

/-- The pages `grow_heap` asks for: none only if the sum wraps. -/
theorem growPages_eq_zero {need : ℕ} (hpos : 0 < need) (hlt : need < 2 ^ 32) :
    growPages need = 0 ↔ 2 ^ 32 < need + pageSize := by
  unfold growPages pageSize add32
  omega

/-- **When a request that fails costs nothing.** It costs frames when some page could be had and a
later one not. When rounding to pages wraps, no page is asked for; then an empty block is listed
at the break, unless the last block is free or the break is not in memory. -/
def FailsClean (st : PagedHeap) (cs : List Cell) (n : ℕ) : Prop :=
  n ≠ 0 → (∀ c ∈ cs, c.free = true → c.size < totalSize n) →
    (0 < growPages (totalSize n) →
      st.vm.freeq = [] ∨ st.loopFrames (growPages (totalSize n)) ≤ st.vm.freeq.length) ∧
    (growPages (totalSize n) = 0 → (cs.getLast?.map Cell.free = some true) ∨
      ¬(st.vm.pagePresent st.heap.heapBrk ∧ st.vm.pagePresent (st.heap.heapBrk - 4)))

theorem kmalloc_of_fit {b : ℕ} (hn : n ≠ 0)
    (hfit : st.heap.findFit (totalSize n) = some (some b)) :
    st.kmalloc n = st.carve b (totalSize n) := by
  simp only [kmalloc, if_neg hn]
  rw [bind_of_some hfit]

theorem kmalloc_of_grow (hn : n ≠ 0) (hfit : st.heap.findFit (totalSize n) = some none) :
    st.kmalloc n = st.growHeap (totalSize n) >>= fun r =>
      if r.1 then r.2.heap.findFit (totalSize n) >>= fun fb =>
        match fb with
        | some fb => r.2.carve fb (totalSize n)
        | none => some (0, r.2) else some (0, r.2) := by
  simp only [kmalloc, if_neg hn]
  rw [bind_of_some hfit]
  rfl

/-- A block that fits is carved, and the answer is not `NULL`. -/
theorem carve_ne_zero {l1 l2 : List Cell} {s total : ℕ} (r : Rep st.heap (l1 ++ ⟨s, true⟩ :: l2))
    (htotal : total % 4 = 0 ∧ 16 ≤ total) (hle : total ≤ s) :
    st.carve (blockAt l1) total ≠ some (0, st') := by
  obtain ⟨h', hcarve, -, -⟩ := carve_spec r htotal hle
  rw [carve, hcarve]
  intro hc
  have := congrArg Prod.fst (some.inj hc)
  simp at this

section

variable (hpos : n ≠ 0) (hfit : st.heap.findFit (totalSize n) = some none)
include hpos hfit

/-- The loop stops: the answer is `NULL`, and every free frame has been taken. -/
theorem Valid.kmalloc_short (v : st.Valid cs) (htotal : totalSize n ≠ 0)
    (hflag : (st.expandPages 0 (growPages (totalSize n))).1 = false) :
    st.kmalloc n = some (0, (st.expandPages 0 (growPages (totalSize n))).2) := by
  rw [kmalloc_of_grow hpos hfit, v.growHeap_eq htotal, hflag]
  rfl

/-- The loop goes through: `NULL` is not the answer. -/
theorem Valid.kmalloc_grown (v : st.Valid cs) (hn : n < 2 ^ 32)
    (hno : ∀ c ∈ cs, c.free = true → c.size < totalSize n) (hk : 0 < growPages (totalSize n))
    (hflag : (st.expandPages 0 (growPages (totalSize n))).1 = true) :
    st.kmalloc n ≠ some (0, st') := by
  obtain ⟨htotal, hlt⟩ := totalSize_bounds hn
  have hne : totalSize n ≠ 0 := by omega
  have hsmall : totalSize n + pageSize ≤ 2 ^ 32 := by
    have := growPages_eq_zero (Nat.pos_of_ne_zero hne) hlt
    omega
  have hframe := (v.loop_eq (growPages (totalSize n))).2
  have hbelow : growPages (totalSize n) ≤ st.vm.freeq.length :=
    (Nat.le_add_right _ _).trans ((v.loop_iff _).mp hflag)
  rw [kmalloc_of_grow hpos hfit, v.growHeap_eq hne, if_pos hflag]
  generalize (st.expandPages 0 (growPages (totalSize n))).2 = st1 at hframe
  have r1 := hframe.rep v.rep
  have hown : st1.heap.frames.granted = 0 := by
    obtain ⟨m, hm⟩ := hframe.heap
    rw [hm]
    exact v.own
  cases hend : st1.growEnd (growPages (totalSize n)) with
  | none => exact fun hc => nomatch hc
  | some st2 =>
    have hle := v.below hbelow
    rw [← hframe.brk] at hle
    obtain ⟨-, h2, rfl, r2⟩ := growEnd_some r1 hown hk hle hend
    obtain ⟨l, s, hlast, hs, hlow⟩ := exists_grown_last (le_growPages hsmall) hno
    rw [hlast] at r2
    have hfit2 := findFit_last r2 hs hlow
    have hcarve : (st1.setHeap h2).carve (blockAt l) (totalSize n) ≠ some (0, st') :=
      carve_ne_zero r2 htotal hs
    intro hc
    simp only [map_some, bind_eq_bind, bind_some, if_true] at hc
    exact hcarve (by rwa [setHeap, hfit2] at hc)

/-- No page is asked for, and the last block is free: it is put back as it was. -/
theorem Valid.kmalloc_zero_free {t : ℕ} (v : st.Valid (l ++ [⟨t, true⟩]))
    (hno : ∀ c ∈ l ++ [⟨t, true⟩], c.free = true → c.size < totalSize n)
    (htotal : totalSize n ≠ 0) (hk : growPages (totalSize n) = 0)
    (h : st.kmalloc n = some (0, st')) : Unspent (l ++ [⟨t, true⟩]) st st' := by
  have hroom : st.heap.heapBrk + 0 * pageSize + st.heap.frames.granted * pageSize ≤ heapLimit := by
    rw [Nat.zero_mul]
    exact v.rep.room
  have hloop : st.expandPages 0 0 = (true, st) := rfl
  obtain ⟨h', hmerge, r', -⟩ := growMerge_spec v.rep hroom
  rw [Nat.zero_mul, Nat.add_zero] at r'
  have hfit' := findFit_of_small r' hno
  rw [kmalloc_of_grow hpos hfit, v.growHeap_eq htotal, hk, hloop,
    growEnd_eq v.rep (by rw [Nat.zero_mul]; exact v.rep.brk_le), hmerge] at h
  simp only [if_true] at h
  split at h
  · cases h
  · split at h
    · simp only [map_some, bind_eq_bind, bind_some, if_true, setHeap,
        hfit'] at h
      obtain rfl := congrArg Prod.snd (some.inj h)
      exact .of_rep v.rep r' rfl
    · cases h

/-- **No page is asked for, and the last block is used**: an empty block is listed at the break,
unless the machine stops. -/
theorem Valid.kmalloc_zero_used {t : ℕ} (v : st.Valid (l ++ [⟨t, false⟩]))
    (htotal : 2 ^ 31 ≤ totalSize n) (hk : growPages (totalSize n) = 0) :
    (st.vm.pagePresent st.heap.heapBrk ∧ st.vm.pagePresent (st.heap.heapBrk - 4) →
      ∃ st', st.kmalloc n = some (0, st') ∧ ¬Rep st'.heap (l ++ [⟨t, false⟩])) ∧
    (¬(st.vm.pagePresent st.heap.heapBrk ∧ st.vm.pagePresent (st.heap.heapBrk - 4)) →
      st.kmalloc n = none) := by
  have hloop : st.expandPages 0 0 = (true, st) := rfl
  obtain ⟨h', hnew, hseg, -⟩ := growNew_zero_listed v.rep
  obtain ⟨h'', hnew', hfit'⟩ := growNew_zero v.rep htotal
  obtain rfl : h' = h'' := some.inj (hnew.symm.trans hnew')
  have heval : st.kmalloc n = if !st.vm.pagePresent (st.heap.heapBrk - 4) then none
      else if st.vm.pagePresent st.heap.heapBrk ∧ st.vm.pagePresent (st.heap.heapBrk - 4) then
        some (0, st.setHeap h') else none := by
    rw [kmalloc_of_grow hpos hfit, v.growHeap_eq (by omega), hk, hloop,
      growEnd_eq v.rep (by rw [Nat.zero_mul]; exact v.rep.brk_le), hnew]
    simp only [if_true, Bool.false_eq_true, if_false, Nat.zero_mul, Nat.add_zero, map_some]
    split
    · rfl
    · split
      · simp only [map_some, bind_eq_bind, bind_some, if_true, setHeap, hfit']
      · rfl
  rw [heval]
  constructor
  · rintro ⟨hbrk, hlast⟩
    refine ⟨st.setHeap h', by simp [hbrk, hlast], fun r' => ?_⟩
    -- the free list has one block more than the tiling
    have hchain : Seg (nextFree h'.mem) (ptr h'.freeList) (freeAddrs heapVirtStart l) none := by
      have hchain := r'.chain
      rw [freeAddrs_append, freeAddrs_cons_used, freeAddrs_nil, append_nil] at hchain
      exact hchain
    have := congrArg length (Seg.unique hseg hchain)
    simp at this
  · intro hnot
    rw [if_neg hnot, ite_self]

end

/-- **A request that fails costs nothing exactly when it gets no page, or none is missing.** For
every state and every `size_t`: whenever `kmalloc` returns `NULL` the tiling, the static variables
and the set of free frames are as before, if and only if the state satisfies `FailsClean`. -/
theorem kmalloc_null_iff (v : st.Valid cs) (hn : n < 2 ^ 32) :
    (∀ st', st.kmalloc n = some (0, st') → Unspent cs st st') ↔ st.FailsClean cs n := by
  obtain ⟨htotal, hlt⟩ := totalSize_bounds hn
  have hne : totalSize n ≠ 0 := by omega
  rcases Nat.eq_zero_or_pos n with rfl | hpos
  · refine iff_of_true (fun st' h => ?_) fun hc => absurd rfl hc
    obtain rfl : st = st' := congrArg Prod.snd (some.inj h)
    exact .of_rep v.rep v.rep rfl
  have hpos := Nat.pos_iff_ne_zero.mp hpos
  rcases findFit_first v.rep (totalSize n) with ⟨l1, s, l2, hcs, hle, -, hfit⟩ | ⟨hno, hfit⟩
  · -- a block fits
    refine iff_of_true (fun st' h => ?_) fun _ hno => ?_
    · rw [kmalloc_of_fit hpos hfit] at h
      exact absurd h (carve_ne_zero (hcs ▸ v.rep) htotal hle)
    · exact absurd hle (Nat.not_le.mpr (hno ⟨s, true⟩ (by rw [hcs]; simp) rfl))
  rcases Nat.eq_zero_or_pos (growPages (totalSize n)) with hk | hk
  · -- no page is asked for
    have hbig : 2 ^ 31 ≤ totalSize n := by
      have := (growPages_eq_zero (Nat.pos_of_ne_zero hne) hlt).mp hk
      rw [pageSize] at this
      omega
    obtain rfl | ⟨l, ⟨t, free⟩, rfl⟩ := eq_nil_or_concat' cs
    · exact absurd rfl v.rep.nonempty
    cases free with
    | true =>
      refine iff_of_true (fun st' h => v.kmalloc_zero_free hpos hfit hno hne hk h) fun _ _ => ?_
      exact ⟨fun hk' => absurd hk (by omega), fun _ => .inl (by simp)⟩
    | false =>
      obtain ⟨hlisted, hstops⟩ := v.kmalloc_zero_used hpos hfit hbig hk
      constructor
      · refine fun hclean _ _ => ⟨fun hk' => absurd hk (by omega), fun _ => .inr fun hc => ?_⟩
        obtain ⟨st', heval, hnot⟩ := hlisted hc
        exact hnot (hclean st' heval).rep
      · intro hclean st' h
        have hnot := ((hclean hpos hno).2 hk).resolve_left (by simp)
        cases (hstops hnot).symm.trans h
  · cases hflag : (st.expandPages 0 (growPages (totalSize n))).1 with
    | true =>
      refine iff_of_true (fun st' h => ?_) fun _ _ => ?_
      · exact absurd h (v.kmalloc_grown hpos hfit hn hno hk hflag)
      · exact ⟨fun _ => .inr ((v.loop_iff _).mp hflag), fun hc => absurd hc (by omega)⟩
    | false =>
      have heval := v.kmalloc_short hpos hfit hne hflag
      have hempty := v.loop_false hflag
      have hframe := (v.loop_eq (growPages (totalSize n))).2
      have hloop : ¬st.loopFrames (growPages (totalSize n)) ≤ st.vm.freeq.length := fun hc => by
        rw [(v.loop_iff _).mpr hc] at hflag
        cases hflag
      constructor
      · refine fun hclean _ _ => ⟨fun _ => .inl ?_, fun hc => absurd hc (by omega)⟩
        have hfreeq := (hclean _ heval).freeq
        rw [hempty] at hfreeq
        exact eq_nil_iff_forall_not_mem.mpr fun f hf => by cases (hfreeq f).mpr hf
      · intro hclean st' h
        obtain rfl := congrArg Prod.snd (some.inj (heval.symm.trans h))
        refine .of_rep v.rep (hframe.rep v.rep) ?_
        rw [hempty, ((hclean hpos hno).1 hk).resolve_right hloop]

/-- A directory with one table for the heap, whose first `pages` words are in use. -/
def heapVm (pages : ℕ) (freeq : List ℕ) : Vm where
  freeq := freeq
  refCount := fun _ => 1
  entry := fun f i =>
    if f = 1 ∧ i = 832 then some ⟨2, true, true⟩
    else if f = 2 ∧ i.val < pages then some ⟨3 + i.val, true, false⟩
    else none
  cr3 := 1
  pressure := false

variable {freeq : List ℕ}

theorem heapVm_dir {pages : ℕ} {i : Fin 1024} {e : Pte} (he : e ∈ (heapVm pages freeq).entry 1 i) :
    i = 832 ∧ e.frame = 2 := by
  simp only [heapVm, true_and, OfNat.one_ne_ofNat, false_and, if_false] at he
  split at he
  · exact ⟨‹_›, by rw [← some.inj he]⟩
  · cases he

theorem heapVm_table (pages : ℕ) (freeq : List ℕ) (j : Fin 1024) :
    (heapVm pages freeq).entry 2 j =
      if j.val < pages then some ⟨3 + j.val, true, false⟩ else none := by
  simp only [heapVm, OfNat.ofNat_ne_one, false_and, if_false, true_and]

theorem heapVm_valid {h : Heap} {pages : ℕ} (contents : ℕ → Page) (r : Rep h cs)
    (hown : h.frames.granted = 0) (halign : h.heapBrk % pageSize = 0)
    (hroom : h.heapBrk + freeq.length * pageSize ≤ heapLimit) (hnodup : freeq.Nodup)
    (hhigh : ∀ f ∈ freeq, 3 + pages ≤ f) :
    (⟨h, heapVm pages freeq, contents⟩ : PagedHeap).Valid cs := by
  have hlow : ∀ {g}, g < 3 + pages → g ∉ freeq := fun hg hmem =>
    absurd (hhigh _ hmem) (Nat.not_le.mpr hg)
  refine ⟨r, hown, halign, hroom, ⟨hnodup, hlow (show 1 < 3 + pages by omega), fun i _ e he => ?_,
    fun i _ i' _ e he e' he' _ => ?_⟩, fun i _ e he j p hp => ?_⟩
  · rw [(heapVm_dir he).2]
    exact ⟨(by decide : (2 : ℕ) ≠ 1), hlow (by omega)⟩
  · rw [(heapVm_dir he).1, (heapVm_dir he').1]
  · rw [(heapVm_dir he).2, heapVm_table] at hp
    split at hp
    · rw [← some.inj hp]
      exact hlow (by simp only; omega)
    · cases hp

/-- The heap right after `heap_init`, with these frames left. -/
def bootHeap (freeq : List ℕ) : PagedHeap :=
  ⟨heapInit (fun _ => 0) ⟨[], Nat.zero_le _⟩, heapVm heapInitPages freeq, fun _ _ => 0⟩

theorem heapInit_own (mem : Mem) :
    (heapInit mem ⟨[], Nat.zero_le _⟩).frames.granted = 0 := by
  obtain ⟨-, hgranted⟩ := initPages_vars heapInitPages
    ⟨mem, 0, heapVirtStart, heapVirtStart, ⟨[], Nat.zero_le _⟩⟩ 0
  simp only [heapInit, setWord]
  exact Nat.le_zero.mp hgranted

theorem bootHeap_valid (hnodup : freeq.Nodup) (hlen : freeq.length ≤ numPages)
    (hhigh : ∀ f ∈ freeq, pageStartIndex ≤ f) :
    (bootHeap freeq).Valid [⟨heapInitPages * pageSize, true⟩] := by
  have r := heapInit_rep (fun _ => 0) ⟨[], Nat.zero_le _⟩
  have hbrk : (heapInit (fun _ => 0) ⟨[], Nat.zero_le _⟩).heapBrk = 0xD0040000 := r.brk
  refine heapVm_valid _ r (heapInit_own _) (by rw [hbrk]; decide) ?_ hnodup fun f hf => ?_
  · rw [hbrk]
    exact (Nat.add_le_add_left (Nat.mul_le_mul_right _ hlen) _).trans (by decide)
  · exact Nat.le_trans (by decide) (hhigh f hf)

/-- A megabyte does not fit the heap after boot. -/
theorem bootHeap_noFit (freeq : List ℕ) :
    (bootHeap freeq).heap.findFit (totalSize (2 ^ 20)) = some none := by
  refine findFit_of_small (heapInit_rep (fun _ => 0) ⟨[], Nat.zero_le _⟩) fun c hc _ => ?_
  rw [mem_singleton.mp hc]
  decide

/-- Nor is there a frame for each of its pages. -/
theorem bootHeap_short {cs : List Cell} (v : (bootHeap freeq).Valid cs)
    (hlen : freeq.length < 257) :
    ((bootHeap freeq).expandPages 0 (growPages (totalSize (2 ^ 20)))).1 = false := by
  refine Bool.eq_false_iff.mpr fun hc => ?_
  have hle : 257 ≤ freeq.length := (Nat.le_add_right _ _).trans ((v.loop_iff _).mp hc)
  exact absurd hle (Nat.not_le.mpr hlen)

/-- With no frame left, a megabyte is refused for nothing. -/
theorem kmalloc_null_iff_boot :
    (bootHeap []).Valid [⟨heapInitPages * pageSize, true⟩] ∧
      ∃ st', (bootHeap []).kmalloc (2 ^ 20) = some (0, st') ∧
        Unspent [⟨heapInitPages * pageSize, true⟩] (bootHeap []) st' := by
  have v : (bootHeap []).Valid _ := bootHeap_valid .nil (by decide) (by simp)
  have hnull := v.kmalloc_short (by decide) (bootHeap_noFit _) (by decide)
    (bootHeap_short v (by decide))
  have hclean : (bootHeap []).FailsClean [⟨heapInitPages * pageSize, true⟩] (2 ^ 20) :=
    fun _ _ => ⟨fun _ => .inl rfl, fun hk => absurd hk (by decide)⟩
  exact ⟨v, _, hnull, (kmalloc_null_iff v (by decide)).mpr hclean _ hnull⟩

/-- **One frame is left and a megabyte is asked for**: the answer is `NULL`, and the frame is
gone. -/
theorem kmalloc_spends_frame :
    (bootHeap [1024]).Valid [⟨heapInitPages * pageSize, true⟩] ∧
      ∃ st', (bootHeap [1024]).kmalloc (2 ^ 20) = some (0, st') ∧
        (bootHeap [1024]).vm.freeq = [1024] ∧ st'.vm.freeq = [] := by
  have v : (bootHeap [1024]).Valid _ :=
    bootHeap_valid (nodup_singleton _) (by decide) (by simp [pageStartIndex])
  have hflag := bootHeap_short v (by decide)
  refine ⟨v, _, v.kmalloc_short (by decide) (bootHeap_noFit _) (by decide) hflag, rfl, ?_⟩
  exact v.loop_false hflag

end Null

end PagedHeap

end PokuOS

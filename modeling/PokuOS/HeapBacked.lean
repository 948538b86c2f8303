import PokuOS.HeapPaged

/-!
# The heap is in memory

Every page below the break should be in the page tables, with a frame of its own. `grow_heap`
keeps this when there are frames for the new pages **and for the tables they need**: the loop
looks at the former only. With one frame too few, the last page is the first of its 4 MiB and has
no table; nothing tells `grow_heap`, and the footer of the new block is written to a page that is
not there (`growHeap_faults`).

The tables it makes are entered in the loaded directory only. So a heap that has grown in one
directory is not in memory in another one, and growing it there does not help: that the heap was
in memory before is the other half of the condition.
-/

namespace PokuOS

open Heap List Option

namespace PagedHeap

/-- **The heap is in memory**: every page of it is present, no two with the same frame. -/
structure Backed (st : PagedHeap) : Prop where
  /-- every page is present -/
  present : ∀ v, v % pageSize = 0 → heapVirtStart ≤ v → v < st.heap.heapBrk →
    (st.vm.lookup v).isSome
  /-- with a frame of its own -/
  distinct : ∀ v w, v % pageSize = 0 → heapVirtStart ≤ v → v < st.heap.heapBrk →
    w % pageSize = 0 → heapVirtStart ≤ w → w < st.heap.heapBrk →
    ∀ p ∈ st.vm.lookup v, ∀ q ∈ st.vm.lookup w, p.frame = q.frame → v = w

/-- **When `grow_heap` leaves the heap in memory**: if its loop goes through, the heap was in
memory before, and there are frames for the tables too. If rounding to pages wraps and no page is
added, the last block is free or the break is in memory. -/
def GrowsBacked (st : PagedHeap) (cs : List Cell) (need : ℕ) : Prop :=
  need ≠ 0 → st.loopFrames (growPages need) ≤ st.vm.freeq.length →
    st.Backed ∧
    (0 < growPages need → st.allFrames (growPages need) ≤ st.vm.freeq.length) ∧
    (growPages need = 0 → cs.getLast?.map Cell.free = some true ∨ st.vm.pagePresent st.heap.heapBrk)

section Backed

variable {st st' : PagedHeap} {cs : List Cell} {k need : ℕ}

section

variable (v : st.Valid cs)
include v

/-- Pages below the break are none of the new ones. -/
theorem Valid.old_ne (hk : k ≤ st.vm.freeq.length) {va : ℕ} (halign : va % pageSize = 0)
    (hlt : va < st.heap.heapBrk) :
    ∀ w ∈ newPages st.heap.heapBrk 0 k, pdIdx va ≠ pdIdx w ∨ ptIdx va ≠ ptIdx w := by
  intro w hw
  have hle := v.below hk
  have hlim := heapLimit_lt
  obtain ⟨i, hi, rfl⟩ := (mem_newPages hle).mp hw
  have hi : i * pageSize ≤ k * pageSize := Nat.mul_le_mul_right _ hi.le
  refine page_ne halign ?_ (by omega) (by omega) (by omega)
  rw [Nat.add_mul_mod_self_right]
  exact v.aligned

/-- **The loop leaves the old pages where they are.** -/
theorem Valid.lookup_old (hk : k ≤ st.vm.freeq.length) {va : ℕ} (halign : va % pageSize = 0)
    (hstart : heapVirtStart ≤ va) (hlt : va < st.heap.heapBrk) :
    (st.expandPages 0 k).2.vm.lookup va = st.vm.lookup va := by
  have hvm := congrArg Prod.snd (v.loop_eq k).1
  simp only at hvm
  rw [hvm]
  have hbrk := v.rep.brk_le
  exact Vm.lookup_mapRun false _ v.pooled (heapIdx_newPages v.start_le (v.below hk)) va
    (heapIdx_of_lt hstart (by omega)) (v.old_ne hk halign hlt)

/-- **With frames for the pages and the tables, every new page is mapped.** -/
theorem Valid.runPut (hall : st.allFrames k ≤ st.vm.freeq.length) :
    Vm.RunPut false (newPages st.heap.heapBrk 0 k) st.vm (st.expandPages 0 k).2.vm := by
  have hk : k ≤ st.vm.freeq.length := (Nat.le_add_right _ _).trans hall
  have hvm := congrArg Prod.snd (v.loop_eq k).1
  simp only at hvm
  rw [hvm]
  refine Vm.mapRun_enough false _ v.pooled (heapIdx_newPages v.start_le (v.below hk))
    (newPages_pairwise v.aligned (v.below hk)) ?_
  rw [length_newPages]
  exact hall

/-- The frame of a page of the heap is not free. -/
theorem Valid.lookup_notMem {va : ℕ} (hstart : heapVirtStart ≤ va) (hlt : va < st.heap.heapBrk) :
    ∀ p ∈ st.vm.lookup va, p.frame ∉ st.vm.freeq := by
  intro p hp
  have hbrk := v.rep.brk_le
  rw [Vm.lookup] at hp
  obtain ⟨e, he, hp⟩ := bind_eq_some_iff.mp hp
  exact v.page _ (heapIdx_of_lt hstart (by omega)) e he _ p hp

/-- A page behind the old break is a new one. -/
theorem Valid.mem_newPages_of_ge (hle : st.heap.heapBrk + k * pageSize ≤ heapLimit) {va : ℕ}
    (halign : va % pageSize = 0) (hge : st.heap.heapBrk ≤ va)
    (hlt : va < st.heap.heapBrk + k * pageSize) : va ∈ newPages st.heap.heapBrk 0 k := by
  refine (mem_newPages hle).mpr ⟨(va - st.heap.heapBrk) / pageSize, ?_, ?_⟩
  · refine Nat.div_lt_of_lt_mul ?_
    rw [Nat.mul_comm]
    omega
  · have hbrk := v.aligned
    simp only [pageSize] at *
    omega

/-- **The grown heap is in memory.** -/
theorem Valid.backed_grown (hb : st.Backed) (hall : st.allFrames k ≤ st.vm.freeq.length)
    (hvm : st'.vm = (st.expandPages 0 k).2.vm)
    (hbrk : st'.heap.heapBrk = st.heap.heapBrk + k * pageSize) : st'.Backed := by
  have hk : k ≤ st.vm.freeq.length := (Nat.le_add_right _ _).trans hall
  have hle := v.below hk
  have hrun := v.runPut hall
  have hold := @Valid.lookup_old st cs k v hk
  rw [← hvm] at hrun hold
  -- the frame of an old page was not free, that of a new one was
  have hfree : ∀ va, va % pageSize = 0 → st.heap.heapBrk ≤ va → va < st'.heap.heapBrk →
      ∃ f ∈ st.vm.freeq, st'.vm.lookup va = some ⟨f, true, false⟩ := by
    intro va halign hge hlt
    obtain ⟨f, hf, -, hlookup⟩ :=
      hrun.page va (v.mem_newPages_of_ge hle halign hge (by omega))
    exact ⟨f, hf, hlookup⟩
  refine ⟨fun va halign hstart hlt => ?_,
    fun va wa hav hsv hlv haw hsw hlw p hp q hq heq => ?_⟩
  · rcases Nat.lt_or_ge va st.heap.heapBrk with hva | hva
    · rw [hold halign hstart hva]
      exact hb.present va halign hstart hva
    · obtain ⟨f, -, hlookup⟩ := hfree va halign hva hlt
      rw [hlookup]
      rfl
  · rcases Nat.lt_or_ge va st.heap.heapBrk with hva | hva <;>
      rcases Nat.lt_or_ge wa st.heap.heapBrk with hwa | hwa
    · rw [hold hav hsv hva] at hp
      rw [hold haw hsw hwa] at hq
      exact hb.distinct va wa hav hsv hva haw hsw hwa p hp q hq heq
    · rw [hold hav hsv hva] at hp
      obtain ⟨f, hf, hlookup⟩ := hfree wa haw hwa hlw
      rw [hlookup] at hq
      rw [← some.inj hq] at heq
      exact absurd (heq ▸ hf) (v.lookup_notMem hsv hva p hp)
    · rw [hold haw hsw hwa] at hq
      obtain ⟨f, hf, hlookup⟩ := hfree va hav hva hlv
      rw [hlookup] at hp
      rw [← some.inj hp] at heq
      exact absurd (heq.symm ▸ hf) (v.lookup_notMem hsw hwa q hq)
    · exact hrun.distinct va (v.mem_newPages_of_ge hle hav hva (by omega)) wa
        (v.mem_newPages_of_ge hle haw hwa (by omega)) p hp q hq heq

/-- What is in memory after the loop was so before. -/
theorem Valid.backed_before (hk : k ≤ st.vm.freeq.length) (hb : st'.Backed)
    (hvm : st'.vm = (st.expandPages 0 k).2.vm) (hbrk : st.heap.heapBrk ≤ st'.heap.heapBrk) :
    st.Backed := by
  have hold := @Valid.lookup_old st cs k v hk
  rw [← hvm] at hold
  refine ⟨fun va halign hstart hlt => ?_,
    fun va wa hav hsv hlv haw hsw hlw p hp q hq heq => ?_⟩
  · rw [← hold halign hstart hlt]
    exact hb.present va halign hstart (by omega)
  · rw [← hold hav hsv hlv] at hp
    rw [← hold haw hsw hlw] at hq
    exact hb.distinct va wa hav hsv (by omega) haw hsw (by omega) p hp q hq heq

end

/-! ## The words that are written -/

theorem lookup_end {vm : Vm} {v : ℕ} (halign : v % pageSize = 0) :
    vm.lookup (v + pageSize - 4) = vm.lookup v := by
  have hsum : v + pageSize - 4 = v + 4092 := by rw [pageSize]; omega
  rw [hsum]
  exact vm.lookup_add halign (by decide)

theorem Valid.lookup_before (v : st.Valid cs) (vm : Vm) :
    vm.lookup (st.heap.heapBrk - 4) = vm.lookup (st.heap.heapBrk - pageSize) ∧
      (st.heap.heapBrk - pageSize) % pageSize = 0 ∧
      heapVirtStart ≤ st.heap.heapBrk - pageSize ∧ pageSize ≤ st.heap.heapBrk := by
  have halign := v.aligned
  have hpos : heapVirtStart < st.heap.heapBrk := by
    obtain rfl | ⟨l, c, hcs⟩ := eq_nil_or_concat' cs
    · exact absurd rfl v.rep.nonempty
    · have hsized := v.rep.sized
      have hstart := start_le_blockAt l
      rw [hcs] at hsized
      have := (Sized.cons.mp (Sized.append.mp hsized).2).1.2
      rw [v.rep.brk, hcs, blockAt_append, span_cons]
      omega
  have hstart : heapVirtStart % pageSize = 0 := by decide
  have hsub : (st.heap.heapBrk - pageSize) % pageSize = 0 := by
    simp only [pageSize] at *
    omega
  have hge : heapVirtStart + pageSize ≤ st.heap.heapBrk := by
    simp only [pageSize] at *
    omega
  refine ⟨?_, hsub, by omega, by omega⟩
  have hsum : st.heap.heapBrk - 4 = st.heap.heapBrk - pageSize + pageSize - 4 := by
    rw [Nat.sub_add_cancel (by omega)]
  rw [hsum, lookup_end hsub]

theorem Valid.lookup_footer (v : st.Valid cs) {vm : Vm} (hk : 0 < k) :
    vm.lookup (st.heap.heapBrk + k * pageSize - 4) =
      vm.lookup (st.heap.heapBrk + (k - 1) * pageSize) := by
  have hsum : st.heap.heapBrk + k * pageSize =
      st.heap.heapBrk + (k - 1) * pageSize + pageSize := by
    obtain ⟨j, rfl⟩ : ∃ j, k = j + 1 := ⟨k - 1, by omega⟩
    rw [Nat.add_sub_cancel, Nat.add_mul, Nat.one_mul, Nat.add_assoc]
  rw [hsum]
  refine lookup_end ?_
  rw [Nat.add_mul_mod_self_right]
  exact v.aligned

theorem getLast_newPages {brk : ℕ} (hk : 0 < k) (hle : brk + k * pageSize ≤ heapLimit) :
    (newPages brk 0 k).getLast? = some (brk + (k - 1) * pageSize) := by
  have hlim := heapLimit_lt
  have hlast : (k - 1) * pageSize ≤ k * pageSize := Nat.mul_le_mul_right _ (Nat.sub_le _ _)
  obtain ⟨j, rfl⟩ : ∃ j, k = j + 1 := ⟨k - 1, by omega⟩
  rw [Nat.add_sub_cancel] at hlast ⊢
  rw [newPages, range'_concat, map_append, map_singleton, getLast?_append]
  simp only [getLast?_singleton, some_or, Nat.zero_add, Nat.one_mul]
  rw [add32_eq (by omega)]

/-! ## `grow_heap` -/

/-- The footer is written to the last page, so that page has its table. -/
theorem Valid.allFrames_le (v : st.Valid cs) (hk : 0 < k)
    (hloop : st.loopFrames k ≤ st.vm.freeq.length)
    (hend : (st.expandPages 0 k).2.growEnd k = some st') :
    st.allFrames k ≤ st.vm.freeq.length := by
  have hle := v.below ((Nat.le_add_right _ _).trans hloop)
  have hflag := (v.loop_iff k).mpr hloop
  obtain ⟨heq, hframe⟩ := v.loop_eq k
  generalize (st.expandPages 0 k) = r at *
  have hown : r.2.heap.frames.granted = 0 := by
    obtain ⟨m, hm⟩ := hframe.heap
    rw [hm]
    exact v.own
  obtain ⟨hfoot, -⟩ := growEnd_some (hframe.rep v.rep) hown hk (by rw [hframe.brk]; exact hle) hend
  rw [← Vm.lookup_isSome, hframe.brk, v.lookup_footer hk] at hfoot
  have hlast := Vm.mapRun_last false _ v.pooled (heapIdx_newPages v.start_le hle)
    (by rw [← heq]; exact hflag) _ (getLast_newPages hk hle) (by rw [← heq]; exact hfoot)
  rw [length_newPages] at hlast
  exact hlast

/-- The loop goes through and there are pages: it all goes well just if there was a frame for the
last table, and the heap was in memory. -/
theorem Valid.grow_pages (v : st.Valid cs) (hk : 0 < k)
    (hloop : st.loopFrames k ≤ st.vm.freeq.length) :
    (∃ st', (st.expandPages 0 k).2.growEnd k = some st' ∧ st'.Backed) ↔
      st.Backed ∧ st.allFrames k ≤ st.vm.freeq.length := by
  have hfit : k ≤ st.vm.freeq.length := (Nat.le_add_right _ _).trans hloop
  have hle := v.below hfit
  have hframe := (v.loop_eq k).2
  have hold := @Valid.lookup_old st cs k v hfit
  have hfoot : ∀ st', (st.expandPages 0 k).2.growEnd k = some st' →
      st.allFrames k ≤ st.vm.freeq.length := fun st' => v.allFrames_le hk hloop
  have hrun := @Valid.runPut st cs k v
  have hgrown : ∀ st' : PagedHeap, st.Backed → st.allFrames k ≤ st.vm.freeq.length →
      st'.vm = (st.expandPages 0 k).2.vm →
      st'.heap.heapBrk = st.heap.heapBrk + k * pageSize → st'.Backed :=
    fun st' hb hall hvm hbrk => v.backed_grown hb hall hvm hbrk
  have hbefore : ∀ st' : PagedHeap, st'.Backed → st'.vm = (st.expandPages 0 k).2.vm →
      st.heap.heapBrk ≤ st'.heap.heapBrk → st.Backed :=
    fun st' hb hvm hbrk => v.backed_before hfit hb hvm hbrk
  generalize hst1 : (st.expandPages 0 k).2 = st1 at *
  have r1 := hframe.rep v.rep
  have hbrk := hframe.brk
  have hown : st1.heap.frames.granted = 0 := by
    obtain ⟨m, hm⟩ := hframe.heap
    rw [hm]
    exact v.own
  have hle1 : st1.heap.heapBrk + k * pageSize ≤ heapLimit := by rw [hbrk]; exact hle
  have hmoved : ∀ {h'}, Rep h' (grown (k * pageSize) cs) →
      h'.heapBrk = st.heap.heapBrk + k * pageSize := fun r' => by
    rw [r'.brk, v.rep.brk, blockAt, blockAt, span_grown, Nat.add_assoc]
  constructor
  · rintro ⟨st', hend, hb⟩
    have hall := hfoot _ hend
    obtain ⟨-, h', rfl, r'⟩ := growEnd_some r1 hown hk hle1 hend
    exact ⟨hbefore _ hb rfl ((Nat.le_add_right _ _).trans_eq (hmoved r').symm), hall⟩
  · rintro ⟨hb, hall⟩
    have hput := hrun hall
    obtain ⟨hword, hsub, hstart, hpage⟩ := v.lookup_before st1.vm
    have hpresent : ∀ i < k, (st1.vm.lookup (st.heap.heapBrk + i * pageSize)).isSome := by
      intro i hi
      obtain ⟨f, -, -, hlookup⟩ := hput.page _ ((mem_newPages hle).mpr ⟨i, hi, rfl⟩)
      rw [hlookup]
      rfl
    obtain ⟨st', hend⟩ := growEnd_isSome r1 hown hk hle1
      (by
        rw [← Vm.lookup_isSome, hbrk, hword, hold hsub hstart (by rw [pageSize] at *; omega)]
        exact hb.present _ hsub hstart (by rw [pageSize] at *; omega))
      (by
        have := hpresent 0 hk
        rw [Nat.zero_mul, Nat.add_zero] at this
        rw [← Vm.lookup_isSome, hbrk]
        exact this)
      (by
        rw [← Vm.lookup_isSome, hbrk, v.lookup_footer hk]
        exact hpresent _ (by omega))
    obtain ⟨-, h', rfl, r'⟩ := growEnd_some r1 hown hk hle1 hend
    exact ⟨_, hend, hgrown _ hb hall rfl (hmoved r')⟩

/-- Memory and break stay, so the heap is in memory as before. -/
theorem backed_congr (hvm : st'.vm = st.vm) (hbrk : st'.heap.heapBrk = st.heap.heapBrk) :
    st'.Backed ↔ st.Backed := by
  constructor
  · rintro ⟨hp, hd⟩
    rw [hvm, hbrk] at hp hd
    exact ⟨hp, hd⟩
  · rintro ⟨hp, hd⟩
    rw [← hvm, ← hbrk] at hp hd
    exact ⟨hp, hd⟩

/-- No page is added: it all goes well just if the heap was in memory, and the empty block at the
break, if there is one. -/
theorem Valid.grow_zero (v : st.Valid cs) :
    (∃ st', st.growEnd 0 = some st' ∧ st'.Backed) ↔
      st.Backed ∧ (cs.getLast?.map Cell.free = some true ∨
        st.vm.pagePresent st.heap.heapBrk) := by
  obtain ⟨hword, hsub, hstart, hpage⟩ := v.lookup_before st.vm
  have hlast : st.Backed → st.vm.pagePresent (st.heap.heapBrk - 4) := fun hb => by
    rw [← Vm.lookup_isSome, hword]
    exact hb.present _ hsub hstart (by rw [pageSize] at *; omega)
  obtain rfl | ⟨l, ⟨t, free⟩, rfl⟩ := eq_nil_or_concat' cs
  · exact absurd rfl v.rep.nonempty
  rw [growEnd_eq v.rep (by rw [Nat.zero_mul]; exact v.rep.brk_le)]
  simp only [Nat.zero_mul, Nat.add_zero, getLast?_append, getLast?_singleton,
    some_or, map_some, some.injEq]
  cases free with
  | true =>
    have hroom : st.heap.heapBrk + 0 * pageSize + st.heap.frames.granted * pageSize ≤
        heapLimit := by
      rw [Nat.zero_mul]
      exact v.rep.room
    obtain ⟨h', hmerge, r', -⟩ := growMerge_spec v.rep hroom
    rw [Nat.zero_mul, Nat.add_zero] at r'
    have hsame : (st.setHeap h').Backed ↔ st.Backed :=
      backed_congr rfl (r'.brk.trans v.rep.brk.symm)
    rw [hmerge]
    cases hp : st.vm.pagePresent (st.heap.heapBrk - 4) with
    | false => simpa using fun hb => Bool.false_ne_true (hp.symm.trans (hlast hb))
    | true => simpa using hsame
  | false =>
    obtain ⟨h', hnew, -, e⟩ := growNew_zero_listed v.rep
    have hsame : (st.setHeap h').Backed ↔ st.Backed := backed_congr rfl e.brk
    rw [hnew]
    cases hp : st.vm.pagePresent (st.heap.heapBrk - 4) with
    | false => simpa using fun hb => absurd (hlast hb) (by rw [hp]; exact Bool.false_ne_true)
    | true =>
      cases hq : st.vm.pagePresent st.heap.heapBrk with
      | false => simp
      | true => simpa using hsame

/-- **Exactly when `grow_heap` keeps the heap in memory.** For every state and every `size_t`:
`grow_heap` returns, without a fault, and if it returns `0` every page below the new break is
present with a frame of its own, if and only if the state satisfies `GrowsBacked`. -/
theorem growHeap_backed_iff (v : st.Valid cs) (need : ℕ) :
    (∃ ok st', st.growHeap need = some (ok, st') ∧ (ok = true → st'.Backed)) ↔
      st.GrowsBacked cs need := by
  rcases Nat.eq_zero_or_pos need with rfl | hpos
  · refine iff_of_true ⟨false, st, rfl, fun hc => nomatch hc⟩ fun hc => absurd rfl hc
  have hne := Nat.pos_iff_ne_zero.mp hpos
  rw [v.growHeap_eq hne]
  by_cases hloop : st.loopFrames (growPages need) ≤ st.vm.freeq.length
  · -- the loop goes through, and `grow_heap` will return `0`
    have hflag := (v.loop_iff _).mpr hloop
    have hreturns : (∃ ok st', (if (st.expandPages 0 (growPages need)).1 then
        ((st.expandPages 0 (growPages need)).2.growEnd (growPages need)).map (true, ·)
        else some (false, (st.expandPages 0 (growPages need)).2)) = some (ok, st') ∧
          (ok = true → st'.Backed)) ↔
        ∃ st', (st.expandPages 0 (growPages need)).2.growEnd (growPages need) = some st' ∧
          st'.Backed := by
      rw [if_pos hflag]
      constructor
      · rintro ⟨ok, st', hend, hb⟩
        obtain ⟨st2, hsome, heq⟩ := map_eq_some_iff.mp hend
        cases heq
        exact ⟨_, hsome, hb rfl⟩
      · rintro ⟨st', hend, hb⟩
        exact ⟨true, st', by rw [hend]; rfl, fun _ => hb⟩
    rw [hreturns]
    rcases Nat.eq_zero_or_pos (growPages need) with hk | hk
    · rw [hk]
      refine v.grow_zero.trans ⟨fun ⟨hb, hend⟩ _ _ => ?_, fun h => ?_⟩
      · exact ⟨hb, fun hc => absurd hk (by omega), fun _ => hend⟩
      · obtain ⟨hb, -, hend⟩ := h hne hloop
        exact ⟨hb, hend hk⟩
    · refine (v.grow_pages hk hloop).trans ⟨fun ⟨hb, hall⟩ _ _ => ?_, fun h => ?_⟩
      · exact ⟨hb, fun _ => hall, fun hc => absurd hc (by omega)⟩
      · obtain ⟨hb, hall, -⟩ := h hne hloop
        exact ⟨hb, hall hk⟩
  · refine iff_of_true ?_ fun _ hc => absurd hc hloop
    have hflag : ¬(st.expandPages 0 (growPages need)).1 = true := fun hc =>
      hloop ((v.loop_iff _).mp hc)
    rw [if_neg hflag]
    exact ⟨false, _, rfl, fun hc => nomatch hc⟩

/-! ## Two heaps -/

/-- All pages of the heap are in its one table. -/
theorem heapVm_backed {h : Heap} {pages : ℕ} {freeq : List ℕ} (contents : ℕ → Page)
    (hpages : pages ≤ 1024) (hbrk : h.heapBrk = heapVirtStart + pages * pageSize) :
    (⟨h, heapVm pages freeq, contents⟩ : PagedHeap).Backed := by
  -- page `v` has the frame whose number is its word's
  have hlookup : ∀ v, v % pageSize = 0 → heapVirtStart ≤ v → v < h.heapBrk →
      (heapVm pages freeq).lookup v = some ⟨3 + (v - heapVirtStart) / pageSize, true, false⟩ := by
    intro v halign hstart hlt
    rw [hbrk] at hlt
    simp only [heapVirtStart, pageSize] at *
    have hdir : pdIdx v = 832 := Fin.ext (by rw [pdIdx_val]; simp; omega)
    have hword : (ptIdx v).val = (v - 0xD0000000) / 4096 := by
      change v / 2 ^ 12 % 1024 = _
      omega
    have hentry : (heapVm pages freeq).entry 1 832 = some ⟨2, true, true⟩ := by simp [heapVm]
    rw [Vm.lookup, hdir]
    change (heapVm pages freeq).entry 1 832 >>= _ = _
    rw [bind_of_some hentry, heapVm_table, hword, if_pos (by omega)]
  refine ⟨fun v halign hstart hlt => ?_, fun v w hav hsv hlv haw hsw hlw p hp q hq heq => ?_⟩
  · rw [hlookup v halign hstart hlt]
    rfl
  · rw [hlookup v hav hsv hlv] at hp
    rw [hlookup w haw hsw hlw] at hq
    rw [← some.inj hp, ← some.inj hq] at heq
    simp only [heapVirtStart, pageSize] at *
    omega

/-- After boot there is a frame for one more page, and the heap grows by it. -/
theorem growHeap_backed_iff_boot :
    (bootHeap [1024]).Valid [⟨heapInitPages * pageSize, true⟩] ∧ (bootHeap [1024]).Backed ∧
      ∃ st', (bootHeap [1024]).growHeap pageSize = some (true, st') ∧ st'.Backed := by
  have v : (bootHeap [1024]).Valid _ :=
    bootHeap_valid (nodup_singleton _) (by decide) (by simp [pageStartIndex])
  have hbrk : (bootHeap [1024]).heap.heapBrk = 0xD0040000 := v.rep.brk
  have hb : (bootHeap [1024]).Backed := heapVm_backed _ (by decide) hbrk
  have hall : (bootHeap [1024]).allFrames 1 = 1 := by
    rw [allFrames, hbrk]
    rfl
  have hloop : (bootHeap [1024]).loopFrames 1 = 1 := by
    rw [loopFrames, hbrk]
    rfl
  have hflag : ((bootHeap [1024]).expandPages 0 (growPages pageSize)).1 = true :=
    (v.loop_iff 1).mpr hloop.le
  obtain ⟨ok, st', hgrow, hbacked⟩ := (growHeap_backed_iff v pageSize).mpr fun _ _ =>
    ⟨hb, fun _ => hall.le, fun hk => absurd hk (by decide)⟩
  have heval := v.growHeap_eq (show pageSize ≠ 0 by decide)
  rw [if_pos hflag, hgrow] at heval
  obtain ⟨st2, -, heq⟩ := map_eq_some_iff.mp heval.symm
  cases heq
  exact ⟨v, hb, _, hgrow, hbacked rfl⟩

/-- **The heap ends at a 4 MiB boundary and one frame is left.** It is spent on the page; the page's
table is missing, and the new block's footer is written to a page that is not there. -/
theorem growHeap_faults :
    ∃ st : PagedHeap, st.Valid [⟨1024 * pageSize, true⟩] ∧ st.Backed ∧
      (st.expandPages 0 (growPages pageSize)).1 = true ∧ st.growHeap pageSize = none := by
  -- the heap after boot, grown to fill its first table
  have r0 := heapInit_rep (fun _ => 0) ⟨[], Nat.zero_le _⟩
  have hroom : (heapInit (fun _ => 0) ⟨[], Nat.zero_le _⟩).heapBrk + 960 * pageSize +
      (heapInit (fun _ => 0) ⟨[], Nat.zero_le _⟩).frames.granted * pageSize ≤ heapLimit := by
    rw [heapInit_own fun _ => 0, r0.brk]
    decide
  obtain ⟨h1, -, r1, -⟩ := growMerge_spec (l := []) r0 hroom
  have r : Rep { h1 with frames := ⟨[], Nat.zero_le _⟩ } [⟨1024 * pageSize, true⟩] :=
    PokuOS.Backed.rep r1 ⟨Mem.SameOff.refl _ _, rfl, rfl, rfl, Nat.zero_le _⟩
  have hown : ({ h1 with frames := ⟨[], Nat.zero_le _⟩ } : Heap).frames.granted = 0 := rfl
  generalize ({ h1 with frames := ⟨[], Nat.zero_le _⟩ } : Heap) = h at r hown
  have hbrk : h.heapBrk = 0xD0400000 := r.brk
  have v : (⟨h, heapVm 1024 [2000], fun _ _ => 0⟩ : PagedHeap).Valid _ :=
    heapVm_valid _ r hown (by rw [hbrk]; decide) (by rw [hbrk]; decide) (nodup_singleton _)
      (by simp)
  have hloop : (⟨h, heapVm 1024 [2000], fun _ _ => 0⟩ : PagedHeap).loopFrames 1 = 1 := by
    rw [loopFrames, hbrk]
    rfl
  have hall : (⟨h, heapVm 1024 [2000], fun _ _ => 0⟩ : PagedHeap).allFrames 1 = 2 := by
    rw [allFrames, hbrk]
    rfl
  have hk : growPages pageSize = 1 := by decide
  have hflag := (v.loop_iff 1).mpr hloop.le
  refine ⟨_, v, heapVm_backed _ (by decide) hbrk, by rw [hk]; exact hflag, ?_⟩
  rw [v.growHeap_eq (by decide), hk, if_pos hflag]
  cases hend : PagedHeap.growEnd _ 1 with
  | none => rfl
  | some st' =>
    have hle : 2 ≤ 1 := hall ▸ v.allFrames_le Nat.one_pos hloop.le hend
    exact absurd hle (by decide)

end Backed

end PagedHeap

end PokuOS

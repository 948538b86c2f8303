import PokuOS.HeapClient

/-!
# Requests of every size

`kmalloc` takes a `size_t`, and rounds it up and adds the tags in 32-bit arithmetic. For all
but the last eleven sizes nothing overflows and the block is as large as it has to be. At the
top of the range the sum wraps around to almost nothing and the caller gets the smallest
block there is (`totalSize_wrap`).

Just below the top another sum wraps, the one in `grow_heap` that rounds to pages: it asks for
**no** page and reports success. When the last block is used an empty block is then put
behind the break, on top of that block's footer; the search after it finds nothing, so no
pointer is returned (`growNew_zero`).
-/

namespace PokuOS

open Heap List Sized

section Sizes

variable {h : Heap} {n : ℕ}

/-- **The sum wraps around**: the eleven largest requests are taken for small ones. -/
theorem totalSize_wrap (hbig : 2 ^ 32 - 12 < n) (hn : n < 2 ^ 32) :
    totalSize n = minBlockSize := by
  obtain ⟨k, hk, rfl⟩ : ∃ k, k < 11 ∧ n = 0xFFFFFFF5 + k :=
    ⟨n - 0xFFFFFFF5, by omega, by omega⟩
  clear hbig hn
  decide +revert

/-- The block a call returned is at least `total` bytes long, and not much longer. -/
def Serves (total : ℕ) (r : ℕ × Heap) : Prop :=
  r.1 ≠ 0 → total ≤ blockSize r.2.mem (sub32 r.1 tagSize) ∧
    blockSize r.2.mem (sub32 r.1 tagSize) < total + minBlockSize

/-- The first cell of what is left of a free block. -/
theorem carved_eq {s : ℕ} (hfit : n ≤ s) :
    ∃ t l, carved s n = ⟨t, false⟩ :: l ∧ n ≤ t ∧ t < n + minBlockSize := by
  unfold carved
  by_cases hrest : n + minBlockSize ≤ s
  · exact ⟨n, _, if_pos hrest, Nat.le_refl n, Nat.lt_add_of_pos_right (by decide)⟩
  · exact ⟨s, [], if_neg hrest, hfit, Nat.lt_of_not_le hrest⟩

/-- **A block that fits serves the request.** -/
theorem carve_serves {l1 l2 : List Cell} {s : ℕ} (r : Rep h (l1 ++ ⟨s, true⟩ :: l2))
    (hn : n % 4 = 0 ∧ 16 ≤ n) (hfit : n ≤ s) :
    ∃ r, h.carve (blockAt l1) n = some r ∧ Serves n r := by
  obtain ⟨h', hcarve, r', -⟩ := carve_spec r hn hfit
  obtain ⟨t, l, hcarved, ht, hlt⟩ := carved_eq hfit
  rw [hcarved, cons_append] at r'
  refine ⟨_, hcarve, fun _ => ?_⟩
  have hbound : blockAt l1 + 4 < 2 ^ 32 := by
    have hle := r'.brk ▸ r'.brk_le
    have hlim := heapLimit_lt
    rw [blockAt_append, span_cons] at hle
    omega
  have hblock : sub32 (blockAt l1 + 4) tagSize = blockAt l1 := by
    rw [tagSize, sub32_eq hbound (by omega)]
    omega
  change n ≤ blockSize h'.mem (sub32 (blockAt l1 + 4) tagSize) ∧
    blockSize h'.mem (sub32 (blockAt l1 + 4) tagSize) < n + minBlockSize
  rw [hblock, r'.blockSize]
  exact ⟨ht, hlt⟩

variable {cs : List Cell}

/-- **The search serves the request or finds nothing.** -/
theorem findFit_serves (r : Rep h cs) (hn : n % 4 = 0 ∧ 16 ≤ n) :
    (∃ b r, h.findFit n = some (some b) ∧ h.carve b n = some r ∧ Serves n r) ∨
      h.findFit n = some none := by
  rcases findFit_spec r n with ⟨l1, s, l2, rfl, hle, hfit⟩ | ⟨-, hfit⟩
  · obtain ⟨r', hcarve, hserves⟩ := carve_serves r hn hle
    exact .inl ⟨blockAt l1, r', hfit, hcarve, hserves⟩
  · exact .inr hfit

/-- No block is as long as the address space. -/
theorem Rep.size_lt {l1 l2 : List Cell} {c : Cell} (r : Rep h (l1 ++ c :: l2)) :
    c.size < 2 ^ 31 := by
  have hle := r.brk ▸ r.brk_le
  have hlim : heapLimit < heapVirtStart + 2 ^ 31 := by decide
  have hstart := start_le_blockAt l1
  rw [blockAt_append, span_cons] at hle
  omega

/-- A walk that nothing stops finds nothing. -/
theorem findFit_none {fs : List ℕ} (hseg : Seg (nextFree h.mem) (ptr h.freeList) fs none)
    (hshort : fs.length < listFuel) (hsmall : ∀ f ∈ fs, blockSize h.mem f < n) :
    h.findFit n = some none := by
  rw [← append_nil fs] at hseg
  have hwalk : walk (nextFree h.mem) (fun fb => decide (n ≤ blockSize h.mem fb)) listFuel none
      (ptr h.freeList) = some (fs.getLast?.or none, none) :=
    walk_seg _ hseg (fun f hf => decide_eq_false (Nat.not_le.mpr (hsmall f hf))) (by simp) hshort
  exact bind_of_some hwalk _

/-- What `grow_heap` writes when it has no page to add: a block of size 0 behind the break. Its
footer lands on the footer of the last block. -/
def emptyBlock (h : Heap) : Heap :=
  ((h.setWord h.heapBrk 1).setWord (h.heapBrk - 4) 0).setWord (h.heapBrk + 4) 0

theorem emptyBlock_edit (h : Heap) : Edit {x | h.heapBrk - 4 ≤ x} h (emptyBlock h) := by
  refine (Edit.setWord fun x hx _ => ?_).trans ((Edit.setWord fun x hx _ => hx).trans
    (Edit.setWord fun x hx _ => ?_))
  · exact Nat.le_trans (Nat.sub_le _ _) hx
  · change h.heapBrk - 4 ≤ x
    omega

theorem emptyBlock_header (hpos : 4 ≤ h.heapBrk) : (emptyBlock h).mem.load h.heapBrk = 1 := by
  rw [emptyBlock, load_setWord_ne (by omega), load_setWord_ne (by omega), load_setWord]
  decide

theorem growNew_zero_eq (hpos : 4 ≤ h.heapBrk) (hlt : h.heapBrk + 8 < 2 ^ 32) :
    h.growNew 0 = ((emptyBlock h).setBrk h.heapBrk).insertFree h.heapBrk := by
  have hword : 0 * pageSize = 0 := Nat.zero_mul _
  have hflag : 0 ||| blockFlagFree = 1 := rfl
  have hempty : blockSize (h.setWord h.heapBrk 1).mem h.heapBrk = 0 := by
    rw [blockSize, load_setWord]
    decide
  have hfooter : blockFooter (h.setWord h.heapBrk 1).mem h.heapBrk = h.heapBrk - 4 := by
    rw [blockFooter, hempty, tagSize, add32_eq (by omega), sub32_eq (by omega) (by omega),
      Nat.add_zero]
  unfold growNew
  simp only [hword, hflag, hfooter, setWord_heapBrk, tagSize,
    add32_eq (show h.heapBrk + 4 < 2 ^ 32 by omega),
    add32_eq (show h.heapBrk + 0 < 2 ^ 32 by omega), Nat.add_zero]
  rfl

variable {l : List Cell}

/-- The free blocks of a tiling, with the break behind them, are proper list nodes. -/
theorem nodes_brk {b : ℕ} (hz : Sized l) (hb : b % 4 = 0) (hl : blockAt l ≤ b)
    (hle : b ≤ heapLimit) : Nodes (freeAddrs heapVirtStart l ++ [b]) := by
  have hlim := heapLimit_lt
  have hpos := heapVirtStart_pos
  have hnodes := nodes_freeAddrs hz (Nat.le_trans hl hle)
  have hlen := (length_freeAddrs_le heapVirtStart l).trans
    (Nat.le_mul_of_pos_left l.length (show 0 < 16 by decide))
  have hspan := hz.length_le
  unfold blockAt at hl
  refine ⟨?_, fun f hf => ?_, fun f hf => ?_, fun f hf => ?_⟩
  · rw [length_append, length_singleton, listFuel]
    omega
  all_goals
    rcases mem_append.mp hf with hf | hf
    on_goal 2 =>
      obtain rfl := mem_singleton.mp hf
      omega
  · exact hnodes.pos f hf
  · exact hnodes.aligned f hf
  · exact hnodes.below f hf

/-- **No page behind a used block**: `grow_heap` lists an empty block at the break. -/
theorem growNew_zero_listed {t : ℕ} (r : Rep h (l ++ [⟨t, false⟩])) :
    ∃ h', h.growNew 0 = some h' ∧
      Seg (nextFree h'.mem) (ptr h'.freeList) (freeAddrs heapVirtStart l ++ [h.heapBrk]) none ∧
      Edit (links (h.heapBrk :: freeAddrs heapVirtStart l)) ((emptyBlock h).setBrk h.heapBrk)
        h' := by
  obtain ⟨hz, hzt⟩ := append.mp r.sized
  have hsize : t % 4 = 0 ∧ 16 ≤ t := (cons.mp hzt).1
  have hbrk : h.heapBrk = blockAt l + t := by rw [r.brk, blockAt_append, span_cons]; rfl
  have hle := r.brk_le
  have hlim := heapLimit_lt
  have hmod := blockAt_mod hz
  have e1 := emptyBlock_edit h
  have hbelow : ∀ f ∈ freeAddrs heapVirtStart l, f + 16 ≤ blockAt l := fun f hf =>
    (freeAddrs_bounds hz hf).2.1
  -- the empty block goes to the end of the free list
  have hnodes := nodes_brk hz (b := h.heapBrk) (by omega) (by omega) hle
  have hchain : Seg (nextFree (emptyBlock h).mem) (ptr h.freeList)
      (freeAddrs heapVirtStart l ++ []) none := by
    have hchain := r.chain
    rw [freeAddrs_append, freeAddrs_cons_used, freeAddrs_nil] at hchain
    refine hchain.congr fun f hf => ?_
    have := hbelow f (by simpa using hf)
    unfold nextFree tagSize
    rw [add32_eq (by omega), e1.mem.load_eq]
    intro x _ hx hmem
    have : h.heapBrk - 4 ≤ x := hmem
    omega
  obtain ⟨h2, hins, hseg, e2⟩ := insertFree_spec (h := (emptyBlock h).setBrk h.heapBrk) hchain
    hnodes (fun f hf => by have := hbelow f hf; omega) (by simp)
  exact ⟨h2, (growNew_zero_eq (by omega) (by omega)).trans hins, hseg, e2⟩

/-- The empty block serves no request. -/
theorem growNew_zero {t : ℕ} (r : Rep h (l ++ [⟨t, false⟩])) (hn : 2 ^ 31 ≤ n) :
    ∃ h', h.growNew 0 = some h' ∧ h'.findFit n = some none := by
  obtain ⟨hz, hzt⟩ := append.mp r.sized
  have hsize : t % 4 = 0 ∧ 16 ≤ t := (cons.mp hzt).1
  have hbrk : h.heapBrk = blockAt l + t := by rw [r.brk, blockAt_append, span_cons]; rfl
  have hspan : blockAt l = heapVirtStart + span l := rfl
  have hle := r.brk_le
  have hlim := heapLimit_lt
  have hmod := blockAt_mod hz
  have e1 := emptyBlock_edit h
  have hheader := emptyBlock_header (h := h) (by omega)
  have hnodes := nodes_brk hz (b := h.heapBrk) (by omega) (by omega) hle
  obtain ⟨h2, hnew, hseg, e2⟩ := growNew_zero_listed r
  have hlinks : ∀ x ∈ links (h.heapBrk :: freeAddrs heapVirtStart l), h.heapBrk + 4 ≤ x ∨
      x ∈ payload (fun _ => True) heapVirtStart l := by
    rintro x ⟨g, hg, hx⟩
    rcases mem_cons.mp hg with rfl | hg
    · exact .inl hx.1
    · exact .inr (links_payload hz ⟨g, hg, hx⟩)
  refine ⟨h2, hnew,
    findFit_none hseg hnodes.short fun f hf => ?_⟩
  -- headers are where they were
  rcases mem_append.mp hf with hf | hf
  · have htag := (tagged_append.mp r.tagged).1.sameOff hz e1.mem fun x hx =>
      .inr (.inl (by have : h.heapBrk - 4 ≤ x := hx; omega))
    replace htag := htag.sameOff hz e2.mem fun x hx => (hlinks x hx).elim
      (fun hx => .inr (.inl (by omega))) fun hx => .inr (.inr hx)
    obtain ⟨l1, s, l2, rfl, rfl⟩ := mem_freeAddrs hf
    have hs := (cons.mp (append.mp hz).2).1.1
    rw [append_assoc] at r
    have hlt := r.size_lt
    rw [blockSize_eq (tagged_append.mp htag).2.1 hs (by omega)]
    omega
  · obtain rfl := mem_singleton.mp hf
    have hload : h2.mem.load h.heapBrk = 1 := by
      rw [e2.mem.load_eq, ← hheader]
      · rfl
      · intro x h1 h2 hx
        rcases hlinks x hx with hx | hx
        · omega
        · have := payload_bounds hx
          omega
    rw [blockSize, hload]
    exact Nat.lt_of_lt_of_le (by decide) hn

/-- **Rounding to pages wraps around**: `grow_heap` reports success without a page, and the
search after it finds nothing. -/
theorem growHeap_zero (r : Rep h cs) (hn : n < 2 ^ 32) (hbig : 2 ^ 32 < n + pageSize) :
    ∃ h', h.growHeap n = some (true, h') ∧ h'.findFit n = some none := by
  have hpages : growPages n = 0 := by
    unfold growPages pageSize add32 at *
    omega
  have hexp : h.expandPages 0 (growPages n) = (true, h) := by rw [hpages]; rfl
  have hbrk : ¬ 0xFE000000 ≤ h.heapBrk := by
    have := r.brk_le
    have := heapLimit_lt
    omega
  obtain rfl | ⟨l, c, rfl⟩ := eq_nil_or_concat' cs
  · exact absurd rfl r.nonempty
  obtain ⟨hfoot, hprev, hin, hadd, hfree⟩ := r.last_block
  rw [growHeap_ok (by unfold pageSize at hbig; omega) hbrk hexp, hfoot, hprev, hpages]
  obtain ⟨t, _ | _⟩ := c
  · rw [if_neg (fun hc => by rw [hfree] at hc; exact Bool.false_ne_true hc.2.2.2)]
    obtain ⟨h', hnew, hfit⟩ := growNew_zero r (n := n) (by unfold pageSize at hbig; omega)
    exact ⟨h', by rw [hnew]; rfl, hfit⟩
  · have hpos : heapVirtStart < h.heapBrk := by
      have := (cons.mp (append.mp r.sized).2).1.2
      have := start_le_blockAt l
      rw [r.brk, blockAt_append, span_cons]
      omega
    rw [if_pos ⟨hpos, hin, hadd, hfree⟩]
    have hroom : h.heapBrk + 0 * pageSize + h.frames.granted * pageSize ≤ heapLimit := by
      rw [Nat.zero_mul]
      exact r.room
    obtain ⟨h', hmerge, r', -⟩ := growMerge_spec r hroom
    refine ⟨h', by rw [hmerge]; rfl, ?_⟩
    rcases findFit_spec r' n with ⟨l1, s, l2, hcs, hle, -⟩ | ⟨-, hfit⟩
    · rw [hcs] at r'
      have hlt : s < 2 ^ 31 := r'.size_lt
      unfold pageSize at hbig
      omega
    · exact hfit

/-- **`kmalloc` of any number of bytes returns**: a block for the size it computed, or `NULL`. -/
theorem kmalloc_serves (r : Rep h cs) (hpos : n ≠ 0) (hn : totalSize n % 4 = 0 ∧ 16 ≤ totalSize n)
    (hlt : totalSize n < 2 ^ 32) : ∃ r, h.kmalloc n = some r ∧ Serves (totalSize n) r := by
  rcases findFit_serves r hn with ⟨b, r', hfit, hcarve, hserves⟩ | hfit
  · exact ⟨r', (kmalloc_of_fit hpos hfit).trans hcarve, hserves⟩
  rcases Nat.lt_or_ge (2 ^ 32) (totalSize n + pageSize) with hbig | hsmall
  · -- no page is added, and nothing is found
    obtain ⟨h1, hgrow, hfit1⟩ := growHeap_zero r hlt hbig
    refine ⟨(0, h1), ?_, fun hne => absurd rfl hne⟩
    rw [kmalloc_of_grow hpos hfit hgrow, if_pos rfl, bind_of_some hfit1]
  · obtain ⟨ok, h1, hgrow, r1, -⟩ := growHeap_spec r (Nat.lt_of_lt_of_le (by decide) hn.2) hsmall
    have heval := kmalloc_of_grow hpos hfit hgrow
    cases ok with
    | false => exact ⟨(0, h1), heval, fun hne => absurd rfl hne⟩
    | true =>
      rw [if_pos rfl] at heval
      rcases findFit_serves r1 hn with ⟨b, r', hfit1, hcarve, hserves⟩ | hfit1
      · exact ⟨r', by rw [heval, bind_of_some hfit1]; exact hcarve, hserves⟩
      · exact ⟨(0, h1), by rw [heval, bind_of_some hfit1], fun hne => absurd rfl hne⟩

end Sizes

/-- **Exactly the eleven largest requests get too little.** In every state of every run, for
every `size_t`: `kmalloc` returns, and the block behind a pointer it returns has room for the
request between its header and its footer just when the sum of request and tags does not
overflow. -/
theorem kmalloc_enough_iff {s : ClientState} (hr : heapSystem.Reachable s) {n : ℕ}
    (hn : n < 2 ^ 32) :
    ∃ p h', s.heap.kmalloc n = some (p, h') ∧
      (p ≠ 0 → (n + 2 * tagSize ≤ blockSize h'.mem (sub32 p tagSize) ↔ n ≤ 2 ^ 32 - 12)) := by
  obtain ⟨cs, -, r, -, -⟩ := clientInv_of_reachable hr
  rcases Nat.eq_zero_or_pos n with rfl | hpos
  · exact ⟨0, s.heap, rfl, fun hne => absurd rfl hne⟩
  have htags : 2 * tagSize = 8 := rfl
  rcases Nat.lt_or_ge (2 ^ 32 - 12) n with hbig | hsmall
  · -- a block of 16 to 31 bytes
    have htotal := totalSize_wrap hbig hn
    obtain ⟨⟨p, h'⟩, heval, hserves⟩ := kmalloc_serves r (n := n) (by omega)
      (by rw [htotal]; decide) (by rw [htotal]; decide)
    refine ⟨p, h', heval, fun hne => ?_⟩
    have hlt : blockSize h'.mem (sub32 p tagSize) < _ := (hserves hne).2
    rw [htotal, minBlockSize] at hlt
    constructor <;> (intro _; omega)
  · have htotal := totalSize_eq hsmall
    rw [minBlockSize] at htotal
    obtain ⟨⟨p, h'⟩, heval, hserves⟩ := kmalloc_serves r (n := n) (by omega) (by omega) (by omega)
    refine ⟨p, h', heval, fun hne => ?_⟩
    have hle : totalSize n ≤ blockSize h'.mem (sub32 p tagSize) := (hserves hne).1
    exact ⟨fun _ => hsmall, fun _ => by omega⟩

theorem kmalloc_enough_iff_blank :
    ∃ p h', blankHeap.heap.kmalloc 64 = some (p, h') ∧ p ≠ 0 ∧
      64 + 2 * tagSize ≤ blockSize h'.mem (sub32 p tagSize) := by
  have hptr : (blankHeap.heap.kmalloc 64).map Prod.fst = some (heapVirtStart + 4) := by
    decide +kernel
  obtain ⟨p, h', heval, hiff⟩ := kmalloc_enough_iff blankHeap_reachable (n := 64) (by decide)
  rw [heval] at hptr
  have hp : p = heapVirtStart + 4 := Option.some.inj hptr
  have hne : p ≠ 0 := by
    rw [hp]
    decide
  exact ⟨p, h', heval, hne, (hiff hne).mpr (by decide)⟩

/-- Right after boot a request of `2 ^ 32 - 1` bytes is granted, with a block of 16. -/
theorem kmalloc_too_small :
    heapSystem.Reachable blankHeap ∧
      (blankHeap.heap.kmalloc (2 ^ 32 - 1)).map
        (fun r => (r.1, blockSize r.2.mem (sub32 r.1 tagSize))) =
        some (heapVirtStart + 4, 16) := by
  refine ⟨blankHeap_reachable, ?_⟩
  decide +kernel

end PokuOS

import PokuOS.HeapClient

/-!
# Releasing everything

When no request is live, the tiling has no used cell. Neighbouring free cells are always
merged, so what is left is a **single** free block from `HEAP_VIRT_START` to `heap_brk`. The
order of the calls and the growth in between leave no trace, except in the position of the
break.
-/

namespace PokuOS

open Heap

/-- A tiling without used cells, and without neighbours that are both free, is one cell. -/
theorem Coalesced.eq_singleton {a : ℕ} {cs : List Cell} (hc : Coalesced false cs)
    (hused : usedBlocks a cs = []) (hne : cs ≠ []) : cs = [⟨span cs, true⟩] := by
  match cs with
  | [] => exact absurd rfl hne
  | ⟨s, false⟩ :: cs => simp at hused
  | [⟨s, true⟩] => rfl
  | ⟨s, true⟩ :: ⟨t, false⟩ :: cs => simp at hused
  | ⟨s, true⟩ :: ⟨t, true⟩ :: cs => simp at hc

/-- The allocator's own state when there is one free block: its static variables and the words
it has in memory, which are the block's header, link and footer. -/
structure Released (h : Heap) : Prop where
  /-- the free list has one block, and that is where the region starts -/
  list : Seg (nextFree h.mem) (ptr h.freeList) [heapVirtStart] none
  /-- it is as long as the region -/
  size : blockSize h.mem heapVirtStart = h.heapBrk - heapVirtStart
  /-- the header has the size and the `FREE` bit, and nothing else -/
  header : h.mem.load heapVirtStart = (h.heapBrk - heapVirtStart) ||| blockFlagFree
  /-- the footer has the size -/
  footer : h.mem.load (h.heapBrk - tagSize) = h.heapBrk - heapVirtStart
  /-- both ends agree -/
  fin : h.heapEnd = h.heapBrk

/-- The state of the allocator, words of free bytes aside, is the same in both heaps. -/
structure SameState (h h' : Heap) : Prop where
  freeList : h'.freeList = h.freeList
  heapBrk : h'.heapBrk = h.heapBrk
  heapEnd : h'.heapEnd = h.heapEnd
  /-- the header of the block -/
  header : h'.mem.load heapVirtStart = h.mem.load heapVirtStart
  /-- its link -/
  link : h'.mem.load (add32 heapVirtStart tagSize) = h.mem.load (add32 heapVirtStart tagSize)
  /-- its footer -/
  footer : h'.mem.load (h'.heapBrk - tagSize) = h.mem.load (h.heapBrk - tagSize)

variable {h : Heap}

/-- A represented tiling with no used cell is one free block. -/
theorem Rep.released {cs : List Cell} (r : Rep h cs) (hused : usedBlocks heapVirtStart cs = []) :
    Released h := by
  have hone := r.coalesced.eq_singleton hused r.nonempty
  have hbrk : h.heapBrk = heapVirtStart + span cs := r.brk
  have hspan : h.heapBrk - heapVirtStart = span cs := by omega
  have hmod := r.sized.span_mod
  rw [hone] at r
  have hheader : h.mem.load heapVirtStart = tagWord ⟨span cs, true⟩ false := r.tagged.1
  have hfooter : h.mem.load (heapVirtStart + span cs - 4) = span cs := r.tagged.2.1
  refine ⟨r.chain, ?_, ?_, ?_, r.fin⟩
  · have hblock : Rep h ([] ++ ⟨span cs, true⟩ :: []) := r
    rw [hspan]
    exact hblock.blockSize
  · have : span cs ||| blockFlagFree ||| 2 * false.toNat = tagWord ⟨span cs, true⟩ false :=
      freeHeader_eq hmod
    rw [hheader, hspan, ← this]
    simp
  · rw [hspan, hbrk]
    exact hfooter

/-- The pointer word of a chain with one node. -/
theorem Released.freeList (hr : Released h) : h.freeList = heapVirtStart := by
  have hfirst : ptr h.freeList = some heapVirtStart := hr.list.1
  unfold ptr at hfirst
  split at hfirst
  · cases hfirst
  · exact Option.some.inj hfirst

/-- The link word of a chain with one node. -/
theorem Released.link (hr : Released h) : h.mem.load (add32 heapVirtStart tagSize) = 0 := by
  have hlast : nextFree h.mem heapVirtStart = none := hr.list.2
  unfold nextFree ptr at hlast
  split at hlast
  · assumption
  · cases hlast

/-- Two released heaps of one length are the same. -/
theorem Released.sameState {h' : Heap} (hr : Released h) (hr' : Released h')
    (hbrk : h'.heapBrk = h.heapBrk) : SameState h h' := by
  refine ⟨?_, hbrk, ?_, ?_, ?_, ?_⟩
  · rw [hr.freeList, hr'.freeList]
  · rw [hr.fin, hr'.fin, hbrk]
  · rw [hr.header, hr'.header, hbrk]
  · rw [hr.link, hr'.link]
  · rw [hr.footer, hr'.footer, hbrk]

/-- **Full release re-coalesces the heap**: when every allocation has been given back, the
free list is one block that is the whole region, and heaps that have grown equally far are
in the same state. -/
theorem release_coalesces {s : ClientState} (hr : heapSystem.Reachable s) (hlive : s.live = []) :
    Released s.heap ∧ ∀ s', heapSystem.Reachable s' → s'.live = [] →
      s'.heap.heapBrk = s.heap.heapBrk → SameState s.heap s'.heap := by
  have hreleased : ∀ s, heapSystem.Reachable s → s.live = [] → Released s.heap := by
    intro s hr hlive
    obtain ⟨cs, us, r, hperm, hholds⟩ := clientInv_of_reachable hr
    rw [hlive] at hholds
    obtain rfl := List.forall₂_nil_left_iff.mp hholds
    exact r.released hperm.nil_eq.symm
  refine ⟨hreleased s hr hlive, fun s' hr' hlive' hbrk => ?_⟩
  exact (hreleased s hr hlive).sameState (hreleased s' hr' hlive') hbrk

theorem releaseRun_reaches :
    ∃ s, heapSystem.Reachable s ∧
      s.live = [] ∧ s.heap.heapBrk = blankHeap.heap.heapBrk :=
  System.exists_reachable (fun s e => checkedCall s e) releaseRun _ checkedCall_allowed
    blankHeap_reachable
    (by decide +kernel)

theorem release_coalesces_two :
    ∃ s, heapSystem.Reachable s ∧ s.live = [] ∧ Released s.heap ∧
      SameState s.heap blankHeap.heap := by
  obtain ⟨s, hr, hlive, hbrk⟩ := releaseRun_reaches
  have hmain := release_coalesces hr hlive
  exact ⟨s, hr, hlive, hmain.1, hmain.2 blankHeap blankHeap_reachable rfl hbrk.symm⟩

end PokuOS

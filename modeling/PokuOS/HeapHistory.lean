import PokuOS.HeapRelease

/-!
# The heap forgets its history

Neighbouring free blocks are always merged, so **the free blocks are the gaps between the used
ones** (`Rep.eq_layout`): everything the allocator keeps is a function of the used blocks and the
break. How they came about does not matter (`heap_forgets`), and a block that is given back at once
was never there (`kfree_kmalloc`).
-/

namespace PokuOS

open Heap List

/-- The free cell between two addresses, if they are not the same. -/
def gap (a b : ℕ) : List Cell := if a < b then [⟨b - a, true⟩] else []

/-- The used blocks from `a` to `e`, and the gaps between them. -/
def layout : ℕ → ℕ → List (ℕ × ℕ) → List Cell
  | a, e, [] => gap a e
  | a, e, (b, t) :: us => gap a b ++ ⟨t, false⟩ :: layout (b + t) e us

theorem gap_add {s : ℕ} (a : ℕ) (hs : 16 ≤ s) : gap a (a + s) = [⟨s, true⟩] := by
  rw [gap, if_pos (by omega), Nat.add_sub_cancel_left]

theorem gap_self (a : ℕ) : gap a a = [] := if_neg (Nat.lt_irrefl a)

/-- **Cells that are merged** are determined by the used ones. -/
theorem Coalesced.eq_layout : ∀ {a : ℕ} {cs : List Cell}, Sized cs → Coalesced false cs →
    cs = layout a (a + span cs) (usedBlocks a cs)
  | a, [], _, _ => (gap_self a).symm
  | a, ⟨s, false⟩ :: cs, hz, hc => by
    have ih := Coalesced.eq_layout (a := a + s) (Sized.cons.mp hz).2 hc.2
    rw [usedBlocks_cons_used, layout, gap_self, nil_append, span_cons, ← Nat.add_assoc, ← ih]
  | a, [⟨s, true⟩], hz, _ => (gap_add a (Sized.cons.mp hz).1.2).symm
  | a, ⟨s, true⟩ :: ⟨t, false⟩ :: cs, hz, hc => by
    obtain ⟨⟨-, hs⟩, hz⟩ := Sized.cons.mp hz
    have ih := Coalesced.eq_layout (a := a + s + t) (Sized.cons.mp hz).2 hc.2.2
    rw [usedBlocks_cons_free, usedBlocks_cons_used, layout, gap_add a hs, span_cons, span_cons,
      ← Nat.add_assoc, ← Nat.add_assoc, ← ih]
    rfl
  | a, ⟨s, true⟩ :: ⟨t, true⟩ :: cs, _, hc => absurd ⟨rfl, rfl⟩ hc.2.1

variable {h h' : Heap} {cs cs' : List Cell}

theorem Rep.eq_layout (r : Rep h cs) :
    cs = layout heapVirtStart h.heapBrk (usedBlocks heapVirtStart cs) := by
  rw [r.brk]
  exact r.coalesced.eq_layout r.sized

/-- **The heap forgets its history.** However two heaps were reached, if the same blocks are used
and the break is the same, the free list starts at the same block, and every header and link is the
same. -/
theorem heap_forgets (r : Rep h cs) (r' : Rep h' cs')
    (hused : usedBlocks heapVirtStart cs' = usedBlocks heapVirtStart cs)
    (hbrk : h'.heapBrk = h.heapBrk) :
    cs' = cs ∧ ptr h'.freeList = ptr h.freeList ∧
      (∀ l₁ c l₂, cs = l₁ ++ c :: l₂ → h'.mem.load (blockAt l₁) = h.mem.load (blockAt l₁)) ∧
      ∀ b ∈ freeAddrs heapVirtStart cs, nextFree h'.mem b = nextFree h.mem b := by
  obtain rfl : cs' = cs := by
    rw [r.eq_layout, r'.eq_layout, hused, hbrk]
  refine ⟨rfl, r'.chain.head_eq.trans r.chain.head_eq.symm, ?_, fun b hb => ?_⟩
  · rintro l1 c l2 rfl
    exact (tagged_append.mp r'.tagged).2.1.trans (tagged_append.mp r.tagged).2.1.symm
  · obtain ⟨l1, l2, hsplit⟩ := append_of_mem hb
    exact (hsplit ▸ r'.chain).next_eq.trans (hsplit ▸ r.chain).next_eq.symm

/-- The heap after boot, and after two requests that were given back. -/
theorem heap_forgets_released : ∃ s cs, heapSystem.Reachable s ∧ Rep s.heap cs ∧
    Rep blankHeap.heap cs ∧ ptr s.heap.freeList = ptr blankHeap.heap.freeList := by
  obtain ⟨s, hr, hlive, hbrk⟩ := releaseRun_reaches
  obtain ⟨cs, us, r, hperm, hholds⟩ := clientInv_of_reachable hr
  rw [hlive] at hholds
  obtain rfl := forall₂_nil_left_iff.mp hholds
  have r0 : Rep blankHeap.heap _ := heapInit_rep _ _
  obtain ⟨rfl, hlist, -⟩ := heap_forgets r0 r hperm.nil_eq.symm hbrk
  exact ⟨s, _, hr, r, r0, hlist⟩

/-- **A request that is given back at once leaves no trace**, except that the heap may have grown:
the free blocks are then the gaps up to the new break. -/
theorem kfree_kmalloc {n p : ℕ} {h₁ : Heap} (r : Rep h cs) (hmax : n ≤ 2 ^ 31)
    (hmalloc : h.kmalloc n = some (p, h₁)) (hp : p ≠ 0) :
    ∃ h₂, h₁.kfree p = some h₂ ∧
      Rep h₂ (layout heapVirtStart h₁.heapBrk (usedBlocks heapVirtStart cs)) ∧
      (h₁.heapBrk = h.heapBrk → Rep h₂ cs) ∧ ∀ x ∈ clientBytes cs, h₂.mem x = h.mem x := by
  obtain ⟨_, _, cs1, hmalloc', ha⟩ := kmalloc_spec r hmax
  cases hmalloc.symm.trans hmalloc'
  obtain ⟨b, t, us, vs, rfl, -, hus, hus1⟩ := ha.used.resolve_left fun hc => hp hc.1
  obtain ⟨l1, l2, rfl, rfl, rfl, rfl⟩ := usedBlocks_split hus1
  obtain ⟨h2, l, u, l', hfree, r2, e, hus2⟩ := kfree_used ha.rep
  have hsame := hus2.trans hus.symm
  have hlayout := r2.eq_layout
  rw [hsame, e.brk] at hlayout
  refine ⟨h2, hfree, hlayout ▸ r2, fun hbrk => ?_, fun x hx => ?_⟩
  · rw [r.eq_layout, ← hbrk]
    exact hlayout ▸ r2
  · have hx2 : x ∈ clientBytes (l ++ ⟨u, true⟩ :: l') := by
      unfold clientBytes at hx ⊢
      rw [mem_payload_used] at hx ⊢
      rwa [hsame]
    exact (e.mem x (not_mem_workArea (Sized.append.mp r2.sized).1 hx2)).trans (ha.keep x hx)

theorem kfree_kmalloc_blank : ∃ p h₁ h₂, blankHeap.heap.kmalloc 64 = some (p, h₁) ∧
    h₁.kfree p = some h₂ ∧ ∃ cs, Rep blankHeap.heap cs ∧ Rep h₂ cs := by
  obtain ⟨⟨p, h₁⟩, hmalloc, hp, hbrk⟩ : ∃ r ∈ blankHeap.heap.kmalloc 64, r.1 ≠ 0 ∧
      r.2.heapBrk = blankHeap.heap.heapBrk := by
    decide +kernel
  have r : Rep blankHeap.heap _ := heapInit_rep _ _
  obtain ⟨h₂, hfree, -, hrep, -⟩ := kfree_kmalloc r (by decide) hmalloc hp
  exact ⟨p, h₁, h₂, hmalloc, hfree, _, r, hrep hbrk⟩

end PokuOS

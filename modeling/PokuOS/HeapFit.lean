import PokuOS.HeapClient

/-!
# First fit, and growth that suffices

`kmalloc` searches the address-ordered free list from its head, so it takes **the lowest free
block that is large enough** (`findFit_first`). When there is none, the pages `grow_heap` adds
make the last block of the heap large enough; every other free block is as small as before,
so the second search ends at exactly that block and `kmalloc` cannot come back empty-handed.
-/

namespace PokuOS

open Heap List

/-! ## The grown heap -/

theorem span_grown (k : ℕ) (cs : List Cell) : span (grown k cs) = span cs + k := by
  rcases eq_nil_or_concat' cs with rfl | ⟨l, c, rfl⟩
  · simp [grown]
  · rw [grown_concat]
    cases c.free <;> simp [Nat.add_assoc]

/-- **After growing by enough, the last block fits and it is the only one.** -/
theorem exists_grown_last {k n : ℕ} {cs : List Cell} (hk : n ≤ k)
    (hsmall : ∀ c ∈ cs, c.free = true → c.size < n) :
    ∃ l s, grown k cs = l ++ [⟨s, true⟩] ∧ n ≤ s ∧ ∀ c ∈ l, c.free = true → c.size < n := by
  rcases eq_nil_or_concat' cs with rfl | ⟨l, c, rfl⟩
  · exact ⟨[], k, rfl, hk, fun c hc => nomatch hc⟩
  · rw [grown_concat]
    cases hfree : c.free
    · exact ⟨l ++ [c], k, by simp, hk, hsmall⟩
    · refine ⟨l, c.size + k, by simp, by omega, fun d hd => ?_⟩
      exact hsmall d (mem_append_left _ hd)

/-- The pages `grow_heap` adds for a request: the request, rounded up to whole pages. -/
theorem growPages_eq {need : ℕ} (hlt : need + pageSize ≤ 2 ^ 32) :
    growPages need = (need + (pageSize - 1)) / pageSize := by
  simp only [growPages, pageSize] at *
  rw [add32_eq (by omega)]

theorem le_growPages {need : ℕ} (hlt : need + pageSize ≤ 2 ^ 32) :
    need ≤ growPages need * pageSize := by
  rw [growPages_eq hlt, pageSize]
  omega

/-- The search of a heap without a fitting block fails. -/
theorem findFit_of_small {h : Heap} {cs : List Cell} {n : ℕ} (r : Rep h cs)
    (hno : ∀ c ∈ cs, c.free = true → c.size < n) : h.findFit n = some none := by
  rcases findFit_first r n with ⟨l1, s, l2, rfl, hle, -, -⟩ | ⟨-, hfit⟩
  · exact absurd hle (Nat.not_le.mpr (hno ⟨s, true⟩ (by simp) rfl))
  · exact hfit

/-- The search of a heap whose only fitting block is the last one ends there. -/
theorem findFit_last {h : Heap} {l : List Cell} {s n : ℕ} (r : Rep h (l ++ [⟨s, true⟩]))
    (hle : n ≤ s) (hsmall : ∀ c ∈ l, c.free = true → c.size < n) :
    h.findFit n = some (some (blockAt l)) := by
  rcases findFit_first r n with ⟨l1, t, l2, hcs, hle', -, hfit⟩ | ⟨hno, -⟩
  · rcases append_eq_append_iff.mp hcs with ⟨as, hl1, hend⟩ | ⟨as, hl, hend⟩
    · -- the block found is not before the last one
      rcases as with _ | ⟨a, as⟩
      · rw [hfit, hl1, append_nil]
      · simp at hend
    · rcases as with _ | ⟨a, as⟩
      · rw [hfit, hl, append_nil]
      · obtain ⟨rfl, -⟩ := cons.inj hend
        exact absurd hle' (Nat.not_le.mpr (hsmall ⟨t, true⟩ (by rw [hl]; simp) rfl))
  · exact absurd hle (Nat.not_le.mpr (hno ⟨s, true⟩ (by simp) rfl))

/-! ## `kmalloc` -/

section Kmalloc

variable {h : Heap} {cs : List Cell} {n : ℕ}

/-- **A block that fits**: the lowest one is taken, and the heap does not grow. -/
theorem kmalloc_lowest (r : Rep h cs) (hn : 0 < n) (hmax : n ≤ 2 ^ 31)
    (hex : ∃ c ∈ cs, c.free = true ∧ totalSize n ≤ c.size) :
    ∃ l1 s l2 h', cs = l1 ++ ⟨s, true⟩ :: l2 ∧ totalSize n ≤ s ∧
      (∀ c ∈ l1, c.free = true → c.size < totalSize n) ∧
      h.kmalloc n = some (blockAt l1 + 4, h') ∧ Rep h' (l1 ++ (carved s (totalSize n) ++ l2)) ∧
      h'.heapBrk = h.heapBrk ∧ h'.frames = h.frames := by
  obtain ⟨hmod, hmin, -, -⟩ := totalSize_spec hn hmax
  rcases findFit_first r (totalSize n) with ⟨l1, s, l2, hcs, hle, hlow, hfit⟩ | ⟨hno, -⟩
  · obtain ⟨h', hcarve, r', e⟩ := carve_spec (hcs ▸ r) ⟨hmod, hmin⟩ hle
    refine ⟨l1, s, l2, h', hcs, hle, hlow, ?_, r', e.brk, e.frames⟩
    rw [kmalloc_of_fit (by omega) hfit, hcarve]
  · obtain ⟨c, hc, hfree, hle⟩ := hex
    have := hno c hc hfree
    omega

/-- **No block fits and the heap grows**: the second search finds the last block. -/
theorem kmalloc_grown (r : Rep h cs) (hn : 0 < n) (hmax : n ≤ 2 ^ 31)
    (hno : ∀ c ∈ cs, c.free = true → c.size < totalSize n) :
    ∃ ok h1, h.growHeap (totalSize n) = some (ok, h1) ∧
      (ok = true → ∃ l s h', Rep h1 (l ++ [⟨s, true⟩]) ∧
        h1.findFit (totalSize n) = some (some (blockAt l)) ∧
        h.kmalloc n = some (blockAt l + 4, h') ∧ Rep h' (l ++ carved s (totalSize n)) ∧
        h'.heapBrk = h.heapBrk + (totalSize n + (pageSize - 1)) / pageSize * pageSize) := by
  obtain ⟨hmod, hmin, -, hlt⟩ := totalSize_spec hn hmax
  have hlt : totalSize n + pageSize ≤ 2 ^ 32 := by
    unfold pageSize
    omega
  have hfit := findFit_of_small r hno
  obtain ⟨ok, h1, hgrow, r1, -⟩ := growHeap_spec r (by omega) hlt
  refine ⟨ok, h1, hgrow, ?_⟩
  rintro rfl
  rw [if_pos rfl] at r1
  obtain ⟨l, s, hlast, hle, hsmall⟩ := exists_grown_last (le_growPages hlt) hno
  have hspan := span_grown (growPages (totalSize n) * pageSize) cs
  rw [hlast] at r1 hspan
  have hfit1 := findFit_last r1 hle hsmall
  obtain ⟨h', hcarve, r', e⟩ := carve_spec r1 ⟨hmod, hmin⟩ hle
  rw [append_nil] at r'
  refine ⟨l, s, h', r1, hfit1, ?_, r', ?_⟩
  · rw [kmalloc_of_grow (by omega) hfit hgrow, if_pos rfl, bind_of_some hfit1]
    exact hcarve
  · rw [e.brk, r1.brk, r.brk, blockAt, blockAt, hspan, growPages_eq hlt, Nat.add_assoc]

/-- **`kmalloc` is first-fit and growth suffices.** In a heap that satisfies its invariant, a
request takes the lowest free block that is large enough and leaves `heap_brk` and the frames
alone. When there is none and `grow_heap` succeeds, the second search succeeds too: it finds
the last block of the grown heap, `kmalloc` carves its answer from the front of it, and
`heap_brk` has moved by the block size rounded up to whole pages. -/
theorem kmalloc_firstFit (r : Rep h cs) (hn : 0 < n) (hmax : n ≤ 2 ^ 31) :
    ((∃ c ∈ cs, c.free = true ∧ totalSize n ≤ c.size) →
      ∃ l₁ s l₂ h', cs = l₁ ++ ⟨s, true⟩ :: l₂ ∧ totalSize n ≤ s ∧
        (∀ c ∈ l₁, c.free = true → c.size < totalSize n) ∧
        h.kmalloc n = some (blockAt l₁ + 4, h') ∧
        Rep h' (l₁ ++ (carved s (totalSize n) ++ l₂)) ∧
        h'.heapBrk = h.heapBrk ∧ h'.frames = h.frames) ∧
    ((∀ c ∈ cs, c.free = true → c.size < totalSize n) →
      ∃ ok h₁, h.growHeap (totalSize n) = some (ok, h₁) ∧
        (ok = true → ∃ l s h', Rep h₁ (l ++ [⟨s, true⟩]) ∧
          h₁.findFit (totalSize n) = some (some (blockAt l)) ∧
          h.kmalloc n = some (blockAt l + 4, h') ∧ Rep h' (l ++ carved s (totalSize n)) ∧
          h'.heapBrk = h.heapBrk + (totalSize n + (pageSize - 1)) / pageSize * pageSize)) :=
  ⟨kmalloc_lowest r hn hmax, kmalloc_grown r hn hmax⟩

/-- Frames for the heap after boot, and for 65 pages more. -/
def bootFrames : FrameSupply := ⟨replicate 129 (some fun _ => 0), by decide +kernel⟩

/-- The heap after boot: a small request is served from its one free block, and a block of 256 KiB
from the heap that has grown by 65 pages. -/
theorem kmalloc_firstFit_boot :
    (∃ l₁ h', (heapInit (fun _ => 0) bootFrames).kmalloc 64 = some (blockAt l₁ + 4, h') ∧
        h'.heapBrk = (heapInit (fun _ => 0) bootFrames).heapBrk) ∧
      ∃ h₁ l h', (heapInit (fun _ => 0) bootFrames).growHeap (totalSize (2 ^ 18)) =
          some (true, h₁) ∧
        (heapInit (fun _ => 0) bootFrames).kmalloc (2 ^ 18) = some (blockAt l + 4, h') ∧
        h'.heapBrk = (heapInit (fun _ => 0) bootFrames).heapBrk + 65 * pageSize := by
  have r := heapInit_rep (fun _ => 0) bootFrames
  constructor
  · obtain ⟨l₁, -, -, h', -, -, -, hret, -, hbrk, -⟩ :=
      (kmalloc_firstFit r (n := 64) (by decide) (by decide)).1
        ⟨_, mem_cons_self, rfl, by decide⟩
    exact ⟨l₁, h', hret, hbrk⟩
  · obtain ⟨⟨-, h₁⟩, hgrow, rfl⟩ : ∃ r ∈ (heapInit (fun _ => 0) bootFrames).growHeap
        (totalSize (2 ^ 18)), r.1 = true := by decide +kernel
    obtain ⟨ok, h₂, hgrow', hgrown⟩ :=
      (kmalloc_firstFit r (n := 2 ^ 18) (by decide) (by decide)).2 fun c hc _ => by
        rw [mem_singleton.mp hc]
        decide
    cases hgrow'.symm.trans hgrow
    obtain ⟨l, -, h', -, -, hret, -, hbrk⟩ := hgrown rfl
    have hpages : (totalSize (2 ^ 18) + (pageSize - 1)) / pageSize = 65 := by decide
    rw [hpages] at hbrk
    exact ⟨h₁, l, h', hgrow, hret, hbrk⟩

end Kmalloc

end PokuOS

import Mathlib.Data.Set.Basic
import PokuOS.HeapRep
import PokuOS.Transition

/-!
# The operations of the heap

One specification for each function of `kernel/heap.c` over represented heaps: which tiling
it leaves, and which bytes it may have written.

All writes made for one block stay in its `workArea`: the link words of free blocks before
it, the block itself, and the header of its successor. None of them is in the payload of a
used block, so the bytes clients own are untouched.
-/

namespace PokuOS

open Heap List Edit

/-- The bytes of a block of size `t` behind `l`, and its successor's header. -/
def blockBytes (l : List Cell) (t : ℕ) : Set ℕ := {x | blockAt l ≤ x ∧ x < blockAt l + t + 4}

/-- What may be written while one block is worked on. -/
def workArea (l : List Cell) (t : ℕ) : Set ℕ :=
  links (freeAddrs heapVirtStart l) ∪ blockBytes l t

/-- The bytes that belong to clients. -/
def clientBytes (cs : List Cell) : Set ℕ := payload (fun c => c.free = false) heapVirtStart cs

theorem blockBytes_subset (l : List Cell) (t : ℕ) : blockBytes l t ⊆ workArea l t :=
  Set.subset_union_right

theorem links_subset (l : List Cell) (t : ℕ) :
    links (freeAddrs heapVirtStart l) ⊆ workArea l t :=
  Set.subset_union_left

/-- The links of a block inside the block are part of the work, too. -/
theorem links_cons_subset {l : List Cell} {b t : ℕ} (hb : blockAt l ≤ b)
    (ht : b + 8 ≤ blockAt l + t) : links (b :: freeAddrs heapVirtStart l) ⊆ workArea l t := by
  rintro x ⟨g, hg, hx⟩
  rcases mem_cons.mp hg with rfl | hg
  · exact .inr ⟨by omega, by omega⟩
  · exact .inl ⟨g, hg, hx⟩

/-- Working on a block leaves the payloads of the used blocks before it alone. -/
theorem workArea_disjoint {l : List Cell} {t x : ℕ} (hz : Sized l) (hx : x ∈ workArea l t) :
    x ∉ clientBytes l := by
  intro hu
  rcases hx with hx | ⟨h1, -⟩
  · refine payload_disjoint (fun c hc hc' => ?_) (links_freeAddrs_subset hz hx) hu
    rw [hc] at hc'
    exact Bool.false_ne_true hc'.symm
  · have := payload_lt hu
    omega

/-- **Client bytes are out of reach** of the work on a free block. -/
theorem not_mem_workArea {l1 l2 : List Cell} {t x : ℕ} (hz : Sized l1)
    (hx : x ∈ clientBytes (l1 ++ ⟨t, true⟩ :: l2)) : x ∉ workArea l1 t := by
  intro hw
  rcases mem_payload_append.mp hx with hx | ⟨hfree, -⟩ | hx
  · exact workArea_disjoint hz hw hx
  · exact Bool.false_ne_true hfree.symm
  · have hlow := payload_bounds hx
    simp only at hlow
    rcases hw with hw | ⟨-, hw⟩
    · have := payload_bounds (links_freeAddrs_subset hz hw)
      omega
    · unfold blockAt at hw
      omega

section Close

variable {h : Heap} {l1 l2 : List Cell} {t : ℕ}

/-- **The end of `kmalloc`** closes the block as used. -/
theorem markUsed_spec (o : Open h l1 t l2) :
    Rep (h.markUsed (blockAt l1)) (l1 ++ ⟨t, false⟩ :: l2) ∧
      Edit (blockBytes l1 t) h (h.markUsed (blockAt l1)) := by
  obtain ⟨f, hf⟩ := o.header
  have hlt := o.end_lt
  obtain ⟨ht4, ht⟩ := o.size
  unfold markUsed
  simp only [clearFree_eq hf ht4 (by simp only; omega)]
  have o1 := o.setHeader false
  rw [o1.blockFooter, o1.blockSize]
  have o2 := o1.setBody t (a := blockAt l1 + t - 4) (by omega) (by omega)
  rw [o2.blockAfter]
  have e2 : Edit (blockBytes l1 t) h ((h.setWord (blockAt l1)
      (tagWord ⟨t, false⟩ (endFree false l1))).setWord (blockAt l1 + t - 4) t) :=
    (setWord (S := blockBytes l1 t) fun x h1 h2 => ⟨h1, by omega⟩).trans
      (setWord fun x h1 h2 => ⟨by omega, by omega⟩)
  cases l2 with
  | nil =>
    rw [if_neg (fun hin => o2.inHeap_next.mp hin rfl)]
    refine ⟨o2.close_used ⟨?_, ?_, ?_⟩, e2⟩
    · rw [load_setWord_ne (by omega), load_setWord, tagWord_mod (by simp only; omega)]
    · rw [load_setWord, Nat.mod_eq_of_lt (by omega)]
    · rintro d l ⟨⟩
  | cons d l =>
    obtain ⟨q, hq⟩ := o2.next_header
    obtain ⟨⟨hd4, -⟩, -⟩ := Sized.cons.mp o.sized₂
    rw [span_cons] at hlt
    rw [if_pos (o2.inHeap_next.mpr (by simp)), clearPrev_eq (hq d l rfl) hd4 (by omega)]
    refine ⟨(o2.setNext false).close_used ⟨?_, ?_, ?_⟩,
      e2.trans (setWord fun x h1 h2 => ⟨by omega, h2⟩)⟩
    · rw [load_setWord_ne (by omega), load_setWord_ne (by omega), load_setWord,
        tagWord_mod (by simp only; omega)]
    · rw [load_setWord_ne (by omega), load_setWord, Nat.mod_eq_of_lt (by omega)]
    · intro d' l' hd
      obtain ⟨rfl, rfl⟩ := cons.inj hd
      rw [load_setWord, tagWord_mod (by omega)]

/-- Setting or leaving the successor's flag: the block stays open and the flag is right. -/
theorem Open.flagNext (o : Open h l1 t l2) :
    ∃ h', (if h.blockInHeap (blockAt l1 + t) then
        h.setWord (blockAt l1 + t) (h.mem.load (blockAt l1 + t) ||| blockFlagPrevFree)
        else h) = h' ∧ Open h' l1 t l2 ∧
      Edit {x | blockAt l1 + t ≤ x ∧ x < blockAt l1 + t + 4} h h' ∧
      ∀ d l, l2 = d :: l → h'.mem.load (blockAt l1 + t) = tagWord d true := by
  cases l2 with
  | nil =>
    rw [if_neg (fun hin => o.inHeap_next.mp hin rfl)]
    exact ⟨h, rfl, o, refl _ h, by rintro d l ⟨⟩⟩
  | cons d l =>
    obtain ⟨q, hq⟩ := o.next_header
    obtain ⟨⟨hd4, -⟩, -⟩ := Sized.cons.mp o.sized₂
    have hlt := o.end_lt
    rw [span_cons] at hlt
    rw [if_pos (o.inHeap_next.mpr (by simp)), setPrev_eq (hq d l rfl) hd4]
    refine ⟨_, rfl, o.setNext true, setWord fun x h1 h2 => ⟨h1, h2⟩, ?_⟩
    intro d' l' hd
    obtain ⟨rfl, rfl⟩ := cons.inj hd
    rw [load_setWord, tagWord_mod (by omega)]

/-- **The end of `kfree`** settles the block as free. -/
theorem markFree_spec (o : Open h l1 t l2) :
    Open (h.markFree (blockAt l1)) l1 t l2 ∧ Settled true (h.markFree (blockAt l1)) l1 t l2 ∧
      Edit (blockBytes l1 t) h (h.markFree (blockAt l1)) := by
  have hlt := o.end_lt
  obtain ⟨ht4, ht⟩ := o.size
  obtain ⟨h1, hflag, o1, e1, hnext⟩ := o.flagNext
  obtain ⟨f, hf⟩ := o1.header
  unfold markFree
  simp only [o.blockAfter, hflag, setFree_eq hf ht4]
  have o2 := o1.setHeader true
  rw [o2.blockFooter, o2.blockSize, add32_eq (by unfold tagSize; omega)]
  have o3 := o2.setBody t (a := blockAt l1 + t - 4) (by omega) (by omega)
  have o4 := o3.setBody 0 (a := blockAt l1 + tagSize) (by unfold tagSize; omega)
    (by unfold tagSize; omega)
  refine ⟨o4, ⟨?_, ?_, fun d l hd => ?_⟩, ?_⟩
  · rw [load_setWord_ne (by unfold tagSize; omega), load_setWord_ne (by omega), load_setWord,
      tagWord_mod (by simp only; omega)]
  · rw [load_setWord_ne (by unfold tagSize; omega), load_setWord, Nat.mod_eq_of_lt (by omega)]
  · rw [load_setWord_ne (by unfold tagSize; omega), load_setWord_ne (by omega),
      load_setWord_ne (by omega), hnext d l hd]
  · refine (e1.mono fun x hx => ?_).trans ((setWord fun x h1 h2 => ?_).trans
      ((setWord fun x h1 h2 => ?_).trans (setWord fun x h1 h2 => ?_)))
    · exact ⟨by have := hx.1; omega, hx.2⟩
    · exact ⟨h1, by omega⟩
    · exact ⟨by omega, by omega⟩
    · unfold tagSize at h1 h2
      exact ⟨by omega, by omega⟩

end Close

/-! ## `kmalloc` -/

section Kmalloc

variable {h : Heap} {l1 l2 : List Cell} {s n : ℕ}

/-- The words of the rest that is cut off an open block of size `s` behind its first `n`
bytes. -/
structure SplitOff (h : Heap) (l₁ : List Cell) (n s : ℕ) (l₂ : List Cell) : Prop where
  /-- the header of the rest -/
  header : h.mem.load (blockAt l₁ + n) = tagWord ⟨s - n, true⟩ false
  /-- the footer of the rest -/
  footer : h.mem.load (blockAt l₁ + s - 4) = s - n
  /-- the flag behind the rest -/
  next : ∀ d l, l₂ = d :: l → h.mem.load (blockAt l₁ + s) = tagWord d true

section

variable (o : Open h l1 s l2) (hn : n % 4 = 0 ∧ 16 ≤ n) (hrest : n + 16 ≤ s)
include o hn hrest

/-- The tags of the rest are written; the block stays open at its full size. -/
theorem markSplit_spec :
    Open (h.markSplit (blockAt l1 + n) (s - n)) l1 s l2 ∧
      SplitOff (h.markSplit (blockAt l1 + n) (s - n)) l1 n s l2 ∧
      Edit (blockBytes l1 s) h (h.markSplit (blockAt l1 + n) (s - n)) := by
  have hlt := o.end_lt
  have hs4 := o.size.1
  have hr4 : (s - n) % 4 = 0 := by omega
  have hrlt : s - n + 4 ≤ 2 ^ 32 := by omega
  have hw : (s - n) ||| blockFlagFree = tagWord ⟨s - n, true⟩ false := by
    have : (s - n) ||| blockFlagFree ||| 2 * Bool.toNat false = tagWord ⟨s - n, true⟩ false :=
      freeHeader_eq hr4
    simpa using this
  have o1 := o.setBody (a := blockAt l1 + n) (tagWord ⟨s - n, true⟩ false) (by omega) (by omega)
  obtain ⟨h2, hflag, o2, e2, hnext⟩ := o1.flagNext
  have hsplit1 : (h.setWord (blockAt l1 + n) (tagWord ⟨s - n, true⟩ false)).mem.load
      (blockAt l1 + n) = tagWord ⟨s - n, true⟩ false := by
    rw [load_setWord, tagWord_mod hrlt]
  have hsplit2 : h2.mem.load (blockAt l1 + n) = tagWord ⟨s - n, true⟩ false := by
    rw [e2.mem.load_eq (fun x h1 h2 hx => by have := hx.1; omega), hsplit1]
  have hend : blockAt l1 + n + (s - n) = blockAt l1 + s := by omega
  have hafter : blockAfter (h.setWord (blockAt l1 + n) (tagWord ⟨s - n, true⟩ false)).mem
      (blockAt l1 + n) = blockAt l1 + s := by
    have hsize : blockSize (h.setWord (blockAt l1 + n) (tagWord ⟨s - n, true⟩ false)).mem
        (blockAt l1 + n) = s - n := blockSize_eq hsplit1 hr4 (by simp only; omega)
    rw [blockAfter, hsize, add32_eq (by omega), hend]
  have hfooter : blockFooter h2.mem (blockAt l1 + n) = blockAt l1 + s - 4 := by
    have hsize : blockSize h2.mem (blockAt l1 + n) = s - n :=
      blockSize_eq hsplit2 hr4 (by simp only; omega)
    rw [blockFooter, hsize, add32_eq (by omega), hend, tagSize, sub32_eq (by omega) (by omega)]
  have hform : h.markSplit (blockAt l1 + n) (s - n) =
      h2.setWord (blockAt l1 + s - 4) (s - n) := by
    unfold markSplit
    simp only [hw, hafter, hflag, hfooter]
  rw [hform]
  refine ⟨o2.setBody _ (by omega) (by omega), ⟨?_, ?_, fun d l hd => ?_⟩, ?_⟩
  · rw [load_setWord_ne (by omega), hsplit2]
  · rw [load_setWord, Nat.mod_eq_of_lt (by omega)]
  · rw [load_setWord_ne (by omega), hnext d l hd]
  · refine (setWord fun x h1 h2 => ?_).trans ((e2.mono fun x hx => ?_).trans
      (setWord fun x h1 h2 => ?_))
    · exact ⟨by omega, by omega⟩
    · exact ⟨by have := hx.1; omega, hx.2⟩
    · exact ⟨by omega, by omega⟩

/-- The block shrinks to its first `n` bytes once the rest is on the free list. -/
theorem Open.shrink {h' : Heap} (w : SplitOff h l1 n s l2) (hright : Coalesced true l2)
    (e : Edit (links ((blockAt l1 + n) :: freeAddrs heapVirtStart l1)) h h')
    (hchain : Seg (nextFree h'.mem) (ptr h'.freeList)
      (freeAddrs heapVirtStart l1 ++ (blockAt l1 + n) :: freeAddrs (blockAt l1 + s) l2) none) :
    Open (h'.setWord (blockAt l1) (tagWord ⟨n, false⟩ (endFree false l1))) l1 n
      (⟨s - n, true⟩ :: l2) := by
  have hlt := o.end_lt
  obtain ⟨hs4, hs⟩ := o.size
  obtain ⟨q, hbehind⟩ := o.behind
  have hend : blockAt l1 + n + (s - n) = blockAt l1 + s := by omega
  -- both kinds of writes together
  set T : Set ℕ := {x | x ∈ payload (fun _ => True) heapVirtStart l1 ∨
    blockAt l1 ≤ x ∧ x < blockAt l1 + 4 ∨ blockAt l1 + n + 4 ≤ x ∧ x < blockAt l1 + n + 8}
  have hT : Mem.SameOff T h.mem
      (h'.setWord (blockAt l1) (tagWord ⟨n, false⟩ (endFree false l1))).mem := by
    refine (e.mem.mono ?_).trans (Mem.SameOff.store fun x h1 h2 => .inr (.inl ⟨h1, h2⟩))
    rintro x ⟨f, hf, hx⟩
    rcases mem_cons.mp hf with rfl | hf
    · exact .inr (.inr hx)
    · exact .inl (links_payload o.sized₁ ⟨f, hf, hx⟩)
  have hlow : ∀ x ∈ T, x < blockAt l1 + 4 ∨ blockAt l1 + n + 4 ≤ x ∧ x < blockAt l1 + n + 8 := by
    rintro x (hx | hx | hx)
    · have := payload_lt hx
      exact .inl (by omega)
    · exact .inl hx.2
    · exact .inr hx
  have hload : ∀ a, blockAt l1 + 4 ≤ a → a + 4 ≤ blockAt l1 + n + 4 ∨ blockAt l1 + n + 8 ≤ a →
      (h'.setWord (blockAt l1) (tagWord ⟨n, false⟩ (endFree false l1))).mem.load a =
        h.mem.load a := fun a h1 h2 =>
    hT.load_eq fun x h3 h4 hx => by
      have := hlow x hx
      omega
  refine ⟨o.sized₁, Sized.cons.mpr ⟨⟨by simp only; omega, by simp only; omega⟩, o.sized₂⟩, hn,
    o.coalesced₁, ⟨by simp, hright⟩, ?_, ⟨false, ?_⟩, ⟨false, ?_, ?_, ?_⟩, ?_, ?_, ?_, ?_⟩
  · refine o.before.sameOff o.sized₁ hT fun x hx => ?_
    rcases hx with hx | hx | hx
    · exact .inr (.inr hx)
    · exact .inr (.inl (by unfold blockAt at hx; omega))
    · exact .inr (.inl (by unfold blockAt at hx; omega))
  · rw [load_setWord, tagWord_mod (by simp only; omega)]
  · rw [hload _ (by omega) (by omega), w.header]
  · simp only [hend]
    rw [hload _ (by omega) (by omega), w.footer]
  · simp only [hend]
    refine hbehind.rehead o.sized₂ hT (fun x hx => ?_) fun d l hd => ?_
    · have := hlow x hx
      exact .inl (by omega)
    · rw [hload _ (by omega) (by omega), w.next d l hd]
  · rw [freeAddrs_cons_free, hend]
    refine hchain.congr fun f hf => ?_
    have hside : f + 8 ≤ blockAt l1 ∨ blockAt l1 + n ≤ f ∧ f + 8 ≤ 2 ^ 32 := by
      rcases mem_append.mp hf with hf | hf
      · have := freeAddr_lt o.sized₁ hf
        exact .inl (by omega)
      · rcases mem_cons.mp hf with rfl | hf
        · exact .inr ⟨Nat.le_refl _, by omega⟩
        · have := freeAddrs_bounds o.sized₂ hf
          exact .inr ⟨by omega, by omega⟩
    unfold nextFree tagSize
    rw [add32_eq (by omega), load_setWord_ne (by omega)]
  · rw [setWord_heapBrk, e.brk, o.brk, span_cons]
    simp only
    omega
  · rw [setWord_heapEnd, setWord_heapBrk, e.fin, e.brk, o.fin]
  · rw [setWord_heapBrk, setWord_frames, e.brk, e.frames]
    exact o.room

/-- **Splitting** an open block of size `s` leaves an open block of size `n` and a free rest. -/
theorem splitBlock_spec (hright : Coalesced true l2) :
    ∃ h', h.splitBlock (blockAt l1) n (s - n) = some h' ∧
      Open h' l1 n (⟨s - n, true⟩ :: l2) ∧ Edit (workArea l1 s) h h' := by
  have hlt := o.end_le
  have hlim := heapLimit_lt
  have hs4 := o.size.1
  obtain ⟨o1, w, e1⟩ := markSplit_spec o hn hrest
  have hend : blockAt l1 + n + (s - n) = blockAt l1 + s := by omega
  have hnodes : Nodes (freeAddrs heapVirtStart l1 ++
      (blockAt l1 + n) :: freeAddrs (blockAt l1 + s) l2) := by
    have hz : Sized (l1 ++ ⟨n, false⟩ :: ⟨s - n, true⟩ :: l2) :=
      Sized.append.mpr ⟨o.sized₁, Sized.cons.mpr ⟨hn,
        Sized.cons.mpr ⟨⟨by simp only; omega, by simp only; omega⟩, o.sized₂⟩⟩⟩
    have := nodes_freeAddrs hz (by rw [blockAt_append]; simp only [span_cons]; omega)
    rw [freeAddrs_append, freeAddrs_cons_used, freeAddrs_cons_free] at this
    rw [← hend]
    exact this
  obtain ⟨h2, hins, hseg, e2⟩ := insertFree_spec o1.chain hnodes
    (fun f hf => by
      have := freeAddr_lt o.sized₁ hf
      omega)
    (fun g hg => by
      have := (freeAddrs_bounds o.sized₂ hg).1
      omega)
  -- the header still has the old flag of the predecessor
  obtain ⟨f, hf⟩ := o1.header
  have hheader : h2.mem.load (blockAt l1) = tagWord ⟨s, f⟩ (endFree false l1) := by
    rw [e2.mem.load_eq, hf]
    rintro x h1 h2 ⟨g, hg, hx⟩
    rcases mem_cons.mp hg with rfl | hg
    · omega
    · have := freeAddr_lt o.sized₁ hg
      omega
  refine ⟨_, ?_, o1.shrink hn hrest w hright e2 hseg, ?_⟩
  · unfold splitBlock
    simp only [add32_eq (show blockAt l1 + n < 2 ^ 32 by omega), hins, Option.bind_eq_bind,
      Option.bind_some, prevFlag_eq hheader hs4, usedHeader_eq hn.1]
    rfl
  · refine (e1.mono (blockBytes_subset l1 s)).trans ((e2.mono
      (links_cons_subset (by omega) (by omega))).trans
      (setWord fun x h1 h2 => .inr ⟨h1, by omega⟩))

end

/-- What is left of a free block of size `s` when `n` bytes of it are taken. -/
def carved (s n : ℕ) : List Cell :=
  if n + minBlockSize ≤ s then [⟨n, false⟩, ⟨s - n, true⟩] else [⟨s, false⟩]

/-- `carve` once the block is off the list. -/
theorem carve_eq {h1 : Heap} {b : ℕ} (hrem : h.removeFree b = some h1) :
    h.carve b n =
      (if minBlockSize ≤ sub32 (blockSize h1.mem b) n then
        h1.splitBlock b n (sub32 (blockSize h1.mem b) n) else some h1) >>=
        fun h => pure (blockPayload b, h.markUsed b) :=
  bind_of_some hrem _

/-- **Taking a free block**: `n` bytes of it, or all of it when the rest is too small. -/
theorem carve_spec (r : Rep h (l1 ++ ⟨s, true⟩ :: l2)) (hn : n % 4 = 0 ∧ 16 ≤ n)
    (hfit : n ≤ s) :
    ∃ h', h.carve (blockAt l1) n = some (blockAt l1 + 4, h') ∧
      Rep h' (l1 ++ (carved s n ++ l2)) ∧ Edit (workArea l1 s) h h' := by
  obtain ⟨h1, hrem, o, e1, hsame⟩ := r.open_free
  have hlt := o.end_lt
  have hright : Coalesced true l2 := (coalesced_append.mp r.coalesced).2.2
  have hsub : sub32 s n = s - n := sub32_eq (by omega) hfit
  have hpay : blockPayload (blockAt l1) = blockAt l1 + 4 := by
    rw [blockPayload, tagSize, add32_eq (by omega)]
  have e1' := e1.mono (links_subset l1 s)
  rw [carve_eq hrem, o.blockSize, hsub, hpay, carved, minBlockSize]
  by_cases hrest : n + 16 ≤ s
  · obtain ⟨h2, hsplit, o2, e2⟩ := splitBlock_spec o hn hrest hright
    obtain ⟨r3, e3⟩ := markUsed_spec o2
    have e3' : Edit (workArea l1 s) h2 (h2.markUsed (blockAt l1)) := by
      refine e3.mono fun x hx => .inr ⟨hx.1, ?_⟩
      have := hx.2
      omega
    rw [if_pos (show 16 ≤ s - n by omega), bind_of_some hsplit, if_pos hrest]
    exact ⟨h2.markUsed (blockAt l1), rfl, r3, e1'.trans (e2.trans e3')⟩
  · obtain ⟨r3, e3⟩ := markUsed_spec o
    rw [if_neg (show ¬ 16 ≤ s - n by omega), bind_of_some rfl, if_neg hrest]
    exact ⟨h1.markUsed (blockAt l1), rfl, r3, e1'.trans (e3.mono (blockBytes_subset l1 s))⟩

/-- **First fit**: the search returns the lowest free block that is large enough, or there is
none. -/
theorem findFit_first {cs : List Cell} (r : Rep h cs) (n : ℕ) :
    (∃ l1 s l2, cs = l1 ++ ⟨s, true⟩ :: l2 ∧ n ≤ s ∧
        (∀ c ∈ l1, c.free = true → c.size < n) ∧ h.findFit n = some (some (blockAt l1))) ∨
      ((∀ c ∈ cs, c.free = true → c.size < n) ∧ h.findFit n = some none) := by
  obtain ⟨fs, gs, hsplit, hno, hstop⟩ := exists_walk_split
    (fun fb => decide (n ≤ blockSize h.mem fb)) (freeAddrs heapVirtStart cs)
  have hnodes := nodes_freeAddrs r.sized (r.brk ▸ r.brk_le)
  have hwalk : walk (nextFree h.mem) (fun fb => decide (n ≤ blockSize h.mem fb)) listFuel none
      (ptr h.freeList) = some (fs.getLast?.or none, gs.head?) := by
    refine walk_seg _ (hsplit ▸ r.chain) hno hstop (Nat.lt_of_le_of_lt ?_ hnodes.short)
    rw [hsplit, length_append]
    exact Nat.le_add_right _ _
  have hfit : h.findFit n = some gs.head? := by
    unfold findFit
    rw [hwalk]
    rfl
  -- a block the walk passed is too small
  have hsmall : ∀ l1 c l2, cs = l1 ++ c :: l2 → blockAt l1 ∈ fs → c.size < n := by
    intro l1 c l2 hcs hmem
    have := hno _ hmem
    subst hcs
    rw [r.blockSize] at this
    simpa using this
  have haddr : ∀ l1 c l2, cs = l1 ++ c :: l2 → c.free = true →
      blockAt l1 ∈ freeAddrs heapVirtStart cs := by
    intro l1 c l2 hcs hfree
    rw [hcs, freeAddrs_append, freeAddrs_cons, if_pos hfree]
    exact mem_append_right _ mem_cons_self
  rw [hfit]
  cases gs with
  | nil =>
    rw [append_nil] at hsplit
    refine .inr ⟨fun c hc hfree => ?_, rfl⟩
    obtain ⟨l1, l2, hcs⟩ := append_of_mem hc
    exact hsmall l1 c l2 hcs (hsplit ▸ haddr l1 c l2 hcs hfree)
  | cons b gs =>
    have hb : b ∈ freeAddrs heapVirtStart cs := by simp [hsplit]
    have hsorted := freeAddrs_sorted heapVirtStart r.sized
    rw [hsplit] at hsorted
    obtain ⟨l1, s, l2, hcs, rfl⟩ := mem_freeAddrs hb
    have hlarge := hstop _ rfl
    refine .inl ⟨l1, s, l2, hcs, ?_, fun c hc hfree => ?_, rfl⟩
    · change decide (n ≤ blockSize h.mem (blockAt l1)) = true at hlarge
      subst hcs
      rw [r.blockSize] at hlarge
      exact of_decide_eq_true hlarge
    · -- the list is sorted, so what lies below the block found was passed before it
      obtain ⟨l3, l4, rfl⟩ := append_of_mem hc
      have hcs' : cs = l3 ++ c :: (l4 ++ ⟨s, true⟩ :: l2) := by rw [hcs]; simp
      have hmem := haddr l3 c _ hcs' hfree
      have hsize := (r.sized c (by rw [hcs']; simp)).2
      have hbelow : blockAt l3 < heapVirtStart + span (l3 ++ c :: l4) := by
        rw [blockAt, span_append, span_cons]
        omega
      rw [hsplit] at hmem
      rcases mem_append.mp hmem with hfs | hgs
      · exact hsmall l3 c _ hcs' hfs
      · have hhead := (pairwise_cons.mp (pairwise_append.mp hsorted).2.1).1
        rcases mem_cons.mp hgs with heq | hgs
        · omega
        · have := hhead _ hgs
          omega

/-- The search returns a free block that is large enough, or there is none. -/
theorem findFit_spec {cs : List Cell} (r : Rep h cs) (n : ℕ) :
    (∃ l1 s l2, cs = l1 ++ ⟨s, true⟩ :: l2 ∧ n ≤ s ∧ h.findFit n = some (some (blockAt l1))) ∨
      ((∀ c ∈ cs, c.free = true → c.size < n) ∧ h.findFit n = some none) :=
  (findFit_first r n).imp_left fun ⟨l1, s, l2, hcs, hle, _, hfit⟩ => ⟨l1, s, l2, hcs, hle, hfit⟩

end Kmalloc

end PokuOS

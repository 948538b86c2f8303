import PokuOS.HeapList

/-!
# The heap represents a tiling

`Rep h cs`: the words of `h` are the boundary tags and the free list of the cells `cs`. Each
operation of the allocator takes one represented heap to another; what it does to the cells
is its specification.

Between the two the invariant is broken at exactly one block: it is off the free list, its
header has a size, but its flags, its footer and its successor's `PREV_FREE` bit are still
to be written. `Open h l₁ t l₂` is that state, for a block of size `t` between the cells `l₁`
and `l₂`. Taking a block off the list opens it; splitting it, and merging it with a
neighbour, go from one open block to another; the writes at the end of `kmalloc`, `kfree` and
`grow_heap` close it (`Open.tagged`).
-/

namespace PokuOS

open Heap Sized

/-- The end of the address range the heap can reach: the initial pages and every frame of the
machine. -/
def heapLimit : ℕ := heapVirtStart + (heapInitPages + numPages) * pageSize

/-- The frames still to be granted. -/
def FrameSupply.granted (s : FrameSupply) : ℕ := s.answers.countP Option.isSome

/-- The first address of the block behind the cells `l`. -/
def blockAt (l : List Cell) : ℕ := heapVirtStart + span l

/-- The heap's words are the tags and the free list of `cs`. -/
structure Rep (h : Heap) (cs : List Cell) : Prop where
  /-- the region is never empty -/
  nonempty : cs ≠ []
  /-- sizes are multiples of 4 and at least 16 -/
  sized : Sized cs
  /-- neighbours are not both free -/
  coalesced : Coalesced false cs
  /-- headers and footers -/
  tagged : Tagged h.mem heapVirtStart false cs
  /-- the free list threads the free cells in address order -/
  chain : Seg (nextFree h.mem) (ptr h.freeList) (freeAddrs heapVirtStart cs) none
  /-- the cells tile the region -/
  brk : h.heapBrk = blockAt cs
  /-- both ends agree -/
  fin : h.heapEnd = h.heapBrk
  /-- the frames still to come fit below the limit -/
  room : h.heapBrk + h.frames.granted * pageSize ≤ heapLimit

/-- A block of size `t` between `l₁` and `l₂` is being rewritten. -/
structure Open (h : Heap) (l₁ : List Cell) (t : ℕ) (l₂ : List Cell) : Prop where
  /-- sizes before the block -/
  sized₁ : Sized l₁
  /-- sizes behind the block -/
  sized₂ : Sized l₂
  /-- the block's size -/
  size : t % 4 = 0 ∧ 16 ≤ t
  /-- neighbours before the block are not both free -/
  coalesced₁ : Coalesced false l₁
  /-- neighbours behind the block are not both free -/
  coalesced₂ : Coalesced false l₂
  /-- tags before the block -/
  before : Tagged h.mem heapVirtStart false l₁
  /-- the block's header has its size, and its predecessor's flag -/
  header : ∃ f, h.mem.load (blockAt l₁) = tagWord ⟨t, f⟩ (endFree false l₁)
  /-- tags behind the block, whatever the flag says the block is -/
  behind : ∃ q, Tagged h.mem (blockAt l₁ + t) q l₂
  /-- the block is not on the free list -/
  chain : Seg (nextFree h.mem) (ptr h.freeList)
    (freeAddrs heapVirtStart l₁ ++ freeAddrs (blockAt l₁ + t) l₂) none
  /-- block and cells tile the region -/
  brk : h.heapBrk = blockAt l₁ + t + span l₂
  /-- both ends agree -/
  fin : h.heapEnd = h.heapBrk
  /-- the frames still to come fit below the limit -/
  room : h.heapBrk + h.frames.granted * pageSize ≤ heapLimit

/-! ## Bounds -/

theorem heapLimit_lt : heapLimit < 0xFE000000 := by decide

theorem heapVirtStart_mod : heapVirtStart % 4 = 0 := by decide

theorem heapVirtStart_pos : 0 < heapVirtStart := by decide

theorem Rep.brk_le {h : Heap} {cs : List Cell} (r : Rep h cs) : h.heapBrk ≤ heapLimit :=
  (Nat.le_add_right _ _).trans r.room

theorem Open.brk_le {h : Heap} {l1 l2 : List Cell} {t : ℕ} (o : Open h l1 t l2) :
    h.heapBrk ≤ heapLimit :=
  (Nat.le_add_right _ _).trans o.room

theorem blockAt_mod {l : List Cell} (h : Sized l) : blockAt l % 4 = 0 := by
  have := h.span_mod
  have := heapVirtStart_mod
  unfold blockAt
  omega

theorem blockAt_append (l1 l2 : List Cell) : blockAt (l1 ++ l2) = blockAt l1 + span l2 := by
  simp only [blockAt, span_append, Nat.add_assoc]

theorem start_le_blockAt (l : List Cell) : heapVirtStart ≤ blockAt l := Nat.le_add_right _ _

theorem freeAddr_lt {l : List Cell} {f : ℕ} (hz : Sized l) (hf : f ∈ freeAddrs heapVirtStart l) :
    f + 16 ≤ blockAt l := (freeAddrs_bounds hz hf).2.1

theorem payload_lt {sel : Cell → Prop} {l : List Cell} {x : ℕ}
    (hx : x ∈ payload sel heapVirtStart l) : x + 4 < blockAt l := (payload_bounds hx).2

/-- Link words of free cells are in their payloads. -/
theorem links_payload {l : List Cell} {a x : ℕ} (hz : Sized l) (hx : x ∈ links (freeAddrs a l)) :
    x ∈ payload (fun _ => True) a l :=
  payload_mono (fun _ _ => trivial) _ _ (links_freeAddrs_subset hz hx)

theorem blockInHeap_of_le {h : Heap} {b : ℕ} (hfin : h.heapEnd = h.heapBrk)
    (hstart : heapVirtStart ≤ b) (hend : b + 4 ≤ h.heapBrk) (hlt : b + 4 < 2 ^ 32) :
    h.blockInHeap b = true := by
  unfold blockInHeap tagSize
  rw [hfin, add32_eq hlt, Bool.and_eq_true, decide_eq_true_eq, decide_eq_true_eq]
  exact ⟨hstart, hend⟩

/-- The free cells of a tiling that ends in reach are proper list nodes. -/
theorem nodes_freeAddrs {cs : List Cell} (hz : Sized cs) (hlt : blockAt cs ≤ heapLimit) :
    Nodes (freeAddrs heapVirtStart cs) := by
  have hlim := heapLimit_lt
  have hpos := heapVirtStart_pos
  have hmod := heapVirtStart_mod
  have hlen := (length_freeAddrs_le heapVirtStart cs).trans
    (Nat.le_mul_of_pos_left cs.length (show 0 < 16 by decide))
  have := hz.length_le
  unfold blockAt at hlt
  refine ⟨by unfold listFuel; omega, fun f hf => ?_, fun f hf => ?_, fun f hf => ?_⟩
  · have := (freeAddrs_bounds hz hf).1
    omega
  · exact (freeAddrs_bounds hz hf).2.2 hmod
  · have := (freeAddrs_bounds hz hf).2.1
    omega

theorem Rep.blockSize {h : Heap} {l1 l2 : List Cell} {c : Cell} (r : Rep h (l1 ++ c :: l2)) :
    blockSize h.mem (blockAt l1) = c.size := by
  obtain ⟨-, hz⟩ := append.mp r.sized
  obtain ⟨⟨hc, -⟩, -⟩ := cons.mp hz
  have hlt := r.brk ▸ r.brk_le
  have hlim := heapLimit_lt
  rw [blockAt_append, span_cons] at hlt
  exact blockSize_eq (tagged_append.mp r.tagged).2.1 hc (by omega)

/-! ## Opening and closing -/

section OpenClose

variable {h h' : Heap} {l1 l2 : List Cell} {s t : ℕ}

/-- A used block can be opened as it stands. -/
theorem Rep.open_used (r : Rep h (l1 ++ ⟨s, false⟩ :: l2)) : Open h l1 s l2 := by
  obtain ⟨hz1, hz⟩ := append.mp r.sized
  obtain ⟨hs, hz2⟩ := cons.mp hz
  obtain ⟨hc1, -, hc2⟩ := coalesced_append.mp r.coalesced
  obtain ⟨ht1, hh, -, ht2⟩ := tagged_append.mp r.tagged
  have hchain := r.chain
  rw [freeAddrs_append, freeAddrs_cons_used] at hchain
  refine ⟨hz1, hz2, hs, hc1, hc2, ht1, ⟨_, hh⟩, ⟨_, ht2⟩, hchain, ?_, r.fin, r.room⟩
  rw [r.brk, blockAt_append, span_cons, Nat.add_assoc]

/-- `remove_free` opens a free block. -/
theorem Rep.open_free (r : Rep h (l1 ++ ⟨s, true⟩ :: l2)) :
    ∃ h', h.removeFree (blockAt l1) = some h' ∧ Open h' l1 s l2 ∧
      Edit (links (freeAddrs heapVirtStart l1)) h h' ∧
      h'.mem.load (blockAt l1) = h.mem.load (blockAt l1) := by
  obtain ⟨hz1, hz⟩ := append.mp r.sized
  obtain ⟨hs, hz2⟩ := cons.mp hz
  obtain ⟨hc1, -, hc2⟩ := coalesced_append.mp r.coalesced
  obtain ⟨ht1, hh, -, ht2⟩ := tagged_append.mp r.tagged
  have hchain := r.chain
  rw [freeAddrs_append, freeAddrs_cons_free] at hchain
  have hnodes := nodes_freeAddrs r.sized (r.brk ▸ r.brk_le)
  rw [freeAddrs_append, freeAddrs_cons_free] at hnodes
  obtain ⟨h', hrem, hseg, he⟩ := removeFree_spec hchain hnodes
  have hload : h'.mem.load (blockAt l1) = h.mem.load (blockAt l1) :=
    he.mem.load_eq fun x h1 _ hx => by
      have := payload_lt (links_payload hz1 hx)
      omega
  refine ⟨h', hrem, ⟨hz1, hz2, hs, hc1, hc2.weaken, ?_, ⟨true, ?_⟩, ⟨true, ?_⟩, ?_,
    ?_, ?_, ?_⟩, he, hload⟩
  · exact ht1.sameOff hz1 he.mem fun x hx => .inr (.inr (links_payload hz1 hx))
  · rw [hload]
    exact hh
  · exact ht2.sameOff hz2 he.mem fun x hx => .inl (by
      have : x + 4 < blockAt l1 := payload_lt (links_payload hz1 hx)
      unfold blockAt at this
      omega)
  · exact hseg
  · rw [he.brk, r.brk, blockAt_append, span_cons, Nat.add_assoc]
  · rw [he.fin, he.brk, r.fin]
  · rw [he.brk, he.frames]
    exact r.room

variable (o : Open h l1 t l2)
include o

/-- The end of an open block is in reach. -/
theorem Open.end_le : blockAt l1 + t + span l2 ≤ heapLimit :=
  o.brk ▸ o.brk_le

theorem Open.end_lt : blockAt l1 + t + span l2 < 0xFE000000 :=
  o.end_le.trans_lt heapLimit_lt

/-- The free blocks on both sides are proper list nodes, with the open block or without. -/
theorem Open.nodes :
    Nodes (freeAddrs heapVirtStart l1 ++ blockAt l1 :: freeAddrs (blockAt l1 + t) l2) := by
  have hz : Sized (l1 ++ ⟨t, true⟩ :: l2) :=
    append.mpr ⟨o.sized₁, cons.mpr ⟨o.size, o.sized₂⟩⟩
  have hlt : blockAt (l1 ++ ⟨t, true⟩ :: l2) ≤ heapLimit := by
    rw [blockAt_append, span_cons, ← Nat.add_assoc]
    exact o.end_le
  have := nodes_freeAddrs hz hlt
  rw [freeAddrs_append, freeAddrs_cons_free] at this
  exact this

/-- Whether a block follows is what `block_in_heap` tests. -/
theorem Open.inHeap_next : h.blockInHeap (blockAt l1 + t) = true ↔ l2 ≠ [] := by
  have hend := o.end_lt
  have hstart := start_le_blockAt l1
  cases l2 with
  | nil =>
    unfold blockInHeap tagSize
    rw [o.fin, o.brk, add32_eq (by omega)]
    simp
  | cons d l =>
    have := (cons.mp o.sized₂).1.2
    rw [span_cons] at hend
    refine ⟨fun _ => List.cons_ne_nil d l, fun _ => ?_⟩
    refine blockInHeap_of_le o.fin (by omega) ?_ (by omega)
    rw [o.brk, span_cons]
    omega

/-- **Writes that keep a block open**: anywhere in the block and in its successor's header, as
long as both headers keep their sizes. -/
theorem Open.edit {S : Set ℕ} (e : Edit S h h') (hlist : h'.freeList = h.freeList)
    (hS : ∀ x ∈ S, blockAt l1 ≤ x ∧ x < blockAt l1 + t + 4)
    (hheader : ∃ f, h'.mem.load (blockAt l1) = tagWord ⟨t, f⟩ (endFree false l1))
    (hnext : ∃ q, ∀ d l, l2 = d :: l → h'.mem.load (blockAt l1 + t) = tagWord d q) :
    Open h' l1 t l2 := by
  obtain ⟨q, hb⟩ := o.behind
  obtain ⟨q', hnext⟩ := hnext
  refine ⟨o.sized₁, o.sized₂, o.size, o.coalesced₁, o.coalesced₂, ?_, hheader, ⟨q', ?_⟩, ?_,
    ?_, ?_, ?_⟩
  · exact o.before.sameOff o.sized₁ e.mem fun x hx => .inr (.inl (hS x hx).1)
  · exact hb.rehead o.sized₂ e.mem (fun x hx => .inl (hS x hx).2) hnext
  · -- link words lie in payloads on either side
    rw [hlist]
    refine o.chain.congr fun f hf => ?_
    have hnode := o.nodes.below f (by
      rcases List.mem_append.mp hf with hf | hf <;> simp [hf])
    unfold nextFree tagSize
    rw [add32_eq (by omega), e.mem.load_eq]
    intro x h1 h2 hx
    have hx := hS x hx
    rcases List.mem_append.mp hf with hf | hf
    · have := freeAddr_lt o.sized₁ hf
      omega
    · have := (freeAddrs_bounds o.sized₂ hf).1
      omega
  · rw [e.brk, o.brk]
  · rw [e.fin, e.brk, o.fin]
  · rw [e.brk, e.frames]
    exact o.room

/-- The successor's header, whatever the flags. -/
theorem Open.next_header : ∃ q, ∀ d l, l2 = d :: l → h.mem.load (blockAt l1 + t) = tagWord d q := by
  obtain ⟨q, hb⟩ := o.behind
  refine ⟨q, ?_⟩
  rintro d l rfl
  exact hb.1

theorem Open.blockSize : blockSize h.mem (blockAt l1) = t := by
  obtain ⟨f, hf⟩ := o.header
  have := o.end_lt
  exact blockSize_eq hf o.size.1 (by simp only; omega)

theorem Open.blockAfter : blockAfter h.mem (blockAt l1) = blockAt l1 + t := by
  have := o.end_lt
  rw [PokuOS.blockAfter, o.blockSize, add32_eq (by omega)]

theorem Open.blockFooter : blockFooter h.mem (blockAt l1) = blockAt l1 + t - 4 := by
  have := o.end_lt
  have := o.size.2
  rw [PokuOS.blockFooter, o.blockSize, add32_eq (by omega), tagSize,
    sub32_eq (by omega) (by omega)]

/-! ### Single writes -/

omit o in
theorem tagWord_mod {c : Cell} (hlt : c.size + 4 ≤ 2 ^ 32) (pf : Bool) :
    tagWord c pf % 2 ^ 32 = tagWord c pf := by
  have := flags_lt c pf
  unfold tagWord
  omega

theorem Open.setHeader (f : Bool) :
    Open (h.setWord (blockAt l1) (tagWord ⟨t, f⟩ (endFree false l1))) l1 t l2 := by
  obtain ⟨q, hnext⟩ := o.next_header
  have hlt := o.end_lt
  have ht := o.size.2
  refine o.edit (S := {x | blockAt l1 ≤ x ∧ x < blockAt l1 + 4})
    (Edit.setWord fun x h1 h2 => ⟨h1, h2⟩) rfl (fun x hx => ⟨hx.1, by have := hx.2; omega⟩)
    ⟨f, ?_⟩ ⟨q, fun d l hd => ?_⟩
  · rw [load_setWord, tagWord_mod (by simp only; omega)]
  · rw [load_setWord_ne (by omega), hnext d l hd]

theorem Open.setBody {a : ℕ} (v : ℕ) (h1 : blockAt l1 + 4 ≤ a)
    (h2 : a + 4 ≤ blockAt l1 + t) : Open (h.setWord a v) l1 t l2 := by
  obtain ⟨f, hf⟩ := o.header
  obtain ⟨q, hnext⟩ := o.next_header
  refine o.edit (S := {x | a ≤ x ∧ x < a + 4}) (Edit.setWord fun x h1 h2 => ⟨h1, h2⟩) rfl
    (fun x hx => ⟨by have := hx.1; omega, by have := hx.2; omega⟩) ⟨f, ?_⟩
    ⟨q, fun d l hd => ?_⟩
  · rw [load_setWord_ne (by omega), hf]
  · rw [load_setWord_ne (by omega), hnext d l hd]

omit o in
theorem Open.setNext {d : Cell} {l : List Cell} (o : Open h l1 t (d :: l)) (q : Bool) :
    Open (h.setWord (blockAt l1 + t) (tagWord d q)) l1 t (d :: l) := by
  obtain ⟨f, hf⟩ := o.header
  have hlt := o.end_lt
  have ht := o.size.2
  refine o.edit (S := {x | blockAt l1 + t ≤ x ∧ x < blockAt l1 + t + 4})
    (Edit.setWord fun x h1 h2 => ⟨h1, h2⟩) rfl (fun x hx => ⟨by have := hx.1; omega, hx.2⟩)
    ⟨f, ?_⟩ ⟨q, fun d' l' hd => ?_⟩
  · rw [load_setWord_ne (by omega), hf]
  · obtain ⟨rfl, rfl⟩ := List.cons.inj hd
    rw [span_cons] at hlt
    rw [load_setWord, tagWord_mod (by omega)]

/-! ### Closing -/

omit o in
/-- The three words a block has to agree on before it is closed as free (`v`) or used. -/
structure Settled (v : Bool) (h : Heap) (l₁ : List Cell) (t : ℕ) (l₂ : List Cell) : Prop where
  /-- the block's header -/
  header : h.mem.load (blockAt l₁) = tagWord ⟨t, v⟩ (endFree false l₁)
  /-- the block's footer -/
  footer : h.mem.load (blockAt l₁ + t - 4) = t
  /-- the successor's flag -/
  next : ∀ d l, l₂ = d :: l → h.mem.load (blockAt l₁ + t) = tagWord d v

theorem Open.tagged {v : Bool} (w : Settled v h l1 t l2) :
    Tagged h.mem heapVirtStart false (l1 ++ ⟨t, v⟩ :: l2) := by
  obtain ⟨q, hb⟩ := o.behind
  exact tagged_append.mpr ⟨o.before, w.header, w.footer,
    hb.rehead o.sized₂ (Mem.SameOff.refl ∅ _) (fun _ hx => hx.elim) w.next⟩

theorem Open.sized {v : Bool} : Sized (l1 ++ ⟨t, v⟩ :: l2) :=
  append.mpr ⟨o.sized₁, cons.mpr ⟨o.size, o.sized₂⟩⟩

theorem Open.brk_eq {v : Bool} : h.heapBrk = blockAt (l1 ++ ⟨t, v⟩ :: l2) := by
  rw [o.brk, blockAt_append, span_cons, Nat.add_assoc]

/-- **A settled block closes as used.** -/
theorem Open.close_used (w : Settled false h l1 t l2) : Rep h (l1 ++ ⟨t, false⟩ :: l2) where
  nonempty := by simp
  sized := o.sized
  coalesced := coalesced_append.mpr ⟨o.coalesced₁, fun hc => Bool.false_ne_true hc.2,
    o.coalesced₂⟩
  tagged := o.tagged w
  chain := by
    rw [freeAddrs_append, freeAddrs_cons_used]
    exact o.chain
  brk := o.brk_eq
  fin := o.fin
  room := o.room

/-- **A settled block closes as free** with `insert_free`, when no neighbour is free. -/
theorem Open.close_free (w : Settled true h l1 t l2)
    (hleft : endFree false l1 = false) (hright : ∀ d l, l2 = d :: l → d.free = false) :
    ∃ h', h.insertFree (blockAt l1) = some h' ∧ Rep h' (l1 ++ ⟨t, true⟩ :: l2) ∧
      Edit (links (blockAt l1 :: freeAddrs heapVirtStart l1)) h h' := by
  have hz : Sized (l1 ++ ⟨t, true⟩ :: l2) := o.sized
  have ht := o.size.2
  obtain ⟨h', hins, hseg, he⟩ := insertFree_spec o.chain o.nodes
    (fun f hf => by
      have := freeAddr_lt o.sized₁ hf
      omega)
    (fun g hg => by
      have := (freeAddrs_bounds o.sized₂ hg).1
      omega)
  have hlist : freeAddrs heapVirtStart (l1 ++ ⟨t, true⟩ :: l2) =
      freeAddrs heapVirtStart l1 ++ blockAt l1 :: freeAddrs (blockAt l1 + t) l2 := by
    rw [freeAddrs_append, freeAddrs_cons_free]
    rfl
  -- the link words written are those of free cells
  have hlinks : ∀ x ∈ links (blockAt l1 :: freeAddrs heapVirtStart l1),
      x ∈ payload (fun _ => True) heapVirtStart (l1 ++ ⟨t, true⟩ :: l2) := fun x hx => by
    refine links_payload hz (links_mono (fun f hf => ?_) hx)
    rw [hlist]
    rcases List.mem_cons.mp hf with rfl | hf
    · simp
    · simp [hf]
  refine ⟨h', hins, ⟨by simp, hz, ?_, ?_, ?_, ?_, ?_, ?_⟩, he⟩
  · refine coalesced_append.mpr ⟨o.coalesced₁, fun hc => ?_, o.coalesced₂.to_true hright⟩
    rw [hleft] at hc
    exact Bool.false_ne_true hc.1
  · exact (o.tagged w).sameOff hz he.mem fun x hx => .inr (.inr (hlinks x hx))
  · rw [hlist]
    exact hseg
  · rw [he.brk]
    exact o.brk_eq
  · rw [he.fin, he.brk, o.fin]
  · rw [he.brk, he.frames]
    exact o.room

end OpenClose

end PokuOS

import PokuOS.HeapOps

/-!
# Giving blocks back

`kfree` merges the block with the free neighbours it has, left before right, and puts the
result on the free list. The block stays open through both merges (`Open.absorb`); after
them neither neighbour is free, so it can be closed.
-/

namespace PokuOS

open Heap

variable {h : Heap} {l1 l2 : List Cell} {t : ℕ}

theorem workArea_mono (l : List Cell) {s t : ℕ} (hst : s ≤ t) : workArea l s ⊆ workArea l t := by
  rintro x (hx | ⟨h1, h2⟩)
  · exact .inl hx
  · exact .inr ⟨h1, by omega⟩

/-- **Merging**: an open block takes over its successor, which is off the free list, by
writing the sum of the sizes into its header. -/
theorem Open.absorb {h' : Heap} {c : Cell} (o : Open h l1 t (c :: l2))
    (e : Edit (links (freeAddrs heapVirtStart l1)) h h')
    (hchain : Seg (nextFree h'.mem) (ptr h'.freeList)
      (freeAddrs heapVirtStart l1 ++ freeAddrs (blockAt l1 + (t + c.size)) l2) none) :
    Open (h'.setWord (blockAt l1) (tagWord ⟨t + c.size, true⟩ (endFree false l1))) l1
      (t + c.size) l2 := by
  have hlt := o.end_lt
  obtain ⟨ht4, ht⟩ := o.size
  obtain ⟨⟨hc4, hc⟩, hz2⟩ := Sized.cons.mp o.sized₂
  obtain ⟨q, -, -, hbehind⟩ := o.behind
  rw [span_cons] at hlt
  -- everything written is below the block's second word
  have hS : Mem.SameOff {x | x ∈ payload (fun _ => True) heapVirtStart l1 ∨
      blockAt l1 ≤ x ∧ x < blockAt l1 + 4} h.mem
      (h'.setWord (blockAt l1) (tagWord ⟨t + c.size, true⟩ (endFree false l1))).mem := by
    refine (e.mem.mono fun x hx => .inl ?_).trans
      (Mem.SameOff.store fun x h1 h2 => .inr ⟨h1, h2⟩)
    exact links_payload o.sized₁ hx
  refine ⟨o.sized₁, hz2, ⟨by omega, by omega⟩, o.coalesced₁, o.coalesced₂.2.weaken, ?_,
    ⟨true, ?_⟩, ⟨c.free, ?_⟩, ?_, ?_, ?_, ?_⟩
  · refine o.before.sameOff o.sized₁ hS fun x hx => ?_
    rcases hx with hx | hx
    · exact .inr (.inr hx)
    · exact .inr (.inl hx.1)
  · rw [load_setWord, tagWord_mod (by simp only; omega)]
  · rw [← Nat.add_assoc]
    refine hbehind.sameOff hz2 hS fun x hx => .inl ?_
    rcases hx with hx | hx
    · have := payload_lt hx
      omega
    · omega
  · refine hchain.congr fun f hf => ?_
    have hside : f + 8 ≤ blockAt l1 ∨ blockAt l1 + 4 ≤ f ∧ f + 8 ≤ 2 ^ 32 := by
      rcases List.mem_append.mp hf with hf | hf
      · have := freeAddr_lt o.sized₁ hf
        exact .inl (by omega)
      · have := freeAddrs_bounds hz2 hf
        exact .inr ⟨by omega, by omega⟩
    unfold nextFree tagSize
    rw [add32_eq (by omega), load_setWord_ne (by omega)]
  · rw [setWord_heapBrk, e.brk, o.brk, span_cons]
    omega
  · rw [setWord_heapEnd, setWord_heapBrk, e.fin, e.brk, o.fin]
  · rw [setWord_heapBrk, setWord_frames, e.brk, e.frames]
    exact o.room

theorem endFree_eq_true {l : List Cell} (h : endFree false l = true) :
    ∃ l' u, l = l' ++ [⟨u, true⟩] := by
  rcases List.eq_nil_or_concat' l with rfl | ⟨l', ⟨u, f⟩, rfl⟩
  · exact absurd h Bool.false_ne_true
  · rw [endFree_append] at h
    obtain rfl : f = true := h
    exact ⟨l', u, rfl⟩

/-- **Merging to the left.** Afterwards the block before is not free. -/
theorem mergeLeft_spec (r : Rep h (l1 ++ ⟨t, false⟩ :: l2)) :
    ∃ l u h', h.mergeLeft (blockAt l1) = some (blockAt l, h') ∧ Open h' l u l2 ∧
      endFree false l = false ∧ Edit (workArea l u) h h' ∧
      ((l1 = l ∧ u = t) ∨ ∃ v, l1 = l ++ [⟨v, true⟩] ∧ u = v + t) := by
  have o := r.open_used
  obtain ⟨ht4, ht⟩ := o.size
  have hlt := o.end_lt
  have hheader : h.mem.load (blockAt l1) = tagWord ⟨t, false⟩ (endFree false l1) :=
    (tagged_append.mp r.tagged).2.1
  have hflag := prevFlag_eq hheader ht4
  unfold mergeLeft
  rw [hflag]
  by_cases hend : endFree false l1 = true
  · -- the block before is free and swallows this one
    obtain ⟨l, v, rfl⟩ := endFree_eq_true hend
    have r' : Rep h (l ++ ⟨v, true⟩ :: ⟨t, false⟩ :: l2) := by
      rw [List.append_assoc] at r
      exact r
    obtain ⟨h1, hrem, o1, e1, -⟩ := r'.open_free
    obtain ⟨hv4, hv⟩ := o1.size
    have hstart := start_le_blockAt l
    have hat : blockAt (l ++ [⟨v, true⟩]) = blockAt l + v := by
      rw [blockAt_append, span_cons, span_nil, Nat.add_zero]
    rw [hat] at hlt hheader
    have hfoot : h.mem.load (sub32 (blockAt l + v) tagSize) = v := by
      rw [tagSize, sub32_eq (by omega) (by omega)]
      exact (tagged_append.mp r'.tagged).2.2.1
    have hprev : sub32 (blockAt l + v) v = blockAt l := by
      rw [sub32_eq (by omega) (by omega)]
      omega
    have hin : h.blockInHeap (blockAt l) = true :=
      blockInHeap_of_le r.fin hstart (by rw [o.brk, hat]; omega) (by omega)
    have hsize : blockSize h1.mem (blockAt l + v) = t := by
      obtain ⟨q, hq⟩ := o1.next_header
      exact blockSize_eq (hq _ _ rfl) ht4 (by simp only; omega)
    obtain ⟨f, hf⟩ := o1.header
    have hword := mergedHeader_eq hf hv4 ht4 (by simp only; omega)
    have hchain := o1.chain
    rw [freeAddrs_cons_used, Nat.add_assoc] at hchain
    refine ⟨l, v + t, _, ?_, o1.absorb (Edit.refl _ h1) hchain, ?_, ?_, .inr ⟨v, rfl, rfl⟩⟩
    · rw [hend, if_neg (by decide), hat]
      simp only [hfoot, hprev]
      rw [if_pos ⟨hin, add32_eq (by omega)⟩, bind_of_some hrem, hsize, hword]
      rfl
    · have := (coalesced_append.mp r'.coalesced).2.1
      simpa using this
    · exact (e1.mono (links_subset _ _)).trans (Edit.setWord fun x h1 h2 =>
        .inr ⟨h1, by omega⟩)
  · -- nothing to merge with
    have hend : endFree false l1 = false := by simpa using hend
    refine ⟨l1, t, h, ?_, o, hend, Edit.refl _ h, .inl ⟨rfl, rfl⟩⟩
    rw [hend]
    rfl

/-- **Merging to the right.** Afterwards the block behind is not free. -/
theorem mergeRight_spec (o : Open h l1 t l2) :
    ∃ u l h', h.mergeRight (blockAt l1) = some h' ∧ Open h' l1 u l ∧ t ≤ u ∧
      (∀ d m, l = d :: m → d.free = false) ∧ Edit (workArea l1 u) h h' ∧
      ((l2 = l ∧ u = t) ∨ ∃ v, l2 = ⟨v, true⟩ :: l ∧ u = t + v) := by
  have hlt := o.end_le
  have hlim := heapLimit_lt
  obtain ⟨ht4, ht⟩ := o.size
  unfold mergeRight
  simp only [o.blockAfter]
  rcases l2 with _ | ⟨⟨v, _ | _⟩, l⟩
  · -- the block is the last one
    refine ⟨t, [], h, ?_, o, Nat.le_refl t, by rintro d m ⟨⟩, Edit.refl _ h, .inl ⟨rfl, rfl⟩⟩
    rw [if_neg (fun hc => o.inHeap_next.mp hc.1 rfl)]
  · -- the block behind is used
    obtain ⟨q, hq⟩ := o.next_header
    obtain ⟨⟨hv4, -⟩, -⟩ := Sized.cons.mp o.sized₂
    refine ⟨t, ⟨v, false⟩ :: l, h, ?_, o, Nat.le_refl t, ?_, Edit.refl _ h, .inl ⟨rfl, rfl⟩⟩
    · rw [if_neg]
      intro hc
      rw [blockIsFree_eq (hq _ _ rfl) hv4] at hc
      exact Bool.false_ne_true hc.2
    · intro d m hd
      obtain ⟨rfl, rfl⟩ := List.cons.inj hd
      rfl
  · -- the block behind is free: it leaves the list and is swallowed
    obtain ⟨q, hq⟩ := o.next_header
    obtain ⟨⟨hv4, hv⟩, hz⟩ := Sized.cons.mp o.sized₂
    simp only at hv4 hv
    rw [span_cons] at hlt
    simp only at hlt
    have hnodes : Nodes (freeAddrs heapVirtStart l1 ++
        (blockAt l1 + t) :: freeAddrs (blockAt l1 + t + v) l) := by
      have hz : Sized (l1 ++ ⟨t, false⟩ :: ⟨v, true⟩ :: l) := o.sized
      have := nodes_freeAddrs hz (by rw [blockAt_append]; simp only [span_cons]; omega)
      rw [freeAddrs_append, freeAddrs_cons_used, freeAddrs_cons_free] at this
      exact this
    obtain ⟨h1, hrem, hseg, e1⟩ := removeFree_spec o.chain hnodes
    have hload : ∀ a, blockAt l1 ≤ a → h1.mem.load a = h.mem.load a := fun a ha =>
      e1.mem.load_eq fun x h1 _ hx => by
        have := payload_lt (links_payload o.sized₁ hx)
        omega
    obtain ⟨f, hf⟩ := o.header
    have hhead1 : h1.mem.load (blockAt l1) = tagWord ⟨t, f⟩ (endFree false l1) := by
      rw [hload _ (Nat.le_refl _), hf]
    have hnext1 : h1.mem.load (blockAt l1 + t) = tagWord ⟨v, true⟩ q := by
      rw [hload _ (Nat.le_add_right _ _), hq _ _ rfl]
    have hsize : blockSize h1.mem (blockAt l1) = t :=
      blockSize_eq hhead1 ht4 (by simp only; omega)
    have hsize' : blockSize h1.mem (blockAt l1 + t) = v :=
      blockSize_eq hnext1 hv4 (by simp only; omega)
    have hword := mergedHeader_eq hhead1 ht4 hv4 (by simp only; omega)
    rw [Nat.add_assoc] at hseg
    refine ⟨t + v, l, _, ?_, o.absorb e1 hseg, Nat.le_add_right _ _, ?_, ?_,
      .inr ⟨v, rfl, rfl⟩⟩
    · rw [if_pos ⟨o.inHeap_next.mpr (by simp), blockIsFree_eq (hq _ _ rfl) hv4⟩,
        bind_of_some hrem, hsize, hsize', hword]
      rfl
    · rintro d m rfl
      have := o.coalesced₂.2.1
      simpa using this
    · exact (e1.mono (links_subset _ _)).trans (Edit.setWord fun x h1 h2 =>
        .inr ⟨h1, by omega⟩)

theorem kfree_eq {p : ℕ} (hp : p ≠ 0) (hin : h.blockInHeap (sub32 p tagSize) = true)
    (hsize : blockSize h.mem (sub32 p tagSize) ≠ 0) :
    h.kfree p = h.mergeLeft (sub32 p tagSize) >>= fun r =>
      r.2.mergeRight r.1 >>= fun h => (h.markFree r.1).insertFree r.1 := by
  unfold kfree
  have hguard : (!h.blockInHeap (sub32 p tagSize) || blockSize h.mem (sub32 p tagSize) == 0) =
      false := by
    rw [hin, beq_false_of_ne hsize]
    rfl
  rw [if_neg hp]
  simp only [hguard]
  rfl

/-- **`kfree`** of a used block makes its bytes free and merges it with its free neighbours. -/
theorem kfree_used (r : Rep h (l1 ++ ⟨t, false⟩ :: l2)) :
    ∃ h' l u l', h.kfree (blockAt l1 + 4) = some h' ∧ Rep h' (l ++ ⟨u, true⟩ :: l') ∧
      Edit (workArea l u) h h' ∧
      usedBlocks heapVirtStart (l ++ ⟨u, true⟩ :: l') =
        usedBlocks heapVirtStart l1 ++ usedBlocks (blockAt l1 + t) l2 := by
  have o := r.open_used
  have hlt := o.end_lt
  have ht := o.size.2
  have hstart := start_le_blockAt l1
  have hblock : sub32 (blockAt l1 + 4) tagSize = blockAt l1 := by
    rw [tagSize, sub32_eq (by omega) (by omega)]
    omega
  have hin : h.blockInHeap (blockAt l1) = true :=
    blockInHeap_of_le o.fin hstart (by rw [o.brk]; omega) (by omega)
  obtain ⟨l, u, h1, hleft, o1, hend, e1, hcase1⟩ := mergeLeft_spec r
  obtain ⟨v, l', h2, hright, o2, huv, hhead, e2, hcase2⟩ := mergeRight_spec o1
  obtain ⟨o3, w3, e3⟩ := markFree_spec o2
  obtain ⟨h4, hins, r4, e4⟩ := o3.close_free w3 hend hhead
  have hv := o2.size.2
  refine ⟨h4, l, v, l', ?_, r4, ?_, ?_⟩
  · rw [kfree_eq (by omega) (by rw [hblock]; exact hin) (by rw [hblock, o.blockSize]; omega),
      hblock, bind_of_some hleft, bind_of_some hright, hins]
  · exact (e1.mono (workArea_mono l huv)).trans (e2.trans ((e3.mono (blockBytes_subset l v)).trans
      (e4.mono (links_cons_subset (Nat.le_refl _) (by omega)))))
  · rw [usedBlocks_append, usedBlocks_cons_free]
    -- what the block swallowed on either side was free
    have hbefore : usedBlocks heapVirtStart l = usedBlocks heapVirtStart l1 ∧
        blockAt l + u = blockAt l1 + t := by
      rcases hcase1 with ⟨rfl, rfl⟩ | ⟨w, rfl, rfl⟩
      · exact ⟨rfl, rfl⟩
      · rw [usedBlocks_append, blockAt_append]
        simp [Nat.add_assoc]
    have hbehind : usedBlocks (blockAt l + v) l' = usedBlocks (blockAt l + u) l2 := by
      rcases hcase2 with ⟨rfl, rfl⟩ | ⟨w, rfl, rfl⟩
      · rfl
      · rw [usedBlocks_cons_free, Nat.add_assoc]
    rw [← hbefore.1, ← hbefore.2, ← hbehind]
    rfl

/-- **`kfree`** at the level of used blocks: one of them goes, and the bytes of the others are
as they were. -/
theorem kfree_spec {cs : List Cell} {us vs : List (ℕ × ℕ)} {b : ℕ} (r : Rep h cs)
    (hus : usedBlocks heapVirtStart cs = us ++ (b, t) :: vs) :
    ∃ h' cs', h.kfree (b + 4) = some h' ∧ Rep h' cs' ∧
      usedBlocks heapVirtStart cs' = us ++ vs ∧
      ∀ x ∈ clientBytes cs', h'.mem x = h.mem x := by
  obtain ⟨l1, l2, rfl, rfl, rfl, rfl⟩ := usedBlocks_split hus
  obtain ⟨h', l, u, l', hfree, r', e, hused⟩ := kfree_used r
  exact ⟨h', _, hfree, r', hused, fun x hx =>
    e.mem x (not_mem_workArea (Sized.append.mp r'.sized).1 hx)⟩

end PokuOS

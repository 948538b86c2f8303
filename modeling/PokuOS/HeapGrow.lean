import PokuOS.HeapOps

/-!
# Growing the heap

`grow_heap` backs pages behind the break and turns them into free space: into the last block
when that is free, into a block of their own otherwise. When frames run out half way the
pages backed so far stay, unused, and the tiling is as before.
-/

namespace PokuOS

open Heap List

variable {h : Heap}

theorem allocPageFrame_granted (s : FrameSupply) :
    (s.allocPageFrame.1 = none → s.allocPageFrame.2.granted ≤ s.granted) ∧
      (∀ p, s.allocPageFrame.1 = some p → s.allocPageFrame.2.granted + 1 = s.granted) := by
  obtain ⟨answers, hb⟩ := s
  cases answers with
  | nil => exact ⟨fun _ => Nat.le_refl _, fun p hp => by cases hp⟩
  | cons a as =>
    cases a with
    | none => exact ⟨fun _ => by simp [FrameSupply.granted, FrameSupply.allocPageFrame],
        fun p hp => by cases hp⟩
    | some q => exact ⟨fun hp => (by cases hp),
        fun p _ => by simp [FrameSupply.granted, FrameSupply.allocPageFrame]⟩

/-- Backing pages changes memory from the break on, and takes frames; the static variables
stay. -/
structure Backed (h h' : Heap) : Prop where
  /-- memory below the break stays -/
  mem : Mem.SameOff {x | h.heapBrk ≤ x} h.mem h'.mem
  brk : h'.heapBrk = h.heapBrk
  fin : h'.heapEnd = h.heapEnd
  list : h'.freeList = h.freeList
  /-- frames are only taken -/
  granted : h'.frames.granted ≤ h.frames.granted

/-- **The loop of `grow_heap`.** A failure still leaves the pages backed so far; success has
taken one frame for each page. -/
theorem expandPages_spec (n : ℕ) : ∀ (h : Heap) (i : ℕ),
    h.heapBrk + (i + h.frames.granted) * pageSize < 2 ^ 32 →
      Backed h (h.expandPages i n).2 ∧ ((h.expandPages i n).1 = true →
        (h.expandPages i n).2.frames.granted + n = h.frames.granted) := by
  induction n with
  | zero =>
    intro h i _
    exact ⟨⟨Mem.SameOff.refl _ _, rfl, rfl, rfl, Nat.le_refl _⟩, fun _ => rfl⟩
  | succ n ih =>
    intro h i hlt
    obtain ⟨hnone, hsome⟩ := allocPageFrame_granted h.frames
    rcases hframe : h.frames.allocPageFrame with ⟨_ | page, frames⟩
    · -- no frame: memory is as it was
      have hstep : h.expandPages i (n + 1) = (false, { h with frames := frames }) := by
        simp only [expandPages, expandHeap, hframe]
      rw [hstep]
      rw [hframe] at hnone
      exact ⟨⟨Mem.SameOff.refl _ _, rfl, rfl, rfl, hnone rfl⟩, fun hf => by cases hf⟩
    · -- one page is backed, the loop goes on
      rw [hframe] at hsome
      have hgranted : frames.granted + 1 = h.frames.granted := hsome page rfl
      have hpage : (i + 1 + frames.granted) * pageSize = (i + h.frames.granted) * pageSize := by
        rw [← hgranted]
        congr 1
        omega
      have haddr : add32 h.heapBrk (i * pageSize) = h.heapBrk + i * pageSize := by
        have : i * pageSize ≤ (i + h.frames.granted) * pageSize :=
          Nat.mul_le_mul_right _ (Nat.le_add_right _ _)
        exact add32_eq (by omega)
      set h1 : Heap := { h with
        mem := h.mem.blit (h.heapBrk + i * pageSize) pageSize page, frames := frames } with hh1
      have hstep : h.expandPages i (n + 1) = h1.expandPages (i + 1) n := by
        simp only [expandPages, expandHeap, hframe, haddr, hh1]
      obtain ⟨hb, hall⟩ := ih h1 (i + 1) (by rw [hh1]; simp only; omega)
      have hblit : Mem.SameOff {x | h.heapBrk ≤ x} h.mem h1.mem :=
        Mem.SameOff.blit fun x h1 _ => (Nat.le_add_right _ _).trans h1
      rw [hstep]
      refine ⟨⟨hblit.trans hb.mem, hb.brk, hb.fin, hb.list, ?_⟩, fun hok => ?_⟩
      · exact hb.granted.trans (hgranted ▸ Nat.le_succ _)
      · have hrest : (h1.expandPages (i + 1) n).2.frames.granted + n = frames.granted := hall hok
        omega

variable {cs : List Cell}

/-- Backing pages behind the break keeps the representation. -/
theorem Backed.rep {h' : Heap} (r : Rep h cs) (hb : Backed h h') : Rep h' cs := by
  have hbrk := r.brk
  refine ⟨r.nonempty, r.sized, r.coalesced, ?_, ?_, ?_, ?_, ?_⟩
  · refine r.tagged.sameOff r.sized hb.mem fun x hx => .inr (.inl ?_)
    have hx : h.heapBrk ≤ x := hx
    rw [hbrk] at hx
    exact hx
  · rw [hb.list]
    refine r.chain.congr fun f hf => ?_
    have hnodes := nodes_freeAddrs r.sized (hbrk ▸ r.brk_le)
    have := hnodes.below f hf
    have := freeAddr_lt r.sized hf
    unfold nextFree tagSize
    rw [add32_eq (by omega), hb.mem.load_eq]
    intro x h1 h2 hx
    have hx : h.heapBrk ≤ x := hx
    omega
  · rw [hb.brk, hbrk]
  · rw [hb.fin, hb.brk, r.fin]
  · rw [hb.brk]
    exact (Nat.add_le_add_left (Nat.mul_le_mul_right _ hb.granted) _).trans r.room

variable {l : List Cell}

/-- The block before the break, as `grow_heap` finds it from its footer. -/
theorem Rep.last_block {c : Cell} (r : Rep h (l ++ [c])) :
    h.mem.load (sub32 h.heapBrk tagSize) = c.size ∧ sub32 h.heapBrk c.size = blockAt l ∧
      h.blockInHeap (blockAt l) = true ∧ add32 (blockAt l) c.size = h.heapBrk ∧
      blockIsFree h.mem (blockAt l) = c.free := by
  obtain ⟨-, hz⟩ := Sized.append.mp r.sized
  obtain ⟨⟨hc4, hc⟩, -⟩ := Sized.cons.mp hz
  have hle := r.brk_le
  have hlim := heapLimit_lt
  have hstart := start_le_blockAt l
  have hbrk : h.heapBrk = blockAt l + c.size := by
    rw [r.brk, blockAt_append, span_cons, span_nil, Nat.add_zero]
  refine ⟨?_, ?_, ?_, ?_, ?_⟩
  · rw [tagSize, sub32_eq (by omega) (by omega), hbrk]
    exact r.tagged.last_footer
  · rw [sub32_eq (by omega) (by omega)]
    omega
  · exact blockInHeap_of_le r.fin hstart (by omega) (by omega)
  · rw [add32_eq (by omega), hbrk]
  · exact blockIsFree_eq (tagged_append.mp r.tagged).2.1 hc4

/-- A last block whose header says free is settled by its footer. -/
theorem Open.settle_last {t : ℕ} (o : Open h l t [])
    (hheader : h.mem.load (blockAt l) = tagWord ⟨t, true⟩ (endFree false l)) :
    Open ((h.setWord (blockAt l + t - 4) t).setWord (add32 (blockAt l) tagSize) 0) l t [] ∧
      Settled true ((h.setWord (blockAt l + t - 4) t).setWord (add32 (blockAt l) tagSize) 0)
        l t [] ∧
      Edit (blockBytes l t) h
        ((h.setWord (blockAt l + t - 4) t).setWord (add32 (blockAt l) tagSize) 0) := by
  have hlt := o.end_lt
  have ht := o.size.2
  rw [tagSize, add32_eq (by omega)]
  have o1 := o.setBody t (a := blockAt l + t - 4) (by omega) (by omega)
  refine ⟨o1.setBody 0 (by omega) (by omega), ⟨?_, ?_, by rintro d l' ⟨⟩⟩, ?_⟩
  · rw [load_setWord_ne (by omega), load_setWord_ne (by omega), hheader]
  · rw [load_setWord_ne (by omega), load_setWord,
      Nat.mod_eq_of_lt (by omega)]
  · exact (Edit.setWord (S := blockBytes l t) fun x h1 h2 => ⟨by omega, by omega⟩).trans
      (Edit.setWord fun x h1 h2 => ⟨by omega, by omega⟩)

/-- Moving the break: the block behind `l` reaches up to it. -/
def Heap.setBrk (h : Heap) (brk : ℕ) : Heap := { h with heapBrk := brk, heapEnd := brk }

/-- A last block of size `t` behind `l`, with its header written and the break behind it. -/
theorem Open.of_last {t : ℕ} (hz : Sized l) (ht : t % 4 = 0 ∧ 16 ≤ t) (hc : Coalesced false l)
    (htag : Tagged h.mem heapVirtStart false l)
    (hchain : Seg (nextFree h.mem) (ptr h.freeList) (freeAddrs heapVirtStart l) none)
    (hroom : blockAt l + t + h.frames.granted * pageSize ≤ heapLimit) :
    Open ((h.setWord (blockAt l) (tagWord ⟨t, true⟩ (endFree false l))).setBrk (blockAt l + t))
      l t [] := by
  have hlim := heapLimit_lt
  refine ⟨hz, by simp [Sized], ht, hc, trivial, ?_, ⟨true, ?_⟩, ⟨true, trivial⟩, ?_, rfl, rfl,
    hroom⟩
  · exact htag.sameOff hz (Mem.SameOff.store (S := {x | blockAt l ≤ x}) fun x h1 _ => h1)
      fun x hx => .inr (.inl hx)
  · exact (Mem.load_store_self ..).trans (tagWord_mod (by simp only; omega) _)
  · rw [freeAddrs_nil, append_nil]
    refine hchain.congr fun f hf => ?_
    have hfl := freeAddr_lt hz hf
    change nextFree (h.mem.store _ _) f = _
    unfold nextFree tagSize
    rw [add32_eq (by omega), Mem.load_store_of_disjoint (by omega)]

/-- **Growing into the last block**, which is free. -/
theorem growMerge_spec {t pages : ℕ} (r : Rep h (l ++ [⟨t, true⟩]))
    (hroom : h.heapBrk + pages * pageSize + h.frames.granted * pageSize ≤ heapLimit) :
    ∃ h', h.growMerge (blockAt l) t pages = some h' ∧
      Rep h' (l ++ [⟨t + pages * pageSize, true⟩]) ∧
      Mem.SameOff (workArea l (t + pages * pageSize)) h.mem h'.mem := by
  obtain ⟨h1, hrem, o, e1, -⟩ := r.open_free
  have hlim := heapLimit_lt
  have hbrk : h1.heapBrk = blockAt l + t := o.brk
  obtain ⟨ht4, ht⟩ := o.size
  obtain ⟨f, hf⟩ := o.header
  generalize hk : pages * pageSize = k at *
  have hk4 : k % 4 = 0 := by
    rw [← hk, Nat.mul_mod, show pageSize % 4 = 0 by decide, Nat.mul_zero, Nat.zero_mod]
  rw [← e1.brk, ← e1.frames, hbrk] at hroom
  -- the header takes the new size, and the break moves
  have hheader := mergedHeader_eq hf ht4 hk4 (by simp only; omega)
  have hchain := o.chain
  rw [freeAddrs_nil, append_nil] at hchain
  have o2 : Open ((h1.setWord (blockAt l) (tagWord ⟨t + k, true⟩ (endFree false l))).setBrk
      (blockAt l + (t + k))) l (t + k) [] :=
    Open.of_last o.sized₁ ⟨by omega, by omega⟩ o.coalesced₁ o.before hchain (by omega)
  obtain ⟨o3, w3, e3⟩ := o2.settle_last
    ((Mem.load_store_self ..).trans (tagWord_mod (by simp only; omega) _))
  have hleft : endFree false l = false := by
    have := (coalesced_append.mp r.coalesced).2.1
    simpa using this
  obtain ⟨h4, hins, r4, e4⟩ := o3.close_free w3 hleft (by rintro d l' ⟨⟩)
  refine ⟨h4, ?_, r4, ?_⟩
  · unfold growMerge
    rw [bind_of_some hrem, hk]
    simp only [hheader, setWord_heapBrk, hbrk, add32_eq (show blockAt l + t + k < 2 ^ 32 by omega)]
    rw [Nat.add_assoc]
    have hb := o2.blockFooter
    have hs := o2.blockSize
    unfold Heap.setBrk at hb hs hins
    rw [hb, hs]
    exact hins
  · refine (e1.mem.mono (links_subset _ _)).trans ((Mem.SameOff.store ?_).trans
      ((e3.mem.mono (blockBytes_subset _ _)).trans (e4.mem.mono
        (links_cons_subset (Nat.le_refl _) (by omega)))))
    exact fun x h1 h2 => .inr ⟨h1, by omega⟩

/-- **Growing behind the last block**, which is used. -/
theorem growNew_spec {pages : ℕ} (r : Rep h cs) (hpages : 0 < pages)
    (hused : endFree false cs = false)
    (hroom : h.heapBrk + pages * pageSize + h.frames.granted * pageSize ≤ heapLimit) :
    ∃ h', h.growNew pages = some h' ∧ Rep h' (cs ++ [⟨pages * pageSize, true⟩]) ∧
      Mem.SameOff (workArea cs (pages * pageSize)) h.mem h'.mem := by
  have hlim := heapLimit_lt
  have hbrk := r.brk
  have hk16 : 16 ≤ pages * pageSize := by
    have : 1 * pageSize ≤ pages * pageSize := Nat.mul_le_mul_right _ hpages
    exact Nat.le_trans (by decide) this
  have hk4 : pages * pageSize % 4 = 0 := by
    rw [Nat.mul_mod, show pageSize % 4 = 0 by decide, Nat.mul_zero, Nat.zero_mod]
  generalize hk : pages * pageSize = k at *
  rw [hbrk] at hroom
  have hheader : k ||| blockFlagFree = tagWord ⟨k, true⟩ (endFree false cs) := by
    have : k ||| blockFlagFree ||| 2 * (endFree false cs).toNat =
      tagWord ⟨k, true⟩ (endFree false cs) := freeHeader_eq hk4
    rw [hused] at this ⊢
    simpa using this
  have o1 := Open.of_last (t := k) r.sized ⟨hk4, hk16⟩ r.coalesced r.tagged r.chain (by omega)
  obtain ⟨o2, w2, e2⟩ := o1.settle_last
    ((Mem.load_store_self ..).trans (tagWord_mod (by simp only; omega) _))
  obtain ⟨h3, hins, r3, e3⟩ := o2.close_free w2 hused (by rintro d l' ⟨⟩)
  refine ⟨h3, ?_, r3, ?_⟩
  · have hfooter : blockFooter (h.setWord (blockAt cs)
        (tagWord ⟨k, true⟩ (endFree false cs))).mem (blockAt cs) = blockAt cs + k - 4 :=
      o1.blockFooter
    unfold growNew
    simp only [hk, hbrk, hheader, hfooter, setWord_heapBrk,
      add32_eq (show blockAt cs + k < 2 ^ 32 by omega)]
    exact hins
  · refine (Mem.SameOff.store ?_).trans ((e2.mem.mono (blockBytes_subset _ _)).trans
      (e3.mem.mono (links_cons_subset (Nat.le_refl _) (by omega))))
    exact fun x h1 h2 => .inr ⟨h1, by omega⟩

/-- The cells after growing by `k` bytes: a free last block swallows them. -/
def grown (k : ℕ) : List Cell → List Cell
  | [] => [⟨k, true⟩]
  | [c] => if c.free then [⟨c.size + k, true⟩] else [c, ⟨k, true⟩]
  | c :: d :: cs => c :: grown k (d :: cs)

theorem grown_concat (k : ℕ) (l : List Cell) (c : Cell) :
    grown k (l ++ [c]) =
      if c.free then l ++ [⟨c.size + k, true⟩] else l ++ [c] ++ [⟨k, true⟩] := by
  induction l with
  | nil => rfl
  | cons d l ih =>
    cases l with
    | nil =>
      simp only [cons_append, nil_append, grown]
      cases c.free <;> rfl
    | cons e l =>
      simp only [cons_append, grown] at ih ⊢
      rw [ih]
      cases c.free <;> rfl

/-- The pages `grow_heap` asks for. -/
def growPages (need : ℕ) : ℕ := add32 need (pageSize - 1) / pageSize

variable {need : ℕ}

theorem growPages_pos (hneed : 0 < need) (hlt : need + pageSize ≤ 2 ^ 32) : 0 < growPages need := by
  unfold growPages pageSize at *
  rw [add32_eq (by omega)]
  omega

/-- `grow_heap` when frames run out. -/
theorem growHeap_fail {h1 : Heap} (hneed : need ≠ 0) (hbrk : ¬ 0xFE000000 ≤ h.heapBrk)
    (hexp : h.expandPages 0 (growPages need) = (false, h1)) :
    h.growHeap need = some (false, h1) := by
  unfold growHeap
  rw [if_neg hneed, if_neg hbrk]
  unfold growPages at hexp
  simp only [hexp]

theorem growHeap_ok {h1 : Heap} (hneed : need ≠ 0) (hbrk : ¬ 0xFE000000 ≤ h.heapBrk)
    (hexp : h.expandPages 0 (growPages need) = (true, h1)) :
    h.growHeap need =
      if heapVirtStart < h1.heapBrk ∧
          h1.blockInHeap (sub32 h1.heapBrk (h1.mem.load (sub32 h1.heapBrk tagSize))) ∧
          add32 (sub32 h1.heapBrk (h1.mem.load (sub32 h1.heapBrk tagSize)))
            (h1.mem.load (sub32 h1.heapBrk tagSize)) = h1.heapBrk ∧
          blockIsFree h1.mem (sub32 h1.heapBrk (h1.mem.load (sub32 h1.heapBrk tagSize))) then
        (h1.growMerge (sub32 h1.heapBrk (h1.mem.load (sub32 h1.heapBrk tagSize)))
          (h1.mem.load (sub32 h1.heapBrk tagSize)) (growPages need)).map (true, ·)
      else (h1.growNew (growPages need)).map (true, ·) := by
  unfold growHeap
  rw [if_neg hneed, if_neg hbrk]
  unfold growPages at hexp ⊢
  simp only [hexp]

/-- **`grow_heap`** either fails and leaves the tiling as it is, or appends pages to it. -/
theorem growHeap_spec (r : Rep h cs) (hneed : 0 < need) (hlt : need + pageSize ≤ 2 ^ 32) :
    ∃ ok h', h.growHeap need = some (ok, h') ∧
      Rep h' (if ok then grown (growPages need * pageSize) cs else cs) ∧
      ∀ x ∈ clientBytes cs, h'.mem x = h.mem x := by
  have hlim := heapLimit_lt
  have hle := r.brk_le
  have hroom := r.room
  have hbrk : ¬ 0xFE000000 ≤ h.heapBrk := by omega
  obtain ⟨hb, hall⟩ := expandPages_spec (growPages need) h 0 (by rw [Nat.zero_add]; omega)
  have hclient : ∀ x ∈ clientBytes cs, x < h.heapBrk := fun x hx => by
    have := payload_lt hx
    rw [r.brk]
    omega
  rcases hexp : h.expandPages 0 (growPages need) with ⟨_ | _, h1⟩
  all_goals rw [hexp] at hb hall
  · refine ⟨false, h1, growHeap_fail (by omega) hbrk hexp, hb.rep r, fun x hx => ?_⟩
    exact hb.mem x (Nat.not_le.mpr (hclient x hx))
  · have r1 := hb.rep r
    have hgranted := hall rfl
    have hroom1 : h1.heapBrk + growPages need * pageSize + h1.frames.granted * pageSize ≤
        heapLimit := by
      simp only at hgranted
      rw [← hgranted, Nat.add_mul] at hroom
      rw [hb.brk]
      omega
    have hfirst : ∀ x ∈ clientBytes cs, h1.mem x = h.mem x := fun x hx =>
      hb.mem x (Nat.not_le.mpr (hclient x hx))
    obtain rfl | ⟨l, c, rfl⟩ := eq_nil_or_concat' cs
    · exact absurd rfl r.nonempty
    obtain ⟨hfoot, hprev, hin, hadd, hfree⟩ := r1.last_block
    have hpos : heapVirtStart < h1.heapBrk := by
      have := (Sized.cons.mp (Sized.append.mp r.sized).2).1.2
      have := start_le_blockAt l
      rw [r1.brk, blockAt_append, span_cons]
      omega
    rw [growHeap_ok (by omega) hbrk hexp, hfoot, hprev, grown_concat]
    obtain ⟨t, _ | _⟩ := c
    · -- the last block is used: the pages become a block of their own
      rw [if_neg (fun hc => by rw [hfree] at hc; exact Bool.false_ne_true hc.2.2.2)]
      obtain ⟨h2, hnew, r2, hs⟩ := growNew_spec r1 (growPages_pos hneed hlt)
        (by simp) hroom1
      refine ⟨true, h2, by rw [hnew]; rfl, r2, fun x hx => ?_⟩
      rw [hs x fun hw => workArea_disjoint r.sized hw hx, hfirst x hx]
    · -- the last block is free and swallows them
      rw [if_pos ⟨hpos, hin, hadd, hfree⟩]
      obtain ⟨h2, hmerge, r2, hs⟩ := growMerge_spec r1 hroom1
      refine ⟨true, h2, by rw [hmerge]; rfl, r2, fun x hx => ?_⟩
      have hnot : x ∉ workArea l (t + growPages need * pageSize) := fun hw => by
        have hx' := mem_payload_append.mp hx
        rcases hx' with hx' | hx'
        · exact workArea_disjoint (Sized.append.mp r.sized).1 hw hx'
        · rcases hx' with ⟨hfree, -⟩ | hx'
          · exact Bool.false_ne_true hfree.symm
          · exact hx'
      rw [hs x hnot, hfirst x hx]

end PokuOS

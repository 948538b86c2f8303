import PokuOS.Heap
import PokuOS.BoundaryTags

/-!
# The heap's free list and header flags

What `insert_free`, `remove_free` and the search loop of `kmalloc` do to a free list that is
in order, and how the C expressions on header words read and write the fields of a `Cell`.

The list operations write link words only. Their frame is an `Edit`: memory changes off
nothing but the listed link words, and of the static variables only `free_list` does.
-/

namespace PokuOS

open Heap List

/-! ## Header words

`s` is a size (a multiple of 4) and `r` the two flag bits below it. -/

theorem and_low {s r k : ℕ} (hs : s % 4 = 0) (hr : r < 4) (hk : k < 4) :
    (s + r) &&& k = r &&& k := by
  rw [and_four, show (s + r) % 4 = r by omega, Nat.mod_eq_of_lt hk,
    Nat.div_eq_of_lt hk, Nat.and_zero]
  omega

theorem or_low {s r k : ℕ} (hs : s % 4 = 0) (hr : r < 4) (hk : k < 4) :
    (s + r) ||| k = s + (r ||| k) := by
  rw [or_four, show (s + r) % 4 = r by omega, show (s + r) / 4 = s / 4 by omega,
    Nat.mod_eq_of_lt hk, Nat.div_eq_of_lt hk, Nat.or_zero]
  omega

theorem and_high {s r k : ℕ} (hs : s % 4 = 0) (hr : r < 4) (hlt : s < 2 ^ 32)
    (hk : k / 4 = 2 ^ 30 - 1) : (s + r) &&& k = s + (r &&& k % 4) := by
  rw [and_four, show (s + r) % 4 = r by omega, show (s + r) / 4 = s / 4 by omega, hk,
    Nat.and_two_pow_sub_one_eq_mod, Nat.mod_eq_of_lt (by omega)]
  omega

section Header

variable {m : Mem} {b : ℕ} {c : Cell} {pf : Bool}

theorem flags_lt (c : Cell) (pf : Bool) : c.free.toNat + 2 * pf.toNat < 4 := by
  cases c.free <;> cases pf <;> decide

variable (h : m.load b = tagWord c pf) (hs : c.size % 4 = 0)
include h hs

theorem blockSize_eq (hlt : c.size < 2 ^ 32) : blockSize m b = c.size := by
  rw [blockSize, h, tagWord, Nat.add_assoc, blockSizeMask,
    and_high hs (flags_lt c pf) hlt (by decide)]
  cases c.free <;> cases pf <;> rfl

theorem blockIsFree_eq : blockIsFree m b = c.free := by
  rw [blockIsFree, h, tagWord, Nat.add_assoc, blockFlagFree,
    and_low hs (flags_lt c pf) (by decide)]
  cases c.free <;> cases pf <;> rfl

theorem prevFlag_eq : m.load b &&& blockFlagPrevFree = 2 * pf.toNat := by
  rw [h, tagWord, Nat.add_assoc, blockFlagPrevFree, and_low hs (flags_lt c pf) (by decide)]
  cases c.free <;> cases pf <;> rfl

theorem setFree_eq : m.load b ||| blockFlagFree = tagWord ⟨c.size, true⟩ pf := by
  rw [h, tagWord, tagWord, Nat.add_assoc, blockFlagFree,
    or_low hs (flags_lt c pf) (by decide)]
  cases c.free <;> cases pf <;> rfl

theorem clearFree_eq
    (hlt : c.size < 2 ^ 32) : m.load b &&& 0xFFFFFFFE = tagWord ⟨c.size, false⟩ pf := by
  rw [h, tagWord, tagWord, Nat.add_assoc, and_high hs (flags_lt c pf) hlt (by decide)]
  cases c.free <;> cases pf <;> rfl

theorem setPrev_eq : m.load b ||| blockFlagPrevFree = tagWord c true := by
  rw [h, tagWord, tagWord, Nat.add_assoc, blockFlagPrevFree,
    or_low hs (flags_lt c pf) (by decide)]
  cases c.free <;> cases pf <;> rfl

theorem clearPrev_eq (hlt : c.size < 2 ^ 32) : m.load b &&& 0xFFFFFFFD = tagWord c false := by
  rw [h, tagWord, tagWord, Nat.add_assoc, and_high hs (flags_lt c pf) hlt (by decide)]
  cases c.free <;> cases pf <;> rfl

omit h hs in
/-- A header built from a size, the free flag and the old `PREV_FREE` bit. -/
theorem freeHeader_eq {s : ℕ} (hs : s % 4 = 0) :
    s ||| blockFlagFree ||| 2 * pf.toNat = tagWord ⟨s, true⟩ pf := by
  rw [blockFlagFree, show s = s + 0 from rfl, or_low hs (by decide) (by decide),
    or_low hs (by decide) (by cases pf <;> decide), tagWord]
  cases pf <;> rfl

/-- The header of two merged blocks, built from their sizes and the old header. -/
theorem mergedHeader_eq {k : ℕ} (hk : k % 4 = 0) (hlt : c.size + k < 2 ^ 32) :
    add32 c.size k ||| blockFlagFree ||| (m.load b &&& blockFlagPrevFree) =
      tagWord ⟨c.size + k, true⟩ pf := by
  rw [add32_eq hlt, prevFlag_eq h hs, freeHeader_eq (by omega)]

omit h hs in
/-- A header built from a size and the old `PREV_FREE` bit. -/
theorem usedHeader_eq {s : ℕ} (hs : s % 4 = 0) :
    s ||| 2 * pf.toNat = tagWord ⟨s, false⟩ pf := by
  rw [show s = s + 0 from rfl, or_low hs (by decide) (by cases pf <;> decide), tagWord]
  cases pf <;> rfl

end Header

/-! ## Edits -/

namespace Heap

/-- `h'` differs from `h` in memory inside `S`, and in `free_list`. -/
structure Edit (S : Set ℕ) (h h' : Heap) : Prop where
  /-- memory changes inside `S` only -/
  mem : Mem.SameOff S h.mem h'.mem
  brk : h'.heapBrk = h.heapBrk
  fin : h'.heapEnd = h.heapEnd
  frames : h'.frames = h.frames

namespace Edit

variable {S T : Set ℕ} {h h' h'' : Heap}

theorem refl (S : Set ℕ) (h : Heap) : Edit S h h := ⟨Mem.SameOff.refl _ _, rfl, rfl, rfl⟩

theorem trans (e : Edit S h h') (e' : Edit S h' h'') : Edit S h h'' :=
  ⟨e.mem.trans e'.mem, e'.brk.trans e.brk, e'.fin.trans e.fin, e'.frames.trans e.frames⟩

theorem mono (e : Edit S h h') (hST : S ⊆ T) : Edit T h h' :=
  ⟨e.mem.mono hST, e.brk, e.fin, e.frames⟩

theorem setWord {a v : ℕ} (ha : ∀ x, a ≤ x → x < a + 4 → x ∈ S) :
    Edit S h (h.setWord a v) :=
  ⟨Mem.SameOff.store ha, rfl, rfl, rfl⟩

theorem freeList (v : ℕ) : Edit S h { h with freeList := v } :=
  ⟨Mem.SameOff.refl _ _, rfl, rfl, rfl⟩

end Edit

@[simp] theorem setWord_mem (h : Heap) (a v : ℕ) : (h.setWord a v).mem = h.mem.store a v := rfl

theorem load_setWord (h : Heap) (a v : ℕ) : (h.setWord a v).mem.load a = v % 2 ^ 32 :=
  Mem.load_store_self ..

theorem load_setWord_ne {h : Heap} {a b v : ℕ} (hab : a + 4 ≤ b ∨ b + 4 ≤ a) :
    (h.setWord a v).mem.load b = h.mem.load b := Mem.load_store_of_disjoint hab

@[simp] theorem setWord_freeList (h : Heap) (a v : ℕ) :
    (h.setWord a v).freeList = h.freeList := rfl

@[simp] theorem setWord_heapBrk (h : Heap) (a v : ℕ) :
    (h.setWord a v).heapBrk = h.heapBrk := rfl

@[simp] theorem setWord_heapEnd (h : Heap) (a v : ℕ) :
    (h.setWord a v).heapEnd = h.heapEnd := rfl

@[simp] theorem setWord_frames (h : Heap) (a v : ℕ) : (h.setWord a v).frames = h.frames := rfl

end Heap

/-! ## List operations -/

/-- Addresses that can be nodes of the free list: aligned, with their link word below the end
of the address space, and few enough for a walk to end. -/
structure Nodes (fs : List ℕ) : Prop where
  /-- a walk over them ends -/
  short : fs.length < listFuel
  /-- no node is `NULL` -/
  pos : ∀ f ∈ fs, f ≠ 0
  /-- nodes are aligned -/
  aligned : ∀ f ∈ fs, f % 4 = 0
  /-- the link word is in the address space -/
  below : ∀ f ∈ fs, f + 8 ≤ 2 ^ 32

theorem ptr_pos {v : ℕ} (h : v ≠ 0) : ptr v = some v := if_neg h

theorem ptr_getD_mod {o : Option ℕ} (h : ∀ v ∈ o, v ≠ 0 ∧ v < 2 ^ 32) :
    ptr (o.getD 0 % 2 ^ 32) = o := by
  cases o with
  | none => rfl
  | some v =>
    obtain ⟨h0, h1⟩ := h v rfl
    rw [Option.getD_some, Nat.mod_eq_of_lt h1, ptr_pos h0]

/-- A store into the link word of `b` changes the link of `b` alone. -/
theorem nextFree_store {m : Mem} {b f v : ℕ} (hb : b % 4 = 0) (hf : f % 4 = 0)
    (hb' : b + 8 ≤ 2 ^ 32) (hf' : f + 8 ≤ 2 ^ 32) :
    nextFree (m.store (add32 b tagSize) v) f =
      if f = b then ptr (v % 2 ^ 32) else nextFree m f := by
  unfold nextFree tagSize
  rw [add32_eq (by omega), add32_eq (by omega), Mem.load_store (by omega) (by omega)]
  by_cases h : f = b
  · rw [if_pos h, if_pos (by omega)]
  · rw [if_neg h, if_neg (by omega)]

/-- The link word of a node, as the set of bytes a store into it changes. -/
theorem link_bytes {b : ℕ} {fs : List ℕ} (hb : b ∈ fs) (hb' : b + 8 ≤ 2 ^ 32) :
    ∀ x, add32 b tagSize ≤ x → x < add32 b tagSize + 4 → x ∈ links fs := by
  intro x h1 h2
  rw [add32_eq (by unfold tagSize; omega)] at h1 h2
  unfold tagSize at h1 h2
  exact ⟨b, hb, h1, by omega⟩

/-- **`remove_free`** unlinks a listed block. -/
theorem removeFree_spec {h : Heap} {fs gs : List ℕ} {b : ℕ}
    (hseg : Seg (nextFree h.mem) (ptr h.freeList) (fs ++ b :: gs) none)
    (hn : Nodes (fs ++ b :: gs)) :
    ∃ h', h.removeFree b = some h' ∧
      Seg (nextFree h'.mem) (ptr h'.freeList) (fs ++ gs) none ∧ Edit (links fs) h h' := by
  have hnd := hseg.nodup
  have hfb : ∀ f ∈ fs, f ≠ b := by
    rintro f hf rfl
    exact (nodup_append.mp hnd).2.2 f hf f mem_cons_self rfl
  have hwalk : walk (nextFree h.mem) (fun curr => curr == b) listFuel none (ptr h.freeList) =
      some (fs.getLast?.or none, some b) :=
    walk_seg _ hseg (fun f hf => by simpa using hfb f hf) (fun f hf => by simpa using hf.symm)
      (Nat.lt_of_le_of_lt (by simp) hn.short)
  have hlink : ptr (h.mem.load (add32 b tagSize) % 2 ^ 32) = nextFree h.mem b := by
    rw [Nat.mod_eq_of_lt (Mem.load_lt ..)]
    rfl
  unfold removeFree
  rw [hwalk]
  rcases eq_nil_or_concat' fs with rfl | ⟨l, p, rfl⟩
  · -- the block is first: `free_list` moves on
    refine ⟨_, rfl, ?_, Edit.freeList _⟩
    have := hseg.unlink (nextFree h.mem) (by simp) (fun _ _ _ _ => rfl)
    rw [if_pos rfl] at this
    exact this
  · -- the predecessor takes over the link
    have hp : p ∈ (l ++ [p]) ++ b :: gs := by simp
    have hlast : (l ++ [p]).getLast? = some p := by simp
    have hstore : ∀ f ∈ (l ++ [p]) ++ b :: gs,
        nextFree (h.mem.store (add32 p tagSize) (h.mem.load (add32 b tagSize))) f =
          if f = p then nextFree h.mem b else nextFree h.mem f := by
      intro f hf
      rw [nextFree_store (hn.aligned p hp) (hn.aligned f hf) (hn.below p hp) (hn.below f hf),
        hlink]
    refine ⟨h.setWord (add32 p tagSize) (h.mem.load (add32 b tagSize)), ?_, ?_, ?_⟩
    · rw [hlast]
      rfl
    · have := hseg.unlink
        (nextFree (h.mem.store (add32 p tagSize) (h.mem.load (add32 b tagSize))))
        (by
          intro f hf
          rw [hlast] at hf
          cases hf
          rw [hstore p hp, if_pos rfl])
        (by
          intro f hf hl _
          rw [hstore f hf, if_neg (by rintro rfl; exact hl hlast)])
      rw [if_neg (by simp)] at this
      exact this
    · exact Edit.setWord (link_bytes (by simp) (hn.below p hp))

/-- **`insert_free`** links a block in at its place in the address order. -/
theorem insertFree_spec {h : Heap} {fs gs : List ℕ} {b : ℕ}
    (hseg : Seg (nextFree h.mem) (ptr h.freeList) (fs ++ gs) none)
    (hn : Nodes (fs ++ b :: gs)) (hlt : ∀ f ∈ fs, f < b) (hgt : ∀ g ∈ gs, b < g) :
    ∃ h', h.insertFree b = some h' ∧
      Seg (nextFree h'.mem) (ptr h'.freeList) (fs ++ b :: gs) none ∧
      Edit (links (b :: fs)) h h' := by
  have hb : b ∈ fs ++ b :: gs := by simp
  have hsub : ∀ f ∈ fs ++ gs, f ∈ fs ++ b :: gs := by
    intro f hf
    rcases mem_append.mp hf with hf | hf <;> simp [hf]
  have hwalk : walk (nextFree h.mem) (fun curr => !decide (curr < b)) listFuel none
      (ptr h.freeList) = some (fs.getLast?.or none, gs.head?) :=
    walk_seg _ hseg (fun f hf => by simpa using hlt f hf)
      (fun f hf => by simpa using Nat.le_of_lt (hgt f (mem_of_mem_head? hf)))
      (Nat.lt_of_le_of_lt (by simp) hn.short)
  have hnot : b ∉ fs ++ gs := by
    intro hbm
    rcases mem_append.mp hbm with hbm | hbm
    · exact Nat.lt_irrefl _ (hlt b hbm)
    · exact Nat.lt_irrefl _ (hgt b hbm)
  have hhead : ptr (gs.head?.getD 0 % 2 ^ 32) = gs.head? :=
    ptr_getD_mod fun v hv => by
      have hv' : v ∈ fs ++ b :: gs := by simp [mem_of_mem_head? hv]
      have := hn.below v hv'
      exact ⟨hn.pos v hv', by omega⟩
  unfold insertFree
  rw [hwalk]
  set m1 := h.mem.store (add32 b tagSize) (gs.head?.getD 0) with hm1
  have hstore1 : ∀ f ∈ fs ++ b :: gs,
      nextFree m1 f = if f = b then gs.head? else nextFree h.mem f := by
    intro f hf
    rw [hm1, nextFree_store (hn.aligned b hb) (hn.aligned f hf) (hn.below b hb)
      (hn.below f hf), hhead]
  rcases eq_nil_or_concat' fs with rfl | ⟨l, p, rfl⟩
  · -- the block becomes the first one
    refine ⟨{ (h.setWord (add32 b tagSize) (gs.head?.getD 0)) with freeList := b }, rfl, ?_,
      (Edit.setWord (link_bytes mem_cons_self (hn.below b hb))).trans
        (Edit.freeList b)⟩
    have := hseg.link (nextFree m1) (by rw [hstore1 b hb, if_pos rfl])
      (by simp) (fun f hf _ => by
        rw [hstore1 f (hsub f hf), if_neg (by rintro rfl; exact hnot hf)])
    rw [if_pos rfl, ← ptr_pos (hn.pos b hb)] at this
    exact this
  · -- the predecessor links to it
    have hlast : (l ++ [p]).getLast? = some p := by simp
    have hp : p ∈ (l ++ [p]) ++ b :: gs := by simp
    have hpb : p ≠ b := Nat.ne_of_lt (hlt p (by simp))
    have hbmod : ptr (b % 2 ^ 32) = some b := by
      have := hn.below b hb
      rw [Nat.mod_eq_of_lt (by omega), ptr_pos (hn.pos b hb)]
    have hstore2 : ∀ f ∈ (l ++ [p]) ++ b :: gs,
        nextFree (m1.store (add32 p tagSize) b) f =
          if f = p then some b else if f = b then gs.head? else nextFree h.mem f := by
      intro f hf
      rw [nextFree_store (hn.aligned p hp) (hn.aligned f hf) (hn.below p hp)
        (hn.below f hf), hbmod, hstore1 f hf]
    refine ⟨(h.setWord (add32 b tagSize) (gs.head?.getD 0)).setWord (add32 p tagSize) b, ?_, ?_,
      (Edit.setWord (link_bytes mem_cons_self (hn.below b hb))).trans
        (Edit.setWord (link_bytes (by simp) (hn.below p hp)))⟩
    · rw [hlast]
      rfl
    · have := hseg.link (nextFree (m1.store (add32 p tagSize) b))
        (by rw [hstore2 b hb, if_neg hpb.symm, if_pos rfl])
        (by
          intro f hf
          rw [hlast] at hf
          cases hf
          rw [hstore2 p hp, if_pos rfl])
        (by
          intro f hf hl
          rw [hstore2 f (hsub f hf), if_neg (by rintro rfl; exact hl hlast),
            if_neg (by rintro rfl; exact hnot hf)])
      rw [if_neg (by simp)] at this
      exact this

end PokuOS

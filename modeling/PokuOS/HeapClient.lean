import Mathlib.Data.List.Forall2
import PokuOS.HeapGrow
import PokuOS.HeapFree

/-!
# The heap and its clients

The allocator as its callers see it: a system whose events are `kmalloc`, `kfree` and writes
into allocated bytes, and whose state also remembers (as a ghost) which requests are live.
The runs are those of well-behaved clients: a pointer is given back at most once, and only
the requested bytes are written.

The invariant of all runs (`ClientInv`) ties the live requests to the used cells of a
represented heap, one to one. Everything callers rely on follows: alignment, disjointness,
and that no call touches the bytes of somebody else's allocation.
-/

namespace PokuOS

open Function Heap List Sized

/-! ## `kmalloc` at the level of used blocks -/

variable {cs : List Cell}

section Kmalloc

variable {h : Heap} {n : ℕ}

/-- The block size for a request, as long as nothing overflows: whole words and both tags. -/
theorem totalSize_eq (hmax : n ≤ 2 ^ 32 - 12) :
    totalSize n = max (4 * ((n + 3) / 4) + 8) minBlockSize := by
  have hround : (n + 3) &&& 0xFFFFFFFC = 4 * ((n + 3) / 4) := by
    have hsplit : n + 3 = 4 * ((n + 3) / 4) + (n + 3) % 4 := by omega
    conv_lhs => rw [hsplit]
    rw [and_high (by omega) (by omega) (by omega) (by decide), Nat.and_zero, Nat.add_zero]
  have hsum : add32 (add32 (add32 n 3 &&& 0xFFFFFFFC) tagSize) tagSize =
      4 * ((n + 3) / 4) + 8 := by
    unfold tagSize
    rw [add32_eq (show n + 3 < 2 ^ 32 by omega), hround,
      add32_eq (show 4 * ((n + 3) / 4) + 4 < 2 ^ 32 by omega), add32_eq (by omega)]
  rw [totalSize, hsum]

/-- The block size for a request: whole words, large enough for the request and both tags. -/
theorem totalSize_spec (hn : 0 < n) (hmax : n ≤ 2 ^ 31) :
    totalSize n % 4 = 0 ∧ 16 ≤ totalSize n ∧ n + 8 ≤ totalSize n ∧
      totalSize n ≤ 2 ^ 31 + 16 := by
  rw [totalSize_eq (by omega), minBlockSize]
  omega

theorem usedBlocks_grown (a k : ℕ) (cs : List Cell) :
    usedBlocks a (grown k cs) = usedBlocks a cs := by
  rcases eq_nil_or_concat' cs with rfl | ⟨l, ⟨s, _ | _⟩, rfl⟩
  · rfl
  · rw [grown_concat, if_neg (by simp), usedBlocks_append]
    simp
  · rw [grown_concat, if_pos rfl, usedBlocks_append, usedBlocks_append]
    rfl

/-- Taking a free block adds one used block, large enough for the request. -/
theorem carve_used {l1 l2 : List Cell} {s : ℕ} (r : Rep h cs) (hcs : cs = l1 ++ ⟨s, true⟩ :: l2)
    (hn : n % 4 = 0 ∧ 16 ≤ n) (hfit : n ≤ s) :
    ∃ h' cs' b t us vs, h.carve (blockAt l1) n = some (b + 4, h') ∧ Rep h' cs' ∧ n ≤ t ∧
      usedBlocks heapVirtStart cs = us ++ vs ∧
      usedBlocks heapVirtStart cs' = us ++ (b, t) :: vs ∧
      ∀ x ∈ clientBytes cs, h'.mem x = h.mem x := by
  subst hcs
  obtain ⟨h', hcarve, r', e⟩ := carve_spec r hn hfit
  have hkeep : ∀ x ∈ clientBytes (l1 ++ ⟨s, true⟩ :: l2), h'.mem x = h.mem x := fun x hx =>
    e.mem x (not_mem_workArea (append.mp r.sized).1 hx)
  have hbefore : usedBlocks heapVirtStart (l1 ++ ⟨s, true⟩ :: l2) =
      usedBlocks heapVirtStart l1 ++ usedBlocks (blockAt l1 + s) l2 :=
    usedBlocks_append _ _ _
  by_cases hrest : n + minBlockSize ≤ s
  · refine ⟨h', _, blockAt l1, n, _, _, hcarve, r', Nat.le_refl n, hbefore, ?_, hkeep⟩
    have hend : heapVirtStart + span l1 + n + (s - n) = blockAt l1 + s := by
      unfold blockAt
      omega
    rw [carved, if_pos hrest, usedBlocks_append]
    simp only [cons_append, nil_append, usedBlocks_cons_used, usedBlocks_cons_free, hend]
    rfl
  · refine ⟨h', _, blockAt l1, s, _, _, hcarve, r', hfit, hbefore, ?_, hkeep⟩
    rw [carved, if_neg hrest, usedBlocks_append]
    rfl

/-- What a call of `kmalloc` that found `(p, h')` did. -/
structure Allocated (h : Heap) (cs : List Cell) (n p : ℕ) (h' : Heap) (cs' : List Cell) :
    Prop where
  /-- the heap is in order -/
  rep : Rep h' cs'
  /-- allocated bytes are as they were -/
  keep : ∀ x ∈ clientBytes cs, h'.mem x = h.mem x
  /-- on success there is one more used block, and it is large enough; on failure none -/
  used : p = 0 ∧ usedBlocks heapVirtStart cs' = usedBlocks heapVirtStart cs ∨
    ∃ b t us vs, p = b + 4 ∧ n + 8 ≤ t ∧ usedBlocks heapVirtStart cs = us ++ vs ∧
      usedBlocks heapVirtStart cs' = us ++ (b, t) :: vs

theorem kmalloc_of_fit {b : ℕ} (hn : n ≠ 0) (hfit : h.findFit (totalSize n) = some (some b)) :
    h.kmalloc n = h.carve b (totalSize n) := by
  unfold kmalloc
  rw [if_neg hn, bind_of_some hfit]

theorem kmalloc_of_grow {ok : Bool} {h1 : Heap} (hn : n ≠ 0)
    (hfit : h.findFit (totalSize n) = some none)
    (hgrow : h.growHeap (totalSize n) = some (ok, h1)) :
    h.kmalloc n = if ok then h1.findFit (totalSize n) >>= fun fb =>
      match fb with
      | some fb => h1.carve fb (totalSize n)
      | none => some (0, h1) else some (0, h1) := by
  unfold kmalloc
  rw [if_neg hn, bind_of_some hfit]
  exact bind_of_some hgrow _

/-- **`kmalloc`** of up to `2 ^ 31` bytes always returns, with an allocation or with `NULL`. -/
theorem kmalloc_spec (r : Rep h cs) (hmax : n ≤ 2 ^ 31) :
    ∃ p h' cs', h.kmalloc n = some (p, h') ∧ Allocated h cs n p h' cs' := by
  rcases Nat.eq_zero_or_pos n with rfl | hn
  · exact ⟨0, h, cs, rfl, r, fun _ _ => rfl, .inl ⟨rfl, rfl⟩⟩
  obtain ⟨hmod, hmin, hbig, hlt⟩ := totalSize_spec hn hmax
  rcases findFit_spec r (totalSize n) with ⟨l1, s, l2, hcs, hle, hfit⟩ | ⟨-, hfit⟩
  · -- a block fits
    obtain ⟨h', cs', b, t, us, vs, hcarve, r', ht, hus, hus', hkeep⟩ :=
      carve_used r hcs ⟨hmod, hmin⟩ hle
    refine ⟨b + 4, h', cs', ?_, r', hkeep, .inr ⟨b, t, us, vs, rfl, by omega, hus, hus'⟩⟩
    rw [kmalloc_of_fit (by omega) hfit, hcarve]
  · -- none does: the heap grows first
    obtain ⟨ok, h1, hgrow, r1, hkeep1⟩ := growHeap_spec r (Nat.lt_of_lt_of_le (by decide) hmin)
      (by unfold pageSize; omega)
    have heval := kmalloc_of_grow (Nat.pos_iff_ne_zero.mp hn) hfit hgrow
    cases ok with
    | false => exact ⟨0, h1, cs, heval, r1, hkeep1, .inl ⟨rfl, rfl⟩⟩
    | true =>
      have hused := usedBlocks_grown heapVirtStart (growPages (totalSize n) * pageSize) cs
      rw [if_pos rfl] at r1 heval
      have hclient : ∀ x ∈ clientBytes cs,
          x ∈ clientBytes (grown (growPages (totalSize n) * pageSize) cs) := fun x hx => by
        unfold clientBytes at hx ⊢
        rw [mem_payload_used] at hx ⊢
        rw [hused]
        exact hx
      rcases findFit_spec r1 (totalSize n) with ⟨l1, s, l2, hcs, hle, hfit1⟩ | ⟨-, hfit1⟩
      · obtain ⟨h', cs', b, t, us, vs, hcarve, r', ht, hus, hus', hkeep⟩ :=
          carve_used r1 hcs ⟨hmod, hmin⟩ hle
        rw [hused] at hus
        refine ⟨b + 4, h', cs', ?_, r', fun x hx => ?_,
          .inr ⟨b, t, us, vs, rfl, by omega, hus, hus'⟩⟩
        · rw [heval, bind_of_some hfit1]
          exact hcarve
        · rw [hkeep x (hclient x hx), hkeep1 x hx]
      · refine ⟨0, h1, _, ?_, r1, hkeep1, .inl ⟨rfl, hused⟩⟩
        rw [heval, bind_of_some hfit1]

end Kmalloc

/-! ## `heap_init` -/

theorem initPages_vars (n : ℕ) : ∀ (h : Heap) (i : ℕ),
    (h.initPages i n).heapBrk = h.heapBrk ∧
      (h.initPages i n).frames.granted ≤ h.frames.granted := by
  induction n with
  | zero => exact fun h i => ⟨rfl, Nat.le_refl _⟩
  | succ n ih =>
    intro h i
    have hstep : (h.expandHeap (add32 h.heapBrk (i * pageSize))).2.heapBrk = h.heapBrk ∧
        (h.expandHeap (add32 h.heapBrk (i * pageSize))).2.frames.granted ≤ h.frames.granted := by
      obtain ⟨hnone, hsome⟩ := allocPageFrame_granted h.frames
      unfold expandHeap
      rcases hframe : h.frames.allocPageFrame with ⟨_ | page, frames⟩
      · rw [hframe] at hnone
        exact ⟨rfl, hnone rfl⟩
      · rw [hframe] at hsome
        exact ⟨rfl, hsome page rfl ▸ Nat.le_succ _⟩
    obtain ⟨hbrk, hgranted⟩ := ih _ (i + 1)
    exact ⟨hbrk.trans hstep.1, hgranted.trans hstep.2⟩

/-- **`heap_init`** leaves one free block, whatever memory and however many frames it found. -/
theorem heapInit_rep (mem : Mem) (frames : FrameSupply) :
    Rep (heapInit mem frames) [⟨heapInitPages * pageSize, true⟩] := by
  obtain ⟨hbrk, hgranted⟩ := initPages_vars heapInitPages
    ⟨mem, 0, heapVirtStart, heapVirtStart, frames⟩ 0
  generalize hh0 : (⟨mem, 0, heapVirtStart, heapVirtStart, frames⟩ : Heap).initPages 0
    heapInitPages = h0 at hbrk hgranted
  have hsize : heapInitPages * pageSize = 0x40000 := by decide
  have hstart : heapVirtStart = 0xD0000000 := rfl
  have hword : heapInitPages * pageSize ||| blockFlagFree =
      tagWord ⟨heapInitPages * pageSize, true⟩ false := by decide
  -- the three words written
  set m1 := (h0.mem.store heapVirtStart (tagWord ⟨heapInitPages * pageSize, true⟩ false)).store
    (heapVirtStart + 4) 0 with hm1
  set m := m1.store (heapVirtStart + heapInitPages * pageSize - 4) (heapInitPages * pageSize)
    with hm
  have hheader1 : m1.load heapVirtStart = tagWord ⟨heapInitPages * pageSize, true⟩ false := by
    rw [hm1, Mem.load_store_of_disjoint (by omega), Mem.load_store_self,
      tagWord_mod (by simp only; omega)]
  have hheader : m.load heapVirtStart = tagWord ⟨heapInitPages * pageSize, true⟩ false := by
    rw [hm, Mem.load_store_of_disjoint (by omega), hheader1]
  have hfooter : m.load (heapVirtStart + heapInitPages * pageSize - 4) =
      heapInitPages * pageSize := by
    rw [hm, Mem.load_store_self, Nat.mod_eq_of_lt (by omega)]
  have hlink : nextFree m heapVirtStart = none := by
    unfold nextFree tagSize
    rw [add32_eq (by omega), hm, Mem.load_store_of_disjoint (by omega), hm1,
      Mem.load_store_self]
    rfl
  have hfoot1 : blockFooter m1 heapVirtStart = heapVirtStart + heapInitPages * pageSize - 4 := by
    rw [blockFooter, blockSize_eq hheader1 (by decide) (by decide)]
    decide
  have hinit : heapInit mem frames =
      ⟨m, heapVirtStart, heapVirtStart + heapInitPages * pageSize,
        heapVirtStart + heapInitPages * pageSize, h0.frames⟩ := by
    unfold heapInit
    simp only [hh0, setWord, hword, tagSize, add32_eq (show heapVirtStart + 4 < 2 ^ 32 by omega),
      ← hm1, hfoot1, ← hm, hbrk,
      add32_eq (show heapVirtStart + heapInitPages * pageSize < 2 ^ 32 by omega)]
  rw [hinit]
  refine ⟨by simp, ?_, by simp, ⟨hheader, hfooter, trivial⟩, ?_, rfl, rfl, ?_⟩
  · intro c hc
    obtain rfl := mem_singleton.mp hc
    decide
  · have hfirst : ptr heapVirtStart = some heapVirtStart := ptr_pos (by decide)
    simp only [freeAddrs_cons_free, freeAddrs_nil, seg_cons, seg_nil, hfirst, hlink, true_and]
  · have hmul : h0.frames.granted * pageSize ≤ numPages * pageSize :=
      Nat.mul_le_mul_right _ (hgranted.trans frames.bounded)
    have hlimit : heapLimit = heapVirtStart + heapInitPages * pageSize + numPages * pageSize := by
      decide
    rw [hlimit]
    exact Nat.add_le_add_left hmul _

/-! ## The system -/

/-- The heap, with the requests that are live: pointer and number of bytes. -/
structure ClientState where
  /-- the allocator -/
  heap : Heap
  /-- what `kmalloc` returned and `kfree` has not yet taken back -/
  live : List (ℕ × ℕ)

/-- What clients do. -/
inductive HeapCall where
  /-- ask for `size` bytes -/
  | kmalloc (size : ℕ)
  /-- give a pointer back -/
  | kfree (ptr : ℕ)
  /-- write one byte -/
  | write (addr : ℕ) (byte : UInt8)

/-- The heap under well-behaved clients. -/
def heapSystem : System ClientState HeapCall where
  init s := ∃ mem frames, s = ⟨heapInit mem frames, []⟩
  allowed s
    | .kmalloc size => size ≤ 2 ^ 31
    | .kfree ptr => ptr = 0 ∨ ∃ size, (ptr, size) ∈ s.live
    | .write addr _ => ∃ a ∈ s.live, a.1 ≤ addr ∧ addr < a.1 + a.2
  step s
    | .kmalloc size => do
      let (ptr, heap) ← s.heap.kmalloc size
      return ⟨heap, if ptr = 0 then s.live else (ptr, size) :: s.live⟩
    | .kfree ptr => do
      let heap ← s.heap.kfree ptr
      return ⟨heap, s.live.eraseP (·.1 == ptr)⟩
    | .write addr byte =>
      some { s with heap := { s.heap with mem := update s.heap.mem addr byte } }

/-- A live request sits in a used block. -/
def Holds (a u : ℕ × ℕ) : Prop := a.1 = u.1 + 4 ∧ a.2 + 8 ≤ u.2

/-- **The invariant of all runs**: the heap represents a tiling whose used cells are the live
requests, one to one. -/
def ClientInv (s : ClientState) : Prop :=
  ∃ cs us, Rep s.heap cs ∧ us.Perm (usedBlocks heapVirtStart cs) ∧
    List.Forall₂ Holds s.live us

section Invariant

variable {s : ClientState}

/-- The bytes of a live request are client bytes of the tiling. -/
theorem Holds.mem_clientBytes {a u : ℕ × ℕ} (ha : Holds a u)
    (hu : u ∈ usedBlocks heapVirtStart cs) {x : ℕ} (h1 : a.1 ≤ x) (h2 : x < a.1 + a.2) :
    x ∈ clientBytes cs := by
  obtain ⟨hp, hn⟩ := ha
  exact mem_payload_used.mpr ⟨u, hu, by omega, by omega⟩

/-- Related lists split around a member of the first. -/
theorem forall₂_split {α β : Type*} {R : α → β → Prop} {l1 l2 : List α} {a : α} {m : List β}
    (h : List.Forall₂ R (l1 ++ a :: l2) m) :
    ∃ m1 b m2, m = m1 ++ b :: m2 ∧ List.Forall₂ R l1 m1 ∧ R a b ∧ List.Forall₂ R l2 m2 := by
  induction l1 generalizing m with
  | nil =>
    obtain ⟨b, m2, hab, h2, rfl⟩ := forall₂_cons_left_iff.mp h
    exact ⟨[], b, m2, rfl, List.Forall₂.nil, hab, h2⟩
  | cons c l1 ih =>
    obtain ⟨d, m', hcd, h', rfl⟩ := forall₂_cons_left_iff.mp h
    obtain ⟨m1, b, m2, rfl, h1, hab, h2⟩ := ih h'
    exact ⟨d :: m1, b, m2, rfl, List.Forall₂.cons hcd h1, hab, h2⟩

theorem holds_of_mem {live us : List (ℕ × ℕ)} {a : ℕ × ℕ}
    (hperm : us.Perm (usedBlocks heapVirtStart cs)) (hlive : List.Forall₂ Holds live us)
    (ha : a ∈ live) : ∃ u ∈ usedBlocks heapVirtStart cs, Holds a u := by
  obtain ⟨l1, l2, rfl⟩ := append_of_mem ha
  obtain ⟨m1, u, m2, rfl, -, hau, -⟩ := forall₂_split hlive
  exact ⟨u, hperm.mem_iff.mp (mem_append_right _ mem_cons_self), hau⟩

/-- **`kmalloc` in a run.** -/
theorem ClientInv.kmalloc {n : ℕ} (hi : ClientInv s) (hmax : n ≤ 2 ^ 31) :
    ∃ p h' cs cs' us, s.heap.kmalloc n = some (p, h') ∧ Allocated s.heap cs n p h' cs' ∧
      Rep s.heap cs ∧ us.Perm (usedBlocks heapVirtStart cs) ∧ List.Forall₂ Holds s.live us ∧
      ClientInv ⟨h', if p = 0 then s.live else (p, n) :: s.live⟩ := by
  obtain ⟨cs, us, r, hperm, hlive⟩ := hi
  obtain ⟨p, h', cs', heval, hall⟩ := kmalloc_spec r hmax
  refine ⟨p, h', cs, cs', us, heval, hall, r, hperm, hlive, ?_⟩
  rcases hall.used with ⟨rfl, hused⟩ | ⟨b, t, vs, ws, rfl, ht, hold, hnew⟩
  · exact ⟨cs', us, hall.rep, hused ▸ hperm, hlive⟩
  · rw [if_neg (by omega)]
    refine ⟨cs', (b, t) :: us, hall.rep, ?_, List.Forall₂.cons ⟨rfl, ht⟩ hlive⟩
    rw [hnew]
    rw [hold] at hperm
    exact (hperm.cons _).trans perm_middle.symm

/-- **`kfree` in a run.** -/
theorem ClientInv.kfree {p n : ℕ} (hi : ClientInv s) (hp : (p, n) ∈ s.live) :
    ∃ h' cs' us', s.heap.kfree p = some h' ∧ Rep h' cs' ∧
      us'.Perm (usedBlocks heapVirtStart cs') ∧
      List.Forall₂ Holds (s.live.eraseP (·.1 == p)) us' ∧
      ∀ x ∈ clientBytes cs', h'.mem x = s.heap.mem x := by
  obtain ⟨cs, us, r, hperm, hlive⟩ := hi
  obtain ⟨a, l1, l2, -, ha, hsplit, herase⟩ :=
    exists_of_eraseP (p := fun a : ℕ × ℕ => a.1 == p) hp (by simp)
  obtain rfl : a.1 = p := by simpa using ha
  rw [hsplit] at hlive
  obtain ⟨us1, ⟨b, t⟩, us2, rfl, h1, ⟨hab, -⟩, h2⟩ := forall₂_split hlive
  have hmem : (b, t) ∈ usedBlocks heapVirtStart cs :=
    hperm.mem_iff.mp (mem_append_right _ mem_cons_self)
  obtain ⟨vs, ws, hvs⟩ := append_of_mem hmem
  obtain ⟨h', cs', hfree, r', hused, hkeep⟩ := kfree_spec r hvs
  refine ⟨h', cs', us1 ++ us2, ?_, r', ?_, ?_, hkeep⟩
  · rw [hab]
    exact hfree
  · rw [hused]
    rw [hvs] at hperm
    exact (perm_middle.symm.trans (hperm.trans perm_middle)).cons_inv
  · rw [herase]
    exact rel_append h1 h2

/-- **A client write in a run**: payloads carry no tags and no links of the free list. -/
theorem ClientInv.write {x : ℕ} {v : UInt8} (hi : ClientInv s)
    (hx : ∃ a ∈ s.live, a.1 ≤ x ∧ x < a.1 + a.2) :
    ClientInv { s with heap := { s.heap with mem := update s.heap.mem x v } } := by
  obtain ⟨cs, us, r, hperm, hlive⟩ := hi
  obtain ⟨a, ha, h1, h2⟩ := hx
  obtain ⟨u, hu, hau⟩ := holds_of_mem hperm hlive ha
  have hclient : x ∈ clientBytes cs := hau.mem_clientBytes hu h1 h2
  have hs : Mem.SameOff {x} s.heap.mem (update s.heap.mem x v) := fun y hy =>
    update_of_ne hy _ _
  refine ⟨cs, us, ⟨r.nonempty, r.sized, r.coalesced, ?_, ?_, r.brk, r.fin, r.room⟩, hperm,
    hlive⟩
  · refine r.tagged.sameOff r.sized hs fun y hy => .inr (.inr ?_)
    obtain rfl := hy
    exact payload_mono (fun _ _ => trivial) _ _ hclient
  · refine r.chain.congr fun f hf => ?_
    have := (nodes_freeAddrs r.sized (r.brk ▸ r.brk_le)).below f hf
    unfold nextFree tagSize
    rw [add32_eq (by omega), hs.load_eq]
    rintro y h3 h4 rfl
    -- a link word is in the payload of a free cell
    refine payload_disjoint (fun c hc hc' => ?_) hclient (links_freeAddrs_subset r.sized
      ⟨f, hf, h3, by omega⟩)
    rw [hc] at hc'
    exact Bool.false_ne_true hc'

/-- `kfree(NULL)` does nothing: no live pointer is `NULL`. -/
theorem ClientInv.eraseP_zero (hi : ClientInv s) : s.live.eraseP (·.1 == 0) = s.live := by
  obtain ⟨cs, us, -, hperm, hlive⟩ := hi
  refine eraseP_of_forall_not fun a ha => ?_
  obtain ⟨u, -, hau, -⟩ := holds_of_mem hperm hlive ha
  simp [hau]

/-- **One step**: a call that is allowed returns, and keeps the invariant. -/
theorem ClientInv.step {e : HeapCall} (hi : ClientInv s) (ha : heapSystem.allowed s e) :
    ∃ s', heapSystem.step s e = some s' ∧ ClientInv s' := by
  cases e with
  | kmalloc n =>
    obtain ⟨p, h', cs, cs', us, heval, -, -, -, -, hinv⟩ := hi.kmalloc ha
    exact ⟨_, bind_of_some heval _, hinv⟩
  | kfree p =>
    rcases ha with rfl | ⟨n, hp⟩
    · refine ⟨s, ?_, hi⟩
      change some (ClientState.mk s.heap (s.live.eraseP (·.1 == 0))) = some s
      rw [hi.eraseP_zero]
    · obtain ⟨h', cs', us', heval, r', hperm, hlive, -⟩ := hi.kfree hp
      exact ⟨_, bind_of_some heval _, cs', us', r', hperm, hlive⟩
  | write x v => exact ⟨_, rfl, hi.write ha⟩

/-- **Every run** keeps the invariant. -/
theorem clientInv_of_reachable (hr : heapSystem.Reachable s) : ClientInv s := by
  refine System.Reachable.invariant ?_ ?_ hr
  · rintro _ ⟨mem, frames, rfl⟩
    exact ⟨_, [], heapInit_rep mem frames, List.Perm.refl _, List.Forall₂.nil⟩
  · intro s e s' hi ha hs
    obtain ⟨s1, hs1, hi1⟩ := hi.step ha
    rw [hs] at hs1
    exact Option.some.inj hs1 ▸ hi1

end Invariant

/-! ## What the words of a heap in a run look like -/

/-- The heap region is in order: `blocks` lists its blocks from `HEAP_VIRT_START` on, with the
size and the `FREE` bit their headers carry. -/
structure WellFormed (h : Heap) (blocks : List Cell) : Prop where
  /-- the blocks tile the region up to `heap_brk` -/
  tiles : heapVirtStart + span blocks = h.heapBrk
  /-- sizes are multiples of 4 and at least 16 -/
  sizes : ∀ c ∈ blocks, c.size % 4 = 0 ∧ 16 ≤ c.size
  /-- a header carries the size and the `FREE` bit of its block -/
  header : ∀ l₁ c l₂, blocks = l₁ ++ c :: l₂ →
    blockSize h.mem (heapVirtStart + span l₁) = c.size ∧
      blockIsFree h.mem (heapVirtStart + span l₁) = c.free
  /-- `free_list` is strictly address-ordered, and has exactly the blocks whose `FREE` bit is
  set -/
  list : ∃ fs : List ℕ, Seg (nextFree h.mem) (ptr h.freeList) fs none ∧ fs.Pairwise (· < ·) ∧
    ∀ a, a ∈ fs ↔ ∃ l₁ c l₂, blocks = l₁ ++ c :: l₂ ∧ a = heapVirtStart + span l₁ ∧
      blockIsFree h.mem a = true
  /-- no two adjacent blocks are both free -/
  coalesced : ∀ l₁ c d l₂, blocks = l₁ ++ c :: d :: l₂ → ¬ (c.free = true ∧ d.free = true)
  /-- the first block's `PREV_FREE` bit is clear -/
  prevFirst : h.mem.load heapVirtStart &&& blockFlagPrevFree = 0
  /-- the `PREV_FREE` bit of every other block says whether the block before it is free -/
  prevFree : ∀ l₁ c d l₂, blocks = l₁ ++ c :: d :: l₂ →
    (h.mem.load (heapVirtStart + span l₁ + c.size) &&& blockFlagPrevFree ≠ 0 ↔ c.free = true)
  /-- every footer is the size of its block -/
  footer : ∀ l₁ c l₂, blocks = l₁ ++ c :: l₂ →
    h.mem.load (heapVirtStart + span l₁ + c.size - 4) = c.size

theorem Rep.wellFormed {h : Heap} (r : Rep h cs) : WellFormed h cs := by
  have hfree : ∀ l1 c l2, cs = l1 ++ c :: l2 →
      blockIsFree h.mem (heapVirtStart + span l1) = c.free := by
    rintro l1 c l2 rfl
    exact blockIsFree_eq (tagged_append.mp r.tagged).2.1
      (cons.mp (append.mp r.sized).2).1.1
  refine ⟨r.brk.symm, r.sized, ?_, ⟨_, r.chain, freeAddrs_sorted _ r.sized, fun a => ?_⟩, ?_, ?_,
    ?_, ?_⟩
  · rintro l1 c l2 rfl
    exact ⟨r.blockSize, hfree l1 c l2 rfl⟩
  · constructor
    · intro ha
      obtain ⟨l1, s, l2, hcs, rfl⟩ := mem_freeAddrs ha
      exact ⟨l1, ⟨s, true⟩, l2, hcs, rfl, hfree l1 _ l2 hcs⟩
    · rintro ⟨l1, c, l2, hcs, rfl, hc⟩
      rw [hfree l1 c l2 hcs] at hc
      rw [hcs, freeAddrs_append, freeAddrs_cons, if_pos hc]
      exact mem_append_right _ mem_cons_self
  · rintro l1 c d l2 rfl
    exact (coalesced_append.mp r.coalesced).2.2.1
  · obtain ⟨c, l, rfl⟩ := exists_cons_of_ne_nil r.nonempty
    exact prevFlag_eq r.tagged.1 (cons.mp r.sized).1.1
  · rintro l1 c d l2 rfl
    have hd := (cons.mp (cons.mp (append.mp r.sized).2).2).1.1
    rw [prevFlag_eq (tagged_append.mp r.tagged).2.2.2.1 hd]
    cases c.free <;> simp
  · rintro l1 c l2 rfl
    exact (tagged_append.mp r.tagged).2.2.1

/-- **The heap is well formed in every run, and every call returns.** -/
theorem heap_wellFormed {s : ClientState} (hr : heapSystem.Reachable s) :
    (∃ blocks, WellFormed s.heap blocks) ∧
      ∀ e, heapSystem.allowed s e → ∃ s', heapSystem.step s e = some s' := by
  have hi := clientInv_of_reachable hr
  refine ⟨?_, fun e ha => ?_⟩
  · obtain ⟨cs, -, r, -, -⟩ := hi
    exact ⟨cs, r.wellFormed⟩
  · obtain ⟨s', hs, -⟩ := hi.step ha
    exact ⟨s', hs⟩

/-- The heap right after `heap_init`, on blank memory and with no frame left. -/
def blankHeap : ClientState := ⟨heapInit (fun _ => 0) ⟨[], Nat.zero_le _⟩, []⟩

theorem blankHeap_reachable : heapSystem.Reachable blankHeap := .init ⟨_, _, rfl⟩

/-- The test a client call has to pass, in decidable form. -/
def checkedCall (s : ClientState) : HeapCall → Bool
  | .kmalloc size => decide (size ≤ 2 ^ 31)
  | .kfree ptr => ptr == 0 || s.live.any fun a => a.1 == ptr
  | .write addr _ => s.live.any fun a => decide (a.1 ≤ addr) && decide (addr < a.1 + a.2)

theorem checkedCall_allowed (s : ClientState) (e : HeapCall) (h : checkedCall s e = true) :
    heapSystem.allowed s e := by
  cases e with
  | kmalloc size =>
    have hsize : size ≤ 2 ^ 31 := of_decide_eq_true h
    exact hsize
  | kfree p =>
    rcases Bool.or_eq_true_iff.mp h with hp | hp
    · exact .inl (eq_of_beq hp)
    · obtain ⟨a, ha, hap⟩ := any_eq_true.mp hp
      exact .inr ⟨a.2, eq_of_beq hap ▸ ha⟩
  | write x v =>
    obtain ⟨a, ha, hx⟩ := any_eq_true.mp h
    obtain ⟨h1, h2⟩ := Bool.and_eq_true_iff.mp hx
    exact ⟨a, ha, of_decide_eq_true h1, of_decide_eq_true h2⟩

/-- Two requests, given back in the order in which they were made. -/
def releaseRun : List HeapCall :=
  [.kmalloc 64, .kmalloc 300, .kfree (heapVirtStart + 4), .kfree (heapVirtStart + 76)]

/-- The first of two blocks is given back: a free block, a used one and the free rest. -/
theorem heap_wellFormed_mixed :
    ∃ s, heapSystem.Reachable s ∧ s.live = [(heapVirtStart + 76, 300)] ∧
      blockIsFree s.heap.mem heapVirtStart = true ∧
      blockIsFree s.heap.mem (heapVirtStart + 72) = false ∧
      blockIsFree s.heap.mem (heapVirtStart + 380) = true ∧
      (∃ blocks, WellFormed s.heap blocks) ∧
      ∃ s', heapSystem.step s (.kfree (heapVirtStart + 76)) = some s' := by
  obtain ⟨s, hr, hlive, h1, h2, h3⟩ := System.exists_reachable (fun s e => checkedCall s e)
    (releaseRun.take 3) (fun s => s.live = [(heapVirtStart + 76, 300)] ∧
      blockIsFree s.heap.mem heapVirtStart = true ∧
      blockIsFree s.heap.mem (heapVirtStart + 72) = false ∧
      blockIsFree s.heap.mem (heapVirtStart + 380) = true)
    checkedCall_allowed blankHeap_reachable (by decide +kernel)
  obtain ⟨hwf, hreturns⟩ := heap_wellFormed hr
  exact ⟨s, hr, hlive, h1, h2, h3, hwf,
    hreturns _ (.inr ⟨300, by rw [hlive]; exact mem_cons_self⟩)⟩

/-! ## What clients get -/

/-- Two byte ranges, each an address and a length, have no byte in common. -/
def Apart (a b : ℕ × ℕ) : Prop := a.1 + a.2 ≤ b.1 ∨ b.1 + b.2 ≤ a.1

/-- What the heap promises its clients in a state. -/
structure Contract (s : ClientState) : Prop where
  /-- calls return -/
  returns : ∀ e, heapSystem.allowed s e → ∃ s', heapSystem.step s e = some s'
  /-- a request is granted in words, inside the heap, and apart from all that is live -/
  granted : ∀ n p h', n ≤ 2 ^ 31 → s.heap.kmalloc n = some (p, h') → p ≠ 0 →
    p % 4 = 0 ∧ heapVirtStart ≤ p ∧ p + n ≤ h'.heapBrk ∧ ∀ a ∈ s.live, Apart (p, n) a
  /-- `kmalloc` changes no byte of a live allocation -/
  kmalloc : ∀ n p h', n ≤ 2 ^ 31 → s.heap.kmalloc n = some (p, h') →
    ∀ a ∈ s.live, ∀ x, a.1 ≤ x → x < a.1 + a.2 → h'.mem x = s.heap.mem x
  /-- `kfree` of a live pointer changes no byte of an allocation that stays live -/
  kfree : ∀ p n h', (p, n) ∈ s.live → s.heap.kfree p = some h' →
    ∀ a ∈ s.live, a.1 ≠ p → ∀ x, a.1 ≤ x → x < a.1 + a.2 → h'.mem x = s.heap.mem x

/-- A new used block is apart from all others. -/
theorem pairwise_insert_apart {us vs : List (ℕ × ℕ)} {u v : ℕ × ℕ}
    (hp : (us ++ u :: vs).Pairwise (fun u v => u.1 + u.2 ≤ v.1)) (hv : v ∈ us ++ vs) :
    Apart u v := by
  obtain ⟨-, hp2, hcross⟩ := pairwise_append.mp hp
  rcases mem_append.mp hv with hv | hv
  · exact .inr (hcross v hv u mem_cons_self)
  · exact .inl ((pairwise_cons.mp hp2).1 v hv)

/-- **The client contract holds in every run.** -/
theorem heap_contract {s : ClientState} (hr : heapSystem.Reachable s) : Contract s := by
  have hi := clientInv_of_reachable hr
  refine ⟨fun e ha => ?_, fun n p h' hmax heval hp => ?_,
    fun n p h' hmax heval a ha x h1 h2 => ?_, fun p n h' hp heval a ha hne x h1 h2 => ?_⟩
  · obtain ⟨s', hs, -⟩ := hi.step ha
    exact ⟨s', hs⟩
  · obtain ⟨p', h'', cs, cs', us, heval', hall, r, hperm, hlive, -⟩ := hi.kmalloc hmax
    rw [heval] at heval'
    cases heval'
    rcases hall.used with ⟨rfl, -⟩ | ⟨b, t, vs, ws, rfl, ht, hold, hnew⟩
    · exact absurd rfl hp
    -- the new block among the used ones
    obtain ⟨hpair, hbounds⟩ := usedBlocks_pairwise heapVirtStart cs'
    rw [hnew] at hpair hbounds
    obtain ⟨hlo, hhi⟩ := hbounds (b, t) (mem_append_right _ mem_cons_self)
    obtain ⟨l1, l2, rfl, rfl, -, -⟩ := usedBlocks_split hnew
    have hbrk := hall.rep.brk
    have hmod := blockAt_mod (append.mp hall.rep.sized).1
    unfold blockAt at hbrk hmod
    refine ⟨by omega, by omega, by simp only at hhi; omega, fun a ha => ?_⟩
    obtain ⟨u, hu, hau1, hau2⟩ := holds_of_mem hperm hlive ha
    rw [hold] at hu
    rcases pairwise_insert_apart hpair hu with h | h
    · exact .inl (by simp only at h ⊢; omega)
    · exact .inr (by simp only at h ⊢; omega)
  · obtain ⟨p', h'', cs, cs', us, heval', hall, r, hperm, hlive, -⟩ := hi.kmalloc hmax
    rw [heval] at heval'
    cases heval'
    obtain ⟨u, hu, hau⟩ := holds_of_mem hperm hlive ha
    exact hall.keep x (hau.mem_clientBytes hu h1 h2)
  · obtain ⟨h'', cs', us', heval', r', hperm, hlive, hkeep⟩ := hi.kfree hp
    rw [heval] at heval'
    cases heval'
    have hstays : a ∈ s.live.eraseP (·.1 == p) :=
      (mem_eraseP_of_neg (by simpa using hne)).mpr ha
    obtain ⟨u, hu, hau⟩ := holds_of_mem hperm hlive hstays
    exact hkeep x (hau.mem_clientBytes hu h1 h2)

theorem heap_contract_one_live :
    ∃ s, heapSystem.Reachable s ∧ s.live = [(heapVirtStart + 4, 64)] ∧ Contract s := by
  obtain ⟨s, hr, hlive⟩ := System.exists_reachable (fun s e => checkedCall s e) [.kmalloc 64]
    (fun s => s.live = [(heapVirtStart + 4, 64)]) checkedCall_allowed blankHeap_reachable
    (by decide +kernel)
  exact ⟨s, hr, hlive, heap_contract hr⟩

end PokuOS

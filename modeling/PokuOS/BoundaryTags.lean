import PokuOS.Memory

/-!
# Boundary tags

A region of memory tiled by blocks, each described by a header word at its start and a footer
word at its end. The header holds the size (a multiple of 4) with two flags in its low bits:
whether the block is free, and whether the block *before* it is; the footer holds the size.

The abstract side is a list of `Cell`s. `Tagged m a pf cs` says that memory from `a` on
carries the tags of `cs`, where `pf` tells whether the block before `a` is free. Like the
other predicates here (`freeAddrs`, `payload`, `Coalesced`) it recurses along the list with
the address, so each splits along appends; an operation on one block is a case of
`cs = l₁ ++ c :: l₂`.

Tags are untouched by writes outside the region and by writes into payloads
(`Tagged.sameOff`); that is all an operation's frame needs to say about the blocks it leaves
alone.
-/

namespace PokuOS

open List

/-- A block of the region: its size and whether it is free. -/
structure Cell where
  /-- size in bytes, tags included -/
  size : ℕ
  /-- the block is free -/
  free : Bool
  deriving DecidableEq, Repr

/-- The header word of a cell; `pf` tells whether the cell before it is free. -/
def tagWord (c : Cell) (pf : Bool) : ℕ := c.size + c.free.toNat + 2 * pf.toNat

/-- The bytes a list of cells covers. -/
def span : List Cell → ℕ
  | [] => 0
  | c :: cs => c.size + span cs

@[simp] theorem span_nil : span [] = 0 := rfl

@[simp] theorem span_cons (c : Cell) (cs : List Cell) : span (c :: cs) = c.size + span cs := rfl

@[simp] theorem span_append (l1 l2 : List Cell) : span (l1 ++ l2) = span l1 + span l2 := by
  induction l1 with
  | nil => simp
  | cons c l1 ih => simp only [cons_append, span_cons, ih, Nat.add_assoc]

/-- Sizes are multiples of 4 and leave room for both tags and two more words. -/
def Sized (cs : List Cell) : Prop := ∀ c ∈ cs, c.size % 4 = 0 ∧ 16 ≤ c.size

variable {l1 l2 : List Cell}

theorem Sized.append : Sized (l1 ++ l2) ↔ Sized l1 ∧ Sized l2 :=
  forall_mem_append

variable {c : Cell} {cs : List Cell}

theorem Sized.cons : Sized (c :: cs) ↔ (c.size % 4 = 0 ∧ 16 ≤ c.size) ∧ Sized cs :=
  forall_mem_cons

/-- A tiling from an aligned start has aligned boundaries. -/
theorem Sized.span_mod (h : Sized cs) : span cs % 4 = 0 := by
  induction cs with
  | nil => rfl
  | cons c cs ih =>
    obtain ⟨⟨hc, -⟩, hcs⟩ := Sized.cons.mp h
    have := ih hcs
    simp only [span_cons]
    omega

theorem Sized.length_le (h : Sized cs) : 16 * cs.length ≤ span cs := by
  induction cs with
  | nil => exact Nat.le_refl 0
  | cons c cs ih =>
    obtain ⟨⟨-, hc⟩, hcs⟩ := Sized.cons.mp h
    have := ih hcs
    simp only [span_cons, length_cons]
    omega

/-! ## The flag seen by the next block -/

/-- Whether the block before the end of the list is free. -/
def endFree (pf : Bool) : List Cell → Bool
  | [] => pf
  | c :: cs => endFree c.free cs

@[simp] theorem endFree_nil (pf : Bool) : endFree pf [] = pf := rfl

@[simp] theorem endFree_cons (pf : Bool) (c : Cell) (cs : List Cell) :
    endFree pf (c :: cs) = endFree c.free cs := rfl

@[simp] theorem endFree_append (pf : Bool) (l1 l2 : List Cell) :
    endFree pf (l1 ++ l2) = endFree (endFree pf l1) l2 := by
  induction l1 generalizing pf with
  | nil => rfl
  | cons c l1 ih => exact ih c.free

/-- No two neighbours are both free. -/
def Coalesced : Bool → List Cell → Prop
  | _, [] => True
  | pf, c :: cs => ¬ (pf = true ∧ c.free = true) ∧ Coalesced c.free cs

@[simp] theorem coalesced_nil (pf : Bool) : Coalesced pf [] := trivial

variable {pf : Bool}

@[simp] theorem coalesced_cons :
    Coalesced pf (c :: cs) ↔ ¬ (pf = true ∧ c.free = true) ∧ Coalesced c.free cs := Iff.rfl

theorem coalesced_append :
    Coalesced pf (l1 ++ l2) ↔ Coalesced pf l1 ∧ Coalesced (endFree pf l1) l2 := by
  induction l1 generalizing pf with
  | nil => simp
  | cons c l1 ih => simp only [cons_append, coalesced_cons, ih, endFree_cons, and_assoc]

theorem Coalesced.weaken (h : Coalesced pf cs) : Coalesced false cs := by
  cases cs with
  | nil => trivial
  | cons c cs => exact ⟨fun hc => Bool.false_ne_true hc.1, h.2⟩

theorem Coalesced.to_true (h : Coalesced false cs) (hhead : ∀ d l, cs = d :: l → d.free = false) :
    Coalesced true cs := by
  cases cs with
  | nil => trivial
  | cons c cs =>
    refine ⟨fun hc => ?_, h.2⟩
    rw [hhead c cs rfl] at hc
    exact Bool.false_ne_true hc.2

/-! ## Tags in memory -/

/-- Memory from `a` on carries the headers and footers of the cells. -/
def Tagged (m : Mem) : ℕ → Bool → List Cell → Prop
  | _, _, [] => True
  | a, pf, c :: cs =>
    m.load a = tagWord c pf ∧ m.load (a + c.size - 4) = c.size ∧
      Tagged m (a + c.size) c.free cs

@[simp] theorem tagged_nil (m : Mem) (a : ℕ) (pf : Bool) : Tagged m a pf [] := trivial

variable {m : Mem} {a : ℕ}

@[simp] theorem tagged_cons :
    Tagged m a pf (c :: cs) ↔
      m.load a = tagWord c pf ∧ m.load (a + c.size - 4) = c.size ∧
        Tagged m (a + c.size) c.free cs := Iff.rfl

theorem tagged_append :
    Tagged m a pf (l1 ++ l2) ↔ Tagged m a pf l1 ∧ Tagged m (a + span l1) (endFree pf l1) l2 := by
  induction l1 generalizing a pf with
  | nil => simp
  | cons c l1 ih =>
    simp only [cons_append, tagged_cons, ih, span_cons, endFree_cons, and_assoc,
      Nat.add_assoc]

/-- The last word of a nonempty tiling is the footer of its last cell. -/
theorem Tagged.last_footer {l : List Cell} (h : Tagged m a pf (l ++ [c])) :
    m.load (a + span l + c.size - 4) = c.size :=
  (tagged_append.mp h).2.2.1

/-! ## Payloads -/

/-- The payload bytes (between the tags) of the cells that satisfy `sel`. -/
def payload (sel : Cell → Prop) : ℕ → List Cell → Set ℕ
  | _, [] => ∅
  | a, c :: cs => {x | sel c ∧ a + 4 ≤ x ∧ x + 4 < a + c.size} ∪ payload sel (a + c.size) cs

variable {sel : Cell → Prop}

variable {x : ℕ}

@[simp] theorem mem_payload_nil : x ∈ payload sel a [] ↔ False := Iff.rfl

@[simp] theorem mem_payload_cons :
    x ∈ payload sel a (c :: cs) ↔
      (sel c ∧ a + 4 ≤ x ∧ x + 4 < a + c.size) ∨ x ∈ payload sel (a + c.size) cs := Iff.rfl

theorem mem_payload_append :
    x ∈ payload sel a (l1 ++ l2) ↔ x ∈ payload sel a l1 ∨ x ∈ payload sel (a + span l1) l2 := by
  induction l1 generalizing a with
  | nil => simp
  | cons c l1 ih =>
    simp only [cons_append, mem_payload_cons, ih, span_cons, or_assoc, Nat.add_assoc]

/-- Payload bytes lie strictly inside the tiled region. -/
theorem payload_bounds (h : x ∈ payload sel a cs) : a + 4 ≤ x ∧ x + 4 < a + span cs := by
  induction cs generalizing a with
  | nil => exact h.elim
  | cons c cs ih =>
    rcases mem_payload_cons.mp h with ⟨-, h1, h2⟩ | h
    · simp only [span_cons]
      omega
    · have := ih h
      simp only [span_cons]
      omega

/-- The payload of one cell of the tiling. -/
theorem mem_payload_middle (hc : sel c) (h1 : a + span l1 + 4 ≤ x)
    (h2 : x + 4 < a + span l1 + c.size) : x ∈ payload sel a (l1 ++ c :: l2) :=
  mem_payload_append.mpr (.inr (.inl ⟨hc, h1, h2⟩))

/-- **Tags survive writes off the region and into payloads.** -/
theorem Tagged.sameOff {S : Set ℕ} {m' : Mem} (h : Tagged m a pf cs) (hz : Sized cs)
    (hs : Mem.SameOff S m m')
    (hS : ∀ x ∈ S, x < a ∨ a + span cs ≤ x ∨ x ∈ payload (fun _ => True) a cs) :
    Tagged m' a pf cs := by
  induction cs generalizing a pf with
  | nil => trivial
  | cons c cs ih =>
    obtain ⟨hhead, hfoot, htail⟩ := h
    obtain ⟨⟨-, hc⟩, hz⟩ := Sized.cons.mp hz
    refine ⟨?_, ?_, ih htail hz fun x hx => ?_⟩
    · rw [hs.load_eq, hhead]
      intro x h1 h2 hx
      have := hS x hx
      simp only [span_cons, mem_payload_cons] at this
      rcases this with h | h | ⟨-, h, -⟩ | h
      · omega
      · omega
      · omega
      · have := payload_bounds h
        omega
    · rw [hs.load_eq, hfoot]
      intro x h1 h2 hx
      have := hS x hx
      simp only [span_cons, mem_payload_cons] at this
      rcases this with h | h | ⟨-, -, h⟩ | h
      · omega
      · omega
      · omega
      · have := payload_bounds h
        omega
    · have := hS x hx
      simp only [span_cons, mem_payload_cons] at this
      rcases this with h | h | ⟨-, -, h⟩ | h
      · exact .inl (by omega)
      · exact .inr (.inl (by omega))
      · exact .inl (by omega)
      · exact .inr (.inr h)

/-- The header of the first cell may be rewritten for a new flag of its predecessor. -/
theorem Tagged.rehead {S : Set ℕ} {m' : Mem} {pf' : Bool} (h : Tagged m a pf cs) (hz : Sized cs)
    (hs : Mem.SameOff S m m') (hS : ∀ x ∈ S, x < a + 4 ∨ a + span cs ≤ x)
    (hhead : ∀ d l, cs = d :: l → m'.load a = tagWord d pf') : Tagged m' a pf' cs := by
  cases cs with
  | nil => trivial
  | cons c cs =>
    obtain ⟨-, hfoot, htail⟩ := h
    obtain ⟨⟨-, hc⟩, hz⟩ := Sized.cons.mp hz
    simp only [span_cons] at hS
    refine ⟨hhead c cs rfl, ?_, htail.sameOff hz hs fun x hx => ?_⟩
    · rw [hs.load_eq, hfoot]
      intro x h1 h2 hx
      have := hS x hx
      omega
    · rcases hS x hx with h | h
      · exact .inl (by omega)
      · exact .inr (.inl (by omega))

/-! ## Free cells -/

/-- The addresses of the free cells, in order. -/
def freeAddrs : ℕ → List Cell → List ℕ
  | _, [] => []
  | a, c :: cs => if c.free then a :: freeAddrs (a + c.size) cs else freeAddrs (a + c.size) cs

@[simp] theorem freeAddrs_nil (a : ℕ) : freeAddrs a [] = [] := rfl

theorem freeAddrs_cons (a : ℕ) (c : Cell) (cs : List Cell) :
    freeAddrs a (c :: cs) =
      if c.free then a :: freeAddrs (a + c.size) cs else freeAddrs (a + c.size) cs := rfl

@[simp] theorem freeAddrs_cons_free (a s : ℕ) (cs : List Cell) :
    freeAddrs a (⟨s, true⟩ :: cs) = a :: freeAddrs (a + s) cs := rfl

@[simp] theorem freeAddrs_cons_used (a s : ℕ) (cs : List Cell) :
    freeAddrs a (⟨s, false⟩ :: cs) = freeAddrs (a + s) cs := rfl

theorem freeAddrs_append (a : ℕ) (l1 l2 : List Cell) :
    freeAddrs a (l1 ++ l2) = freeAddrs a l1 ++ freeAddrs (a + span l1) l2 := by
  induction l1 generalizing a with
  | nil => simp
  | cons c l1 ih =>
    simp only [cons_append, freeAddrs_cons, ih, span_cons, Nat.add_assoc]
    cases c.free <;> rfl

theorem length_freeAddrs_le (a : ℕ) (cs : List Cell) : (freeAddrs a cs).length ≤ cs.length := by
  induction cs generalizing a with
  | nil => exact Nat.le_refl 0
  | cons c cs ih =>
    have := ih (a + c.size)
    rw [freeAddrs_cons]
    cases c.free
    · exact Nat.le_succ_of_le this
    · exact Nat.succ_le_succ this

/-- A free address starts a free cell. -/
theorem mem_freeAddrs {f : ℕ} (h : f ∈ freeAddrs a cs) :
    ∃ l1 s l2, cs = l1 ++ ⟨s, true⟩ :: l2 ∧ f = a + span l1 := by
  induction cs generalizing a with
  | nil => cases h
  | cons c cs ih =>
    obtain ⟨s, _ | _⟩ := c
    · obtain ⟨l1, t, l2, rfl, rfl⟩ := ih h
      exact ⟨⟨s, false⟩ :: l1, t, l2, rfl, by simp [Nat.add_assoc]⟩
    · rcases mem_cons.mp h with rfl | h
      · exact ⟨[], s, cs, rfl, rfl⟩
      · obtain ⟨l1, t, l2, rfl, rfl⟩ := ih h
        exact ⟨⟨s, true⟩ :: l1, t, l2, rfl, by simp [Nat.add_assoc]⟩

theorem freeAddrs_bounds {f : ℕ} (hz : Sized cs) (h : f ∈ freeAddrs a cs) :
    a ≤ f ∧ f + 16 ≤ a + span cs ∧ (a % 4 = 0 → f % 4 = 0) := by
  obtain ⟨l1, s, l2, rfl, rfl⟩ := mem_freeAddrs h
  obtain ⟨h1, h2⟩ := Sized.append.mp hz
  have hs := (Sized.cons.mp h2).1.2
  have hmod := h1.span_mod
  simp only [span_append, span_cons] at hs ⊢
  omega

/-- The free list is strictly sorted by address. -/
theorem freeAddrs_sorted (a : ℕ) (hz : Sized cs) : (freeAddrs a cs).Pairwise (· < ·) := by
  induction cs generalizing a with
  | nil => exact List.Pairwise.nil
  | cons c cs ih =>
    obtain ⟨⟨-, hc⟩, hz⟩ := Sized.cons.mp hz
    rw [freeAddrs_cons]
    cases c.free
    · exact ih _ hz
    · refine pairwise_cons.mpr ⟨fun f hf => ?_, ih _ hz⟩
      have := (freeAddrs_bounds hz hf).1
      omega

/-- The bytes of the word behind the header of each listed block. -/
def links (fs : List ℕ) : Set ℕ := {x | ∃ f ∈ fs, f + 4 ≤ x ∧ x < f + 8}

theorem links_mono {fs gs : List ℕ} (h : fs ⊆ gs) : links fs ⊆ links gs :=
  fun _ ⟨f, hf, hx⟩ => ⟨f, h hf, hx⟩

/-- The link word of a free cell is in its payload. -/
theorem links_freeAddrs_subset (hz : Sized cs) :
    links (freeAddrs a cs) ⊆ payload (fun c => c.free = true) a cs := by
  rintro x ⟨f, hf, h1, h2⟩
  obtain ⟨l1, s, l2, rfl, rfl⟩ := mem_freeAddrs hf
  have hs := (Sized.cons.mp (Sized.append.mp hz).2).1.2
  simp only at hs
  exact mem_payload_middle rfl h1 (by simp only; omega)

theorem payload_mono {sel sel' : Cell → Prop} (h : ∀ c, sel c → sel' c) (a : ℕ)
    (cs : List Cell) : payload sel a cs ⊆ payload sel' a cs := by
  intro x hx
  induction cs generalizing a with
  | nil => exact hx
  | cons c cs ih =>
    rcases mem_payload_cons.mp hx with ⟨hc, hb⟩ | hx
    · exact .inl ⟨h c hc, hb⟩
    · exact .inr (ih _ hx)

/-- Payloads of cells with different flags do not meet. -/
theorem payload_disjoint {sel sel' : Cell → Prop} (h : ∀ c, sel c → ¬ sel' c)
    (hx : x ∈ payload sel a cs) : x ∉ payload sel' a cs := by
  induction cs generalizing a with
  | nil => exact hx.elim
  | cons c cs ih =>
    intro hx'
    rcases mem_payload_cons.mp hx with ⟨hc, hb⟩ | hx
    · rcases mem_payload_cons.mp hx' with ⟨hc', -⟩ | hx'
      · exact h c hc hc'
      · have := payload_bounds hx'
        omega
    · rcases mem_payload_cons.mp hx' with ⟨-, hb⟩ | hx'
      · have := payload_bounds hx
        omega
      · exact ih hx hx'

/-! ## Used cells -/

/-- Address and size of the used cells, in order. -/
def usedBlocks : ℕ → List Cell → List (ℕ × ℕ)
  | _, [] => []
  | a, c :: cs =>
    if c.free then usedBlocks (a + c.size) cs else (a, c.size) :: usedBlocks (a + c.size) cs

@[simp] theorem usedBlocks_nil (a : ℕ) : usedBlocks a [] = [] := rfl

theorem usedBlocks_cons (a : ℕ) (c : Cell) (cs : List Cell) :
    usedBlocks a (c :: cs) =
      if c.free then usedBlocks (a + c.size) cs
      else (a, c.size) :: usedBlocks (a + c.size) cs := rfl

@[simp] theorem usedBlocks_cons_free (a s : ℕ) (cs : List Cell) :
    usedBlocks a (⟨s, true⟩ :: cs) = usedBlocks (a + s) cs := rfl

@[simp] theorem usedBlocks_cons_used (a s : ℕ) (cs : List Cell) :
    usedBlocks a (⟨s, false⟩ :: cs) = (a, s) :: usedBlocks (a + s) cs := rfl

theorem usedBlocks_append (a : ℕ) (l1 l2 : List Cell) :
    usedBlocks a (l1 ++ l2) = usedBlocks a l1 ++ usedBlocks (a + span l1) l2 := by
  induction l1 generalizing a with
  | nil => simp
  | cons c l1 ih =>
    simp only [cons_append, usedBlocks_cons, ih, span_cons, Nat.add_assoc]
    cases c.free <;> rfl

/-- A used cell of the tiling, from its place in the list of used cells. -/
theorem usedBlocks_split {b s : ℕ} {us vs : List (ℕ × ℕ)}
    (h : usedBlocks a cs = us ++ (b, s) :: vs) :
    ∃ l1 l2, cs = l1 ++ ⟨s, false⟩ :: l2 ∧ b = a + span l1 ∧ usedBlocks a l1 = us ∧
      usedBlocks (a + span l1 + s) l2 = vs := by
  induction cs generalizing a us with
  | nil => simp at h
  | cons c cs ih =>
    obtain ⟨u, _ | _⟩ := c
    · rw [usedBlocks_cons_used] at h
      cases us with
      | nil =>
        obtain ⟨hb, hvs⟩ := cons.inj h
        cases hb
        exact ⟨[], cs, rfl, rfl, rfl, hvs⟩
      | cons w us =>
        rw [cons_append] at h
        obtain ⟨rfl, htail⟩ := cons.inj h
        obtain ⟨l1, l2, rfl, rfl, rfl, rfl⟩ := ih htail
        exact ⟨⟨u, false⟩ :: l1, l2, rfl, by simp [Nat.add_assoc], rfl,
          by simp [Nat.add_assoc]⟩
    · rw [usedBlocks_cons_free] at h
      obtain ⟨l1, l2, rfl, rfl, rfl, rfl⟩ := ih h
      exact ⟨⟨u, true⟩ :: l1, l2, rfl, by simp [Nat.add_assoc], rfl, by simp [Nat.add_assoc]⟩

/-- Used payload bytes, block by block. -/
theorem mem_payload_used :
    x ∈ payload (fun c => c.free = false) a cs ↔
      ∃ u ∈ usedBlocks a cs, u.1 + 4 ≤ x ∧ x + 4 < u.1 + u.2 := by
  induction cs generalizing a with
  | nil => simp
  | cons c cs ih =>
    obtain ⟨s, _ | _⟩ := c
    · rw [mem_payload_cons, ih, usedBlocks_cons_used, exists_mem_cons_iff]
      simp
    · rw [mem_payload_cons, ih, usedBlocks_cons_free]
      simp

/-- Used cells come in address order and do not overlap. -/
theorem usedBlocks_pairwise (a : ℕ) (cs : List Cell) :
    (usedBlocks a cs).Pairwise (fun u v => u.1 + u.2 ≤ v.1) ∧
      ∀ u ∈ usedBlocks a cs, a ≤ u.1 ∧ u.1 + u.2 ≤ a + span cs := by
  induction cs generalizing a with
  | nil => exact ⟨List.Pairwise.nil, fun u hu => by cases hu⟩
  | cons c cs ih =>
    obtain ⟨hp, hb⟩ := ih (a + c.size)
    have hb' : ∀ u ∈ usedBlocks (a + c.size) cs,
        a ≤ u.1 ∧ u.1 + u.2 ≤ a + span (c :: cs) := fun u hu => by
      have := hb u hu
      rw [span_cons]
      omega
    rw [usedBlocks_cons]
    cases c.free with
    | true => exact ⟨hp, hb'⟩
    | false =>
      refine ⟨pairwise_cons.mpr ⟨fun u hu => (hb u hu).1, hp⟩, fun u hu => ?_⟩
      rcases mem_cons.mp hu with rfl | hu
      · simp only [span_cons]
        omega
      · exact hb' u hu

end PokuOS

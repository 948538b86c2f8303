import Mathlib.Data.List.Basic
import Mathlib.Data.Set.Defs

/-!
# Linked lists through a next function

A singly linked list is a `next : α → Option α` (the link field of a node) and a first
pointer. This module relates such a structure to the list of its nodes and gives the one
loop all traversals are instances of.

* `Seg next p l q` — following `next` from `p` visits exactly `l` and then stands at `q`.
  A null-terminated list is a segment that ends at `none`. Segments compose and split
  along appends (`seg_append`), and depend on `next` only at their own nodes
  (`Seg.congr`).
* `walk` — `for (p = first; p; p = p->next) if (stop p) break;`, remembering the
  predecessor. It is fuelled, since a corrupted list may be cyclic; on a null-terminated
  segment longer fuel than the list is enough (`walk_seg`).
* `Fifo` — a list with a pointer to its last node as well: pushing at the end, removing
  anywhere, and moving the first node to the end.
-/

namespace PokuOS

open List

universe u

variable {α : Type u} {next : α → Option α} {p q : Option α} {l l1 l2 : List α} {a b : α}

/-! ## Segments -/

/-- Following `next` from the first pointer visits the nodes of the list, in order, and
arrives at the last pointer. -/
def Seg (next : α → Option α) : Option α → List α → Option α → Prop
  | p, [], q => p = q
  | p, a :: l, q => p = some a ∧ Seg next (next a) l q

@[simp] theorem seg_nil : Seg next p [] q ↔ p = q := Iff.rfl

@[simp] theorem seg_cons : Seg next p (a :: l) q ↔ p = some a ∧ Seg next (next a) l q := Iff.rfl

/-- Segments split at any point of the list. -/
theorem seg_append :
    Seg next p (l1 ++ l2) q ↔ ∃ r, Seg next p l1 r ∧ Seg next r l2 q := by
  induction l1 generalizing p with
  | nil => simp
  | cons a l1 ih =>
    simp only [cons_append, seg_cons, ih]
    constructor
    · rintro ⟨hp, r, h1, h2⟩
      exact ⟨r, ⟨hp, h1⟩, h2⟩
    · rintro ⟨r, ⟨hp, h1⟩, h2⟩
      exact ⟨hp, r, h1, h2⟩

/-- The last node of a segment links to its end. -/
theorem seg_concat : Seg next p (l ++ [a]) q ↔ Seg next p l (some a) ∧ next a = q := by
  rw [seg_append]
  constructor
  · rintro ⟨r, h1, rfl, hq⟩
    exact ⟨h1, hq⟩
  · rintro ⟨h1, hq⟩
    exact ⟨some a, h1, rfl, hq⟩

/-- A segment reads `next` at its own nodes only. -/
theorem Seg.congr {next' : α → Option α} (h : Seg next p l q) (heq : ∀ a ∈ l, next' a = next a) :
    Seg next' p l q := by
  induction l generalizing p with
  | nil => exact h
  | cons a l ih =>
    obtain ⟨hp, h⟩ := h
    refine ⟨hp, ?_⟩
    rw [heq a mem_cons_self]
    exact ih h fun b hb => heq b (mem_cons_of_mem _ hb)

/-- A null-terminated list starts at the head of its node list. -/
theorem Seg.head_eq (h : Seg next p l none) : p = l.head? := by
  cases l with
  | nil => exact h
  | cons a l => exact h.1

/-- The nodes of a null-terminated list are determined by its first pointer. -/
theorem Seg.unique (h1 : Seg next p l1 none) (h2 : Seg next p l2 none) : l1 = l2 := by
  induction l1 generalizing p l2 with
  | nil =>
    cases l2 with
    | nil => rfl
    | cons b l2 => rw [h2.1] at h1; cases h1
  | cons a l1 ih =>
    cases l2 with
    | nil =>
      have hp := h1.1
      rw [seg_nil.mp h2] at hp
      cases hp
    | cons b l2 =>
      obtain rfl : a = b := Option.some.inj (h1.1.symm.trans h2.1)
      rw [ih h1.2 h2.2]

/-- A node of a null-terminated list does not occur again behind itself. -/
theorem Seg.nodup (h : Seg next p l none) : l.Nodup := by
  induction l generalizing p with
  | nil => exact nodup_nil
  | cons a l ih =>
    refine nodup_cons.mpr ⟨fun hmem => ?_, ih h.2⟩
    -- a second occurrence of `a` would make the rest of the list a proper part of itself
    obtain ⟨s, t, rfl⟩ := append_of_mem hmem
    obtain ⟨r, -, h2⟩ := seg_append.mp h.2
    have heq := Seg.unique h.2 h2.2
    have hlen := congrArg length heq
    simp only [length_append, length_cons] at hlen
    omega

/-- A node links to the one behind it. -/
theorem Seg.next_eq (h : Seg next p (l1 ++ a :: l2) none) : next a = l2.head? := by
  obtain ⟨r, -, -, h2⟩ := seg_append.mp h
  exact h2.head_eq

theorem Seg.next_mem (h : Seg next p l none) (ha : a ∈ l) (hb : next a = some b) : b ∈ l := by
  obtain ⟨l1, l2, rfl⟩ := append_of_mem ha
  rw [h.next_eq] at hb
  exact mem_append_right _ (mem_cons_of_mem _ (mem_of_mem_head? hb))

/-! ## Editing links -/

/-- The last node of a segment (if there is one) is given another link. -/
theorem Seg.redirect {r r' : Option α} (next' : α → Option α) (h : Seg next p l r) (hnd : l.Nodup)
    (hlast : ∀ b ∈ l.getLast?, next' b = r')
    (hrest : ∀ b ∈ l, b ∉ l.getLast? → next' b = next b) :
    Seg next' (if l = [] then r' else p) l r' := by
  rcases eq_nil_or_concat' l with rfl | ⟨l, c, rfl⟩
  · rfl
  · have hlc : (l ++ [c]).getLast? = some c := by simp
    rw [if_neg (by simp)]
    obtain ⟨hl, -⟩ := seg_concat.mp h
    refine seg_concat.mpr ⟨hl.congr fun b hb => ?_, hlast c (by rw [hlc]; rfl)⟩
    refine hrest b (by simp [hb]) fun hm => ?_
    rw [hlc] at hm
    exact (nodup_append.mp hnd).2.2 b hb c (by simp) (Option.some.inj hm).symm

/-- Unlinking a node: its predecessor (if any) takes over its link. -/
theorem Seg.unlink (next' : α → Option α) (h : Seg next p (l1 ++ a :: l2) none)
    (hlast : ∀ b ∈ l1.getLast?, next' b = next a)
    (hrest : ∀ b ∈ l1 ++ a :: l2, b ∉ l1.getLast? → b ≠ a → next' b = next b) :
    Seg next' (if l1 = [] then next a else p) (l1 ++ l2) none := by
  obtain ⟨hnd1, hnd2, hnot⟩ := nodup_append.mp h.nodup
  obtain ⟨r, h1, hr, h2⟩ := seg_append.mp h
  refine seg_append.mpr ⟨next a, h1.redirect next' hnd1 hlast fun b hb hbl => ?_,
    h2.congr fun b hb => ?_⟩
  · exact hrest b (by simp [hb]) hbl (hnot b hb a (by simp))
  · refine hrest b (by simp [hb]) (fun hbl => ?_) fun hba => ?_
    · exact hnot b (mem_of_mem_getLast? hbl) b (by simp [hb]) rfl
    · exact (nodup_cons.mp hnd2).1 (hba ▸ hb)

/-- Linking a node in: it takes over the link of its new predecessor (if any). -/
theorem Seg.link (next' : α → Option α) (h : Seg next p (l1 ++ l2) none)
    (hself : next' a = l2.head?) (hlast : ∀ b ∈ l1.getLast?, next' b = some a)
    (hrest : ∀ b ∈ l1 ++ l2, b ∉ l1.getLast? → next' b = next b) :
    Seg next' (if l1 = [] then some a else p) (l1 ++ a :: l2) none := by
  obtain ⟨hnd1, -, hnot⟩ := nodup_append.mp h.nodup
  obtain ⟨r, h1, h2⟩ := seg_append.mp h
  refine seg_append.mpr ⟨some a, h1.redirect next' hnd1 hlast fun b hb => hrest b (by simp [hb]),
    rfl, ?_⟩
  rw [hself, ← h2.head_eq]
  refine h2.congr fun b hb => hrest b (by simp [hb]) fun hbl => ?_
  exact hnot b (mem_of_mem_getLast? hbl) b hb rfl

/-! ## The traversal loop -/

/-- Walk from the second pointer until `stop` holds or the list ends; returns the node
before the stopping point and the stopping point. `none` when the fuel runs out, which a
list longer than the fuel (in particular a cyclic one) does. -/
def walk (next : α → Option α) (stop : α → Bool) :
    ℕ → Option α → Option α → Option (Option α × Option α)
  | _, prev, none => some (prev, none)
  | 0, _, some _ => none
  | n + 1, prev, some a =>
    if stop a then some (prev, some a) else walk next stop n (some a) (next a)

@[simp] theorem walk_none (stop : α → Bool) {n : ℕ} {prev : Option α} :
    walk next stop n prev none = some (prev, none) := by
  cases n <;> rfl

/-- **Walking a null-terminated list**: the loop passes the nodes before the first one
that stops it, provided the fuel exceeds their number. -/
theorem walk_seg (stop : α → Bool) {fuel : ℕ} {prev : Option α} (h : Seg next p (l1 ++ l2) none)
    (hno : ∀ a ∈ l1, stop a = false) (hstop : ∀ a ∈ l2.head?, stop a = true)
    (hfuel : l1.length < fuel) :
    walk next stop fuel prev p = some (l1.getLast?.or prev, l2.head?) := by
  induction l1 generalizing fuel prev p with
  | nil =>
    rw [nil_append] at h
    cases l2 with
    | nil =>
      rw [seg_nil.mp h]
      simp
    | cons b l2 =>
      obtain ⟨n, rfl⟩ := Nat.exists_eq_add_of_lt hfuel
      rw [h.1, walk, if_pos (hstop b rfl)]
      rfl
  | cons a l1 ih =>
    obtain ⟨n, rfl⟩ := Nat.exists_eq_add_of_lt hfuel
    rw [cons_append] at h
    rw [h.1, walk, if_neg (by rw [hno a mem_cons_self]; exact Bool.false_ne_true),
      ih h.2 (fun b hb => hno b (mem_cons_of_mem _ hb))
        (by simp only [length_cons]; omega)]
    cases l1 with
    | nil => rfl
    | cons c l1 =>
      rw [getLast?_cons_cons]
      simp only [getLast?_eq_some_getLast (cons_ne_nil c l1), Option.some_or]

/-- Every list splits into the nodes the walk passes and the rest. -/
theorem exists_walk_split (stop : α → Bool) (l : List α) :
    ∃ l1 l2, l = l1 ++ l2 ∧ (∀ a ∈ l1, stop a = false) ∧ ∀ a ∈ l2.head?, stop a = true := by
  induction l with
  | nil => exact ⟨[], [], rfl, by simp, by simp⟩
  | cons b l ih =>
    by_cases hb : stop b
    · exact ⟨[], b :: l, rfl, by simp, by simpa using hb⟩
    · obtain ⟨l1, l2, rfl, hno, hstop⟩ := ih
      refine ⟨b :: l1, l2, rfl, fun a ha => ?_, hstop⟩
      rcases mem_cons.mp ha with rfl | ha
      · simpa using hb
      · exact hno a ha

/-- The nodes met when following the links, at most as many as the fuel. -/
def follow (next : α → Option α) : ℕ → Option α → List α
  | 0, _ => []
  | _ + 1, none => []
  | n + 1, some a => a :: follow next n (next a)

/-- Following the links of a list visits its nodes. -/
theorem Seg.follow_eq {fuel : ℕ} (h : Seg next p l none) (hlen : l.length ≤ fuel) :
    follow next fuel p = l := by
  induction l generalizing fuel p with
  | nil =>
    rw [seg_nil.mp h]
    cases fuel <;> rfl
  | cons a l ih =>
    obtain ⟨n, rfl⟩ := Nat.exists_eq_add_of_lt hlen
    rw [h.1, follow, ih h.2 (by simp)]

/-- Following the links meets the node a segment leads to, whatever it links to. -/
theorem Seg.mem_follow {fuel : ℕ} (h : Seg next p l (some a)) (hlen : l.length < fuel) :
    a ∈ follow next fuel p := by
  induction l generalizing fuel p with
  | nil =>
    obtain ⟨n, rfl⟩ := Nat.exists_eq_add_of_lt hlen
    rw [seg_nil.mp h, follow]
    exact mem_cons_self
  | cons b l ih =>
    obtain ⟨n, rfl⟩ := Nat.exists_eq_add_of_lt hlen
    rw [h.1, follow]
    exact mem_cons_of_mem _ (ih h.2 (by rw [length_cons]; omega))

/-- No node of a null-terminated list links to itself. -/
theorem Seg.next_ne_self (h : Seg next p l none) (ha : a ∈ l) : next a ≠ some a := by
  obtain ⟨u, v, rfl⟩ := append_of_mem ha
  have hnd := (nodup_append.mp h.nodup).2.1
  rw [h.next_eq]
  exact fun hv => (nodup_cons.mp hnd).1 (mem_of_mem_head? hv)

/-! ## Queues -/

/-- A null-terminated list with a pointer to its last node. -/
structure Fifo (next : α → Option α) (head tail : Option α) (l : List α) : Prop where
  /-- the nodes, from the first on -/
  chain : Seg next head l none
  /-- the second pointer is at the last one -/
  tail : tail = l.getLast?

variable {head tail : Option α}

theorem Fifo.head_eq (h : Fifo next head tail l) : head = l.head? := h.chain.head_eq

theorem Fifo.nodup (h : Fifo next head tail l) : l.Nodup := h.chain.nodup

theorem Fifo.congr {next' : α → Option α} (h : Fifo next head tail l)
    (hnext : ∀ a ∈ l, next' a = next a) : Fifo next' head tail l :=
  ⟨h.chain.congr hnext, h.tail⟩

/-- **Pushing** a node at the end. -/
theorem Fifo.push (next' : α → Option α) (h : Fifo next head tail l) (hself : next' a = none)
    (hlast : ∀ b ∈ tail, next' b = some a) (hrest : ∀ b ∈ l, b ∉ tail → next' b = next b) :
    Fifo next' (if l = [] then some a else head) (some a) (l ++ [a]) := by
  obtain ⟨hchain, rfl⟩ := h
  refine ⟨Seg.link next' (by simpa using hchain) hself hlast
    (fun b hb => hrest b (by simpa using hb)), ?_⟩
  simp

/-- **Removing** a node. -/
theorem Fifo.remove (next' : α → Option α) (h : Fifo next head tail (l1 ++ a :: l2))
    (hlast : ∀ b ∈ l1.getLast?, next' b = next a)
    (hrest : ∀ b ∈ l1 ++ a :: l2, b ∉ l1.getLast? → b ≠ a → next' b = next b) :
    Fifo next' (if l1 = [] then next a else head) (if l2 = [] then l1.getLast? else tail)
      (l1 ++ l2) := by
  refine ⟨h.chain.unlink next' hlast hrest, ?_⟩
  cases l2 with
  | nil => simp
  | cons b l2 =>
    rw [if_neg (by simp), h.tail]
    simp [getLast?_append]

/-- **Rotating**: the first node goes to the end. -/
theorem Fifo.rotate (next' : α → Option α) (h : Fifo next head tail (a :: l)) (hne : l ≠ [])
    (hself : next' a = none) (hlast : ∀ b ∈ tail, next' b = some a)
    (hrest : ∀ b ∈ l, b ∉ tail → next' b = next b) :
    Fifo next' (next a) (some a) (l ++ [a]) := by
  have hl : Fifo next (next a) tail l := by
    refine ⟨h.chain.2, ?_⟩
    obtain ⟨b, l, rfl⟩ := exists_cons_of_ne_nil hne
    rw [h.tail, getLast?_cons_cons]
  have := hl.push next' hself hlast hrest
  rw [if_neg hne] at this
  exact this

end PokuOS

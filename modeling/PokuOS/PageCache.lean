import Mathlib.Data.List.Nodup
import Mathlib.Data.List.Perm.Basic
import Mathlib.Logic.Function.Basic
import PokuOS.Memory

/-!
# The page cache

`fs/page_cache.c`: 64 slots, each for one page of one inode. A slot that has been filled stays
filled; nothing is ever evicted.

* `PageCache.readpage_cases` — what `readpage` does: a hit, a page that is filled in, or nothing.
* `PageCache.Distinct` — **no two slots share a page or a frame**, which every `readpage` keeps.
* `PageCache.readpage_of_room` / `Room` — which pages can still be read.
-/

namespace PokuOS

open List

/-- `PAGE_CACHE_SIZE`. -/
def pageCacheSize : ℕ := 64

/-- `struct page_cache_slot` with `valid` set. -/
structure CacheSlot where
  ino : ℕ
  pgoff : ℕ
  /-- the frame at `phys` -/
  phys : ℕ
  deriving DecidableEq

/-- The page of a slot. -/
def CacheSlot.key (s : CacheSlot) : ℕ × ℕ := (s.ino, s.pgoff)

/-- The cache, and the frames it gets its memory from. -/
structure PageCache where
  /-- `cache`, with the slots that are valid -/
  slots : List (Option CacheSlot)
  /-- the free frames -/
  freeq : List ℕ
  /-- the contents of the frames -/
  frames : ℕ → Mem

namespace PageCache

/-- The slots that are valid. -/
def valid (pc : PageCache) : List CacheSlot := pc.slots.filterMap id

/-- `page_cache_find`. -/
def find (pc : PageCache) (ino pgoff : ℕ) : Option CacheSlot :=
  pc.valid.find? fun s => s.ino == ino && s.pgoff == pgoff

/-- `page_cache_alloc_slot`. -/
def allocSlot (pc : PageCache) : Option ℕ := pc.slots.findIdx? Option.isNone

/-- The slot is filled with a page, whose memory is the first free frame. -/
def fill (pc : PageCache) (slot : ℕ) (s : CacheSlot) (page : Mem) : PageCache where
  slots := pc.slots.set slot (some s)
  freeq := pc.freeq.tail
  frames := Function.update pc.frames s.phys page

/-- `readpage`: the page it copies, or -1. `read` is `s_op->readpage` on the frame; if it fails
the frame is free again. -/
def readpage (read : Mem → Option Mem) (ino pgoff : ℕ) (pc : PageCache) :
    Option Mem × PageCache :=
  match pc.find ino pgoff with
  | some s => (some (pc.frames s.phys), pc)
  | none =>
    match pc.allocSlot, pc.freeq with
    | some slot, f :: _ =>
      match read (pc.frames f) with
      | some page => (some page, pc.fill slot ⟨ino, pgoff, f⟩ page)
      | none => (none, pc)
    | _, _ => (none, pc)

/-- The empty cache. -/
def empty (freeq : List ℕ) (frames : ℕ → Mem) : PageCache where
  slots := List.replicate pageCacheSize none
  freeq := freeq
  frames := frames

variable {read : Mem → Option Mem} {ino pgoff : ℕ} {pc pc' : PageCache} {o : Option Mem}

/-! ## What a call does -/

variable {s : CacheSlot}

theorem mem_of_find (h : pc.find ino pgoff = some s) : s ∈ pc.valid ∧ s.key = (ino, pgoff) := by
  have hkey := find?_some h
  rw [Bool.and_eq_true, beq_iff_eq, beq_iff_eq] at hkey
  exact ⟨mem_of_find?_eq_some h, Prod.ext hkey.1 hkey.2⟩

theorem find_eq_none : pc.find ino pgoff = none ↔ ∀ s ∈ pc.valid, s.key ≠ (ino, pgoff) := by
  unfold find CacheSlot.key
  simp only [find?_eq_none, Bool.and_eq_true, beq_iff_eq, ne_eq, Prod.mk.injEq]

variable {slot : ℕ}

theorem allocSlot_some (h : pc.allocSlot = some slot) : pc.slots[slot]? = some none := by
  obtain ⟨hlt, hnone, -⟩ := findIdx?_eq_some_iff_getElem.mp h
  rw [getElem?_eq_getElem hlt, Option.isNone_iff_eq_none.mp hnone]

theorem allocSlot_eq_none : pc.allocSlot = none ↔ none ∉ pc.slots := by
  unfold allocSlot
  rw [findIdx?_eq_none_iff]
  constructor
  · intro h hmem
    exact Bool.noConfusion (h none hmem)
  · intro h o ho
    cases o with
    | none => exact absurd ho h
    | some s => rfl

/-- **What `readpage` does.** -/
theorem readpage_cases (h : pc.readpage read ino pgoff = (o, pc')) :
    (∃ s, pc.find ino pgoff = some s ∧ o = some (pc.frames s.phys) ∧ pc' = pc) ∨
    (∃ slot f freeq page, pc.find ino pgoff = none ∧ pc.allocSlot = some slot ∧
      pc.freeq = f :: freeq ∧ read (pc.frames f) = some page ∧ o = some page ∧
      pc' = pc.fill slot ⟨ino, pgoff, f⟩ page) ∨
    (pc.find ino pgoff = none ∧ o = none ∧ pc' = pc ∧
      (pc.allocSlot = none ∨ pc.freeq = [] ∨ ∃ f, read (pc.frames f) = none)) := by
  unfold readpage at h
  cases hfind : pc.find ino pgoff with
  | some s =>
    rw [hfind] at h
    cases h
    exact .inl ⟨s, rfl, rfl, rfl⟩
  | none =>
    rw [hfind] at h
    refine .inr ?_
    cases hslot : pc.allocSlot with
    | none =>
      rw [hslot] at h
      cases h
      exact .inr ⟨rfl, rfl, rfl, .inl rfl⟩
    | some slot =>
      cases hfreeq : pc.freeq with
      | nil =>
        rw [hslot, hfreeq] at h
        cases h
        exact .inr ⟨rfl, rfl, rfl, .inr (.inl rfl)⟩
      | cons f freeq =>
        rw [hslot, hfreeq] at h
        dsimp only at h
        cases hread : read (pc.frames f) with
        | none =>
          rw [hread] at h
          cases h
          exact .inr ⟨rfl, rfl, rfl, .inr (.inr ⟨f, hread⟩)⟩
        | some page =>
          rw [hread] at h
          cases h
          exact .inl ⟨slot, f, freeq, page, rfl, rfl, rfl, hread, rfl, rfl⟩

/-! ## Distinct pages and frames -/

/-- Filling an empty slot adds to what is there. -/
theorem filterMap_set_perm {α : Type} {l : List (Option α)} {i : ℕ} {a : α}
    (h : l[i]? = some none) : ((l.set i (some a)).filterMap id).Perm (a :: l.filterMap id) := by
  induction l generalizing i with
  | nil => cases h
  | cons o l ih =>
    cases i with
    | zero =>
      obtain rfl : o = none := Option.some.inj h
      exact .refl _
    | succ i =>
      cases o with
      | none => exact ih h
      | some b => exact ((ih h).cons b).trans (.swap a b _)

theorem count_set_add_one {α : Type} [DecidableEq α] {l : List (Option α)} {i : ℕ} {a : α}
    (h : l[i]? = some none) : (l.set i (some a)).count none + 1 = l.count none := by
  induction l generalizing i with
  | nil => cases h
  | cons o l ih =>
    cases i with
    | zero =>
      obtain rfl : o = none := Option.some.inj h
      simp
    | succ i => simpa [count_cons, Nat.add_right_comm] using ih h

theorem valid_fill (h : pc.allocSlot = some slot) (s : CacheSlot) (page : Mem) :
    (pc.fill slot s page).valid.Perm (s :: pc.valid) :=
  filterMap_set_perm (allocSlot_some h)

theorem mem_valid_fill (h : pc.allocSlot = some slot) {t : CacheSlot} {page : Mem} :
    t ∈ (pc.fill slot s page).valid ↔ t = s ∨ t ∈ pc.valid := by
  rw [(valid_fill h s page).mem_iff, mem_cons]

/-- No two slots share a page, and no frame has two uses. -/
structure Distinct (pc : PageCache) : Prop where
  /-- the pages -/
  keys : (pc.valid.map CacheSlot.key).Nodup
  /-- the frames, those that are free and those of the slots -/
  frames : (pc.freeq ++ pc.valid.map CacheSlot.phys).Nodup

/-- **`readpage` keeps pages and frames apart.** -/
theorem Distinct.readpage (h : pc.Distinct) (hr : pc.readpage read ino pgoff = (o, pc')) :
    pc'.Distinct := by
  obtain ⟨s, -, -, rfl⟩ | ⟨slot, f, freeq, page, hfind, hslot, hfreeq, -, -, rfl⟩ |
    ⟨-, -, rfl, -⟩ := readpage_cases hr
  · exact h
  · have hperm := valid_fill hslot ⟨ino, pgoff, f⟩ page
    refine ⟨?_, ?_⟩
    · rw [(hperm.map CacheSlot.key).nodup_iff, map_cons, nodup_cons]
      refine ⟨fun hmem => ?_, h.keys⟩
      obtain ⟨s, hs, hkey⟩ := mem_map.mp hmem
      exact find_eq_none.mp hfind s hs hkey
    · have hframes := h.frames
      rw [hfreeq, cons_append] at hframes
      change (pc.freeq.tail ++ _).Nodup
      rw [hfreeq, tail_cons, ((hperm.map CacheSlot.phys).append_left freeq).nodup_iff,
        map_cons, perm_middle.nodup_iff]
      exact hframes
  · exact h

/-- The frame of a page that is filled in was the frame of no other. -/
theorem Distinct.phys_ne (h : pc.Distinct) {f : ℕ} {freeq : List ℕ}
    (hfreeq : pc.freeq = f :: freeq) (hs : s ∈ pc.valid) : s.phys ≠ f := by
  intro heq
  have hframes := h.frames
  rw [hfreeq, cons_append, nodup_cons] at hframes
  exact hframes.1 (mem_append_right _ (heq ▸ mem_map_of_mem hs))

/-! ## Room for pages -/

/-- How many of these pages are not in the cache. -/
def missing (pc : PageCache) (ino : ℕ) (pages : List ℕ) : ℕ :=
  pages.countP fun p => (pc.find ino p).isNone

/-- How many slots are not in use. -/
def freeSlots (pc : PageCache) : ℕ := pc.slots.count none

theorem find_fill {f p : ℕ} (h : pc.allocSlot = some slot) (page : Mem) :
    (pc.fill slot ⟨ino, pgoff, f⟩ page).find ino p = none ↔ p ≠ pgoff ∧ pc.find ino p = none := by
  simp only [find_eq_none, mem_valid_fill h, forall_eq_or_imp]
  refine and_congr_left fun _ => not_congr ?_
  exact ⟨fun heq => (congrArg Prod.snd heq).symm, fun heq => by rw [heq]; rfl⟩

/-- A page that is filled in is one less to be found. -/
theorem missing_fill {f : ℕ} {pages : List ℕ} (h : pc.allocSlot = some slot) (page : Mem)
    (hnodup : pages.Nodup) (hmem : pgoff ∈ pages) (hfind : pc.find ino pgoff = none) :
    (pc.fill slot ⟨ino, pgoff, f⟩ page).missing ino pages + 1 = pc.missing ino pages := by
  have hfilter : pages.filter
        (fun p => ((pc.fill slot ⟨ino, pgoff, f⟩ page).find ino p).isNone) =
      (pages.filter fun p => (pc.find ino p).isNone).erase pgoff := by
    rw [(hnodup.filter _).erase_eq_filter, filter_filter]
    refine filter_congr fun p _ => ?_
    rw [Bool.eq_iff_iff, Option.isNone_iff_eq_none, find_fill h page, Bool.and_eq_true,
      Option.isNone_iff_eq_none, bne_iff_ne]
  have hin : pgoff ∈ pages.filter fun p => (pc.find ino p).isNone :=
    mem_filter.mpr ⟨hmem, by rw [hfind]; rfl⟩
  unfold missing
  rw [countP_eq_length_filter, countP_eq_length_filter, hfilter,
    length_erase_of_mem hin]
  have := length_pos_of_mem hin
  omega

theorem freeSlots_fill (h : pc.allocSlot = some slot) (s : CacheSlot) (page : Mem) :
    (pc.fill slot s page).freeSlots + 1 = pc.freeSlots :=
  count_set_add_one (allocSlot_some h)

/-- A page that is in the cache stays there. -/
theorem find_readpage {p : ℕ} (h : pc.find ino p ≠ none)
    (hr : pc.readpage read ino pgoff = (o, pc')) : pc'.find ino p ≠ none := by
  obtain ⟨s, -, -, rfl⟩ | ⟨slot, f, freeq, page, -, hslot, -, -, -, rfl⟩ | ⟨-, -, rfl, -⟩ :=
    readpage_cases hr
  · exact h
  · exact fun hnone => h ((find_fill hslot page).mp hnone).2
  · exact h

/-- **Whether the pages have room does not change** as one of them is read: each takes a slot of
its own, and a page that finds none does not return. -/
theorem readpage_room {pages : List ℕ} (hnodup : pages.Nodup) (hmem : pgoff ∈ pages)
    (hread : ∀ m, (read m).isSome) (hframes : pc.missing ino pages ≤ pc.freeq.length)
    (hr : pc.readpage read ino pgoff = (o, pc')) :
    pc'.missing ino pages ≤ pc'.freeq.length ∧
      (pc'.missing ino pages ≤ pc'.freeSlots ↔ pc.missing ino pages ≤ pc.freeSlots) ∧
      (o.isSome → pc'.find ino pgoff ≠ none) ∧
      (o = none → ¬ pc.missing ino pages ≤ pc.freeSlots) := by
  obtain ⟨s, hfind, rfl, rfl⟩ | ⟨slot, f, freeq, page, hfind, hslot, hfreeq, -, rfl, rfl⟩ |
    ⟨hfind, rfl, rfl, hwhy⟩ := readpage_cases hr
  · refine ⟨hframes, Iff.rfl, fun _ => ?_, nofun⟩
    rw [hfind]
    exact nofun
  · have hmissing := missing_fill (f := f) hslot page hnodup hmem hfind
    have hslots := freeSlots_fill hslot ⟨ino, pgoff, f⟩ page
    have hlen : (pc.fill slot ⟨ino, pgoff, f⟩ page).freeq.length + 1 = pc.freeq.length := by
      change pc.freeq.tail.length + 1 = _
      rw [hfreeq]
      rfl
    refine ⟨by omega, by omega, fun _ hnone => ?_, nofun⟩
    exact ((find_fill hslot page).mp hnone).1 rfl
  · have hpos : 0 < pc'.missing ino pages :=
      countP_pos_iff.mpr ⟨pgoff, hmem, by rw [hfind]; rfl⟩
    refine ⟨hframes, Iff.rfl, nofun, fun _ => ?_⟩
    rcases hwhy with hfull | hempty | ⟨f, hfail⟩
    · have hnone : pc'.freeSlots = 0 := count_eq_zero.mpr (allocSlot_eq_none.mp hfull)
      omega
    · rw [hempty, length_nil] at hframes
      omega
    · exact absurd (hread (pc'.frames f)) (by rw [hfail]; exact nofun)

end PageCache

end PokuOS

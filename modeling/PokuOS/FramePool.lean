import Mathlib.Data.Finset.Card
import Mathlib.Order.Interval.Finset.Nat
import PokuOS.Paging
import PokuOS.Transition

/-!
# Frames that are handed out

`vm_page_array` has two ways out: `alloc_page_frame` sets the count of the frame to one, and
`map_page` takes a frame for a table and leaves its count at zero. There is one way back,
`free_page_frame`, which counts down before it frees.

A frame is handed out if it left the list and was not freed since. **The list holds the frames that
are not handed out, each once** (`frame_discipline`), in every run in which only frames that are
handed out are freed. Page tables may change in any way in between.
-/

namespace PokuOS

open Function List

/-- `free_pages_count`. -/
def Vm.freePagesCount (vm : Vm) : ℕ := vm.freeq.foldl (fun count _ => count + 1) 0

/-- `vm_page_array`, its free list and the frames that are handed out. -/
structure FramePool where
  /-- the free list, the counts, and the tables `map_page` looks at -/
  vm : Vm
  /-- `flags & PG_FREE` -/
  pgFree : ℕ → Bool
  /-- taken off the list, and not freed since -/
  allocated : Finset ℕ

namespace FramePool

/-- `_alloc_phys_page` clears the flag of the frame it takes. -/
def handOut (st : FramePool) (vm : Vm) : Option ℕ → FramePool
  | none => { st with vm := vm }
  | some f => ⟨vm, update st.pgFree f false, insert f st.allocated⟩

/-- `alloc_page_frame`. -/
def allocPageFrame (st : FramePool) : FramePool :=
  st.handOut st.vm.allocPageFrame.2 st.vm.allocPageFrame.1

/-- The frame `map_page` takes for a table that is missing. -/
def tableFrame (vm : Vm) (vaddr : ℕ) : Option ℕ :=
  match vm.entry vm.cr3 (pdIdx vaddr) with
  | some _ => none
  | none => vm.allocPhysPage.1

/-- `map_page`. -/
def mapPage (st : FramePool) (vaddr frame : ℕ) (user : Bool) : FramePool :=
  st.handOut (st.vm.mapPage vaddr frame user) (tableFrame st.vm vaddr)

/-- `_free_phys_page`. -/
def freePhysPage (st : FramePool) (f : ℕ) : FramePool :=
  if pageStartIndex ≤ f ∧ f < numPages then
    { st with vm := st.vm.freePhysPage f, pgFree := update st.pgFree f true }
  else st

/-- `free_page_frame`. -/
def freePageFrame (st : FramePool) (f : ℕ) : FramePool :=
  let st := { st with allocated := st.allocated.erase f }
  if f < numPages then
    let st := { st with vm := st.vm.setRefCount f (st.vm.refCount f - 1) }
    if 0 < st.vm.refCount f then st else st.freePhysPage f
  else st.freePhysPage f

/-- The page tables, counts and free list change as `Vm.freePageFrame` says. -/
theorem vm_freePageFrame (st : FramePool) (f : ℕ) :
    (st.freePageFrame f).vm = st.vm.freePageFrame f := by
  unfold FramePool.freePageFrame Vm.freePageFrame FramePool.freePhysPage Vm.freePhysPage
  simp only
  split_ifs <;> rfl

end FramePool

/-- What happens to frames and tables. -/
inductive PoolEvent where
  /-- `alloc_page_frame` -/
  | alloc
  /-- `map_page` -/
  | map (vaddr frame : ℕ) (user : Bool)
  /-- `free_page_frame` -/
  | free (f : ℕ)
  /-- tables are written, or another directory is loaded -/
  | tables (entry : ℕ → Fin 1024 → Option Pte) (cr3 : ℕ)

/-- From `paging_init` on. Only frames that are handed out are freed. -/
def poolSystem : System FramePool PoolEvent where
  init st := ∃ tables, st = ⟨pagingInit tables, fun _ => true, ∅⟩
  allowed st
    | .free f => f ∈ st.allocated
    | _ => True
  step st
    | .alloc => some st.allocPageFrame
    | .map vaddr frame user => some (st.mapPage vaddr frame user)
    | .free f => some (st.freePageFrame f)
    | .tables entry cr3 => some { st with vm := { st.vm with entry := entry, cr3 := cr3 } }

/-- **The list holds what is not handed out.** -/
structure FramePool.Disciplined (st : FramePool) : Prop where
  /-- no frame is on the list twice -/
  nodup : st.vm.freeq.Nodup
  /-- what is on it -/
  mem : ∀ f, f ∈ st.vm.freeq ↔ f ∈ Finset.Ico pageStartIndex numPages ∧ f ∉ st.allocated
  /-- what is handed out was on it -/
  valid : st.allocated ⊆ Finset.Ico pageStartIndex numPages
  /-- a free frame has its flag, and is not counted -/
  flag : ∀ f ∈ st.vm.freeq, st.pgFree f = true ∧ st.vm.refCount f = 0
  /-- a page is counted once, and a table is not counted -/
  count : ∀ f, st.vm.refCount f ≤ 1

namespace FramePool.Disciplined

open Vm

variable {st : FramePool} {vm : Vm}

theorem init (tables : StaticTables) : Disciplined ⟨pagingInit tables, fun _ => true, ∅⟩ := by
  refine ⟨nodup_range' .., fun f => ?_, by simp, fun f _ => ⟨rfl, rfl⟩, fun f => Nat.zero_le 1⟩
  change f ∈ range' pageStartIndex (numPages - pageStartIndex) ↔ _
  rw [mem_range'_1, Nat.add_sub_of_le (by decide : pageStartIndex ≤ numPages)]
  simp

variable (h : st.Disciplined)
include h

theorem same (hfreeq : vm.freeq = st.vm.freeq)
    (hcount : vm.refCount = st.vm.refCount) : Disciplined { st with vm := vm } := by
  refine ⟨hfreeq ▸ h.nodup, fun f => ?_, h.valid, fun f hf => ?_, hcount ▸ h.count⟩
  · rw [hfreeq]
    exact h.mem f
  · rw [hcount]
    exact h.flag f (hfreeq ▸ hf)

theorem take {f n : ℕ} (hfree : st.vm.freeq = f :: vm.freeq) (hn : n ≤ 1)
    (hcount : vm.refCount = update st.vm.refCount f n) :
    (st.handOut vm (some f)).Disciplined := by
  have hnodup := h.nodup
  rw [hfree, nodup_cons] at hnodup
  have hmem : ∀ g, g ∈ vm.freeq ↔ g ∈ st.vm.freeq ∧ g ≠ f := by
    intro g
    rw [hfree, mem_cons]
    refine ⟨fun hg => ⟨.inr hg, ?_⟩, fun hg => hg.1.resolve_left hg.2⟩
    rintro rfl
    exact hnodup.1 hg
  refine ⟨hnodup.2, fun g => ?_, ?_, fun g hg => ?_, fun g => ?_⟩
  · simp only [FramePool.handOut, hmem, h.mem, Finset.mem_insert]
    tauto
  · refine Finset.insert_subset ((h.mem f).mp ?_).1 h.valid
    rw [hfree]
    exact mem_cons_self
  · obtain ⟨hg, hne⟩ := (hmem g).mp hg
    simp only [FramePool.handOut, hcount, update_of_ne hne]
    exact h.flag g hg
  · simp only [FramePool.handOut, hcount, update_apply]
    split
    · exact hn
    · exact h.count g

theorem allocPageFrame : st.allocPageFrame.Disciplined := by
  unfold FramePool.allocPageFrame Vm.allocPageFrame allocPhysPage
  cases hfree : st.vm.freeq with
  | nil => exact h.same rfl rfl
  | cons f freeq =>
    have hlt : f < numPages := (Finset.mem_Ico.mp ((h.mem f).mp (by simp [hfree])).1).2
    simp only [if_pos hlt]
    exact h.take hfree le_rfl rfl

theorem mapPage (vaddr frame : ℕ) (user : Bool) : (st.mapPage vaddr frame user).Disciplined := by
  unfold FramePool.mapPage FramePool.tableFrame Vm.mapPage allocPhysPage
  cases st.vm.entry st.vm.cr3 (pdIdx vaddr) with
  | some pde => exact h.same rfl rfl
  | none =>
    cases hfree : st.vm.freeq with
    | nil => exact h.same rfl rfl
    | cons pt freeq => exact h.take hfree (h.count pt) (update_eq_self ..).symm

/-- **A frame that is handed out goes back on the list**: its count is one or zero. -/
theorem freePageFrame {f : ℕ} (hf : f ∈ st.allocated) : (st.freePageFrame f).Disciplined := by
  have hrange := h.valid hf
  have hbounds := Finset.mem_Ico.mp hrange
  have hzero : st.vm.refCount f - 1 = 0 := Nat.sub_eq_zero_of_le (h.count f)
  have hnot : f ∉ st.vm.freeq := fun hc => ((h.mem f).mp hc).2 hf
  have hfreed : st.freePageFrame f =
      ⟨{ st.vm with freeq := f :: st.vm.freeq, refCount := update st.vm.refCount f 0 },
        update st.pgFree f true, st.allocated.erase f⟩ := by
    simp [FramePool.freePageFrame, FramePool.freePhysPage, Vm.freePhysPage, setRefCount, hbounds,
      hzero]
  rw [hfreed]
  refine ⟨nodup_cons.mpr ⟨hnot, h.nodup⟩, fun g => ?_,
    (Finset.erase_subset f _).trans h.valid, fun g hg => ?_, fun g => ?_⟩
  · rw [mem_cons, h.mem, Finset.mem_erase]
    by_cases hg : g = f
    · simp [hg, hrange]
    · simp [hg]
  · by_cases hgf : g = f
    · simp [hgf]
    · simp only [update_of_ne hgf]
      exact h.flag g ((mem_cons.mp hg).resolve_left hgf)
  · simp only [update_apply]
    split
    · exact Nat.zero_le 1
    · exact h.count g

/-- **Every event keeps it.** -/
theorem step {e : PoolEvent} (hallowed : poolSystem.allowed st e) :
    Post (poolSystem.step st e) Disciplined := by
  cases e with
  | alloc => exact .some h.allocPageFrame
  | map vaddr frame user => exact .some (h.mapPage vaddr frame user)
  | free f => exact .some (h.freePageFrame hallowed)
  | tables entry cr3 => exact .some (h.same rfl rfl)

/-- What is free and what is handed out is all there is. -/
theorem freePagesCount_add_card :
    st.vm.freePagesCount + st.allocated.card = numPages - pageStartIndex := by
  have hfree : st.vm.freeq.toFinset = Finset.Ico pageStartIndex numPages \ st.allocated := by
    ext f
    rw [mem_toFinset, h.mem, Finset.mem_sdiff]
  have hlength : st.vm.freePagesCount = st.vm.freeq.length := by
    simp [freePagesCount, foldl_const]
  rw [hlength, ← toFinset_card_of_nodup h.nodup, hfree, Finset.card_sdiff_add_card,
    Finset.union_eq_left.mpr h.valid, Nat.card_Ico]

end FramePool.Disciplined

/-- **Frame allocator discipline.** In every run from `paging_init` the free list has no
duplicates and consists of the frames that are not handed out, all flagged and not counted; what is
allocated next is not handed out; and free frames and frames handed out add up. -/
theorem frame_discipline {st : FramePool} (h : poolSystem.Reachable st) :
    st.vm.freeq.Nodup ∧
      (∀ f, f ∈ st.vm.freeq ↔ pageStartIndex ≤ f ∧ f < numPages ∧ f ∉ st.allocated) ∧
      (∀ f ∈ st.vm.freeq, st.pgFree f = true ∧ st.vm.refCount f = 0) ∧
      (∀ f, st.vm.allocPageFrame.1 = some f ∨ st.vm.allocPhysPage.1 = some f →
        f ∉ st.allocated) ∧
      st.vm.freePagesCount + st.allocated.card = numPages - pageStartIndex := by
  have hd : st.Disciplined := by
    refine System.Reachable.invariant (S := poolSystem) ?_ ?_ h
    · rintro _ ⟨tables, rfl⟩
      exact .init tables
    · exact fun _ _ st' hst hallowed hstep => hst.step hallowed st' hstep
  have hmem : ∀ f, f ∈ st.vm.freeq ↔ pageStartIndex ≤ f ∧ f < numPages ∧ f ∉ st.allocated := by
    intro f
    rw [hd.mem, Finset.mem_Ico, and_assoc]
  refine ⟨hd.nodup, hmem, hd.flag, fun f hf => ((hmem f).mp ?_).2.2, hd.freePagesCount_add_card⟩
  unfold Vm.allocPageFrame Vm.allocPhysPage at hf
  cases hfree : st.vm.freeq with
  | nil => simp [hfree] at hf
  | cons g freeq =>
    simp only [hfree, Option.some.injEq, or_self] at hf
    exact hf ▸ mem_cons_self

/-- The pool after `paging_init`. -/
def bootPool : FramePool := ⟨pagingInit ⟨1, 2, fun _ => 3⟩, fun _ => true, ∅⟩

/-- A page is handed out, mapped through a new table, and freed: the table's frame stays handed
out. -/
theorem frame_discipline_mapped : ∃ st, poolSystem.Reachable st ∧
    st.allocated = {pageStartIndex + 1} ∧ pageStartIndex ∈ st.vm.freeq ∧
    pageStartIndex + 1 ∉ st.vm.freeq ∧
    st.vm.freePagesCount + 1 = numPages - pageStartIndex := by
  have hinit : poolSystem.Reachable bootPool := .init ⟨_, rfl⟩
  have hmap := (hinit.step (e := PoolEvent.alloc) trivial rfl).step
    (e := PoolEvent.map 0x400000 pageStartIndex true) trivial rfl
  have hout : pageStartIndex ∈
      (bootPool.allocPageFrame.mapPage 0x400000 pageStartIndex true).allocated := by
    decide +kernel
  have hfreed := hmap.step (e := PoolEvent.free pageStartIndex) hout rfl
  have hallocated : ((bootPool.allocPageFrame.mapPage 0x400000 pageStartIndex true).freePageFrame
      pageStartIndex).allocated = {pageStartIndex + 1} := by decide +kernel
  obtain ⟨-, hmem, -, -, hsum⟩ := frame_discipline hfreed
  rw [hallocated, Finset.card_singleton] at hsum
  refine ⟨_, hfreed, hallocated, (hmem _).mpr ⟨le_rfl, by decide, ?_⟩, fun hc => ?_, hsum⟩
  · rw [hallocated]
    decide
  · refine ((hmem _).mp hc).2.2 ?_
    rw [hallocated]
    exact Finset.mem_singleton_self _

end PokuOS

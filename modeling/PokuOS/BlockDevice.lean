import Mathlib.Logic.Function.Basic
import PokuOS.Task

/-!
# Block devices

`bdev_write_deferred` and `bdev_flush` of `fs/bdev.c`. Deferred writes wait in one pool for all
devices, the newest first, and are not marked with the device they are for. The first flush
writes them all to its device, the oldest last.

The first lemma is about lists of writes of any kind: what they leave at a key is the last of
them. For the deferred writes that is the oldest, on the device flushed first; for immediate ones
the newest, on the device they were issued for.
-/

namespace PokuOS

open Function List Option

/-- **What a list of updates leaves at a key**: the value of the last one for it. -/
theorem foldl_update_apply {α β γ : Type} [DecidableEq β] (key : α → β) (value : α → γ)
    (ws : List α) (f : β → γ) (k : β) :
    ws.foldl (fun f w => update f (key w) (value w)) f k =
      ((ws.reverse.find? fun w => key w = k).map value).getD (f k) := by
  induction ws generalizing f with
  | nil => rfl
  | cons w ws ih =>
    rw [foldl_cons, ih, reverse_cons, find?_append]
    cases ws.reverse.find? fun w => key w = k with
    | some w' => rfl
    | none =>
      rw [none_or, find?_singleton]
      by_cases hk : key w = k
      · simp [hk]
      · simp [hk, update_of_ne (Ne.symm hk)]

/-! ## The code -/

/-- The bytes of a block. -/
abbrev Sector : Type := Fin 512 → UInt8

/-- What is on the devices: a block for each device and block number. -/
abbrev Disks : Type := ℕ × ℕ → Sector

/-- `struct deferred_write`. -/
structure DeferredWrite where
  lba : ℕ
  data : Sector
  tier : Tier

/-- A call of `bdev_write_deferred` or `bdev_write`, for one block. -/
structure BlockWrite extends DeferredWrite where
  dev : ℕ

/-- The devices and `write_pool`. -/
structure BlockState where
  /-- what is on the devices -/
  disks : Disks
  /-- the list at `write_pool` -/
  writePool : List DeferredWrite

/-- `bdev_write_deferred`, and whether it succeeds: there may be no memory for the entry. The
device is not used. -/
def bdevWriteDeferred (memory : Bool) (s : BlockState) (w : BlockWrite) : Bool × BlockState :=
  if memory then (true, { s with writePool := w.toDeferredWrite :: s.writePool }) else (false, s)

/-- `bdev_flush`, with a device whose writes succeed. -/
def bdevFlush (s : BlockState) (dev : ℕ) : BlockState where
  disks := s.writePool.foldl (fun disks w => update disks (dev, w.lba) w.data) s.disks
  writePool := []

/-- `bdev_write`, likewise. -/
def bdevWrite (disks : Disks) (w : BlockWrite) : Disks :=
  update disks (w.dev, w.lba) w.data

/-- The state after these deferred writes, which succeed. -/
def deferWrites (s : BlockState) (ws : List BlockWrite) : BlockState :=
  ws.foldl (fun s w => (bdevWriteDeferred true s w).2) s

/-- What is on the devices after the writes, and a flush of each device. -/
def deferredDisks (disks : Disks) (ws : List BlockWrite) (devs : List ℕ) : Disks :=
  (devs.foldl bdevFlush (deferWrites ⟨disks, []⟩ ws)).disks

/-- What is there after the writes, made at once. -/
def immediateDisks (disks : Disks) (ws : List BlockWrite) : Disks := ws.foldl bdevWrite disks

/-! ## What the writes leave -/

theorem immediateDisks_apply (disks : Disks) (ws : List BlockWrite) (k : ℕ × ℕ) :
    immediateDisks disks ws k =
      ((ws.reverse.find? fun w => (w.dev, w.lba) = k).map fun w => w.data).getD (disks k) :=
  foldl_update_apply (fun w : BlockWrite => (w.dev, w.lba)) (fun w => w.data) ws disks k

theorem deferWrites_eq (ws : List BlockWrite) (s : BlockState) :
    deferWrites s ws =
      { s with writePool := ws.reverse.map BlockWrite.toDeferredWrite ++ s.writePool } := by
  induction ws generalizing s with
  | nil => rfl
  | cons w ws ih =>
    rw [deferWrites, foldl_cons, ← deferWrites, ih, reverse_cons, map_append,
      append_assoc]
    rfl

/-- Once the pool is empty, flushing changes nothing. -/
theorem foldl_bdevFlush_nil (disks : Disks) (devs : List ℕ) :
    devs.foldl bdevFlush ⟨disks, []⟩ = ⟨disks, []⟩ := by
  induction devs with
  | nil => rfl
  | cons dev devs ih => exact ih

/-- The deferred writes leave the oldest for each block, on the device flushed first. -/
theorem deferredDisks_apply (disks : Disks) (ws : List BlockWrite) (devs : List ℕ) (k : ℕ × ℕ) :
    deferredDisks disks ws devs k = (devs.head?.bind fun dev =>
      (ws.find? fun w => (dev, w.lba) = k).map fun w => w.data).getD (disks k) := by
  have hpool : deferWrites ⟨disks, []⟩ ws =
      ⟨disks, ws.reverse.map BlockWrite.toDeferredWrite⟩ := by
    rw [deferWrites_eq, append_nil]
  rw [deferredDisks, hpool]
  cases devs with
  | nil => rfl
  | cons dev devs =>
    have hflush : bdevFlush ⟨disks, ws.reverse.map BlockWrite.toDeferredWrite⟩ dev =
        ⟨ws.reverse.foldl (fun disks w => update disks (dev, w.lba) w.data) disks,
          []⟩ := by
      rw [bdevFlush, foldl_map]
    have hlast := foldl_update_apply (fun w : BlockWrite => (dev, w.lba)) (fun w => w.data)
      ws.reverse disks k
    rw [reverse_reverse] at hlast
    rw [foldl_cons, hflush, foldl_bdevFlush_nil]
    exact hlast

/-- What is left on the devices, whatever was there, says what was written. -/
theorem eq_of_getD_eq {a b : Option Sector} (h : ∀ x, a.getD x = b.getD x) : a = b := by
  have hne : ∀ x : Sector, x ≠ fun i => x i + 1 := fun x hx => by simpa using congrFun hx 0
  cases a with
  | none =>
    cases b with
    | none => rfl
    | some y => exact absurd (h fun i => y i + 1).symm (hne y)
  | some x =>
    cases b with
    | none => exact absurd (h fun i => x i + 1) (hne x)
    | some y => exact congrArg some (h x)

/-- Where all writes are for one device, the key is the block number. -/
theorem find_block {ws : List BlockWrite} {dev : ℕ} (h : ∀ w ∈ ws, w.dev = dev) (lba : ℕ) :
    ws.find? (fun w => (w.dev, w.lba) = (dev, lba)) = ws.find? fun w => w.lba = lba := by
  induction ws with
  | nil => rfl
  | cons w ws ih =>
    rw [find?_cons, find?_cons, ih fun w hw => h w (mem_cons_of_mem _ hw)]
    simp [h w mem_cons_self]

/-- **When deferring a write makes no difference.** Whatever is on the devices, deferred writes
leave what immediate ones leave exactly if all were issued for the device that is flushed first,
and the first and the last write of each block are of the same bytes. -/
theorem deferredDisks_iff (ws : List BlockWrite) (devs : List ℕ) :
    (∀ disks, deferredDisks disks ws devs = immediateDisks disks ws) ↔
      (∀ w ∈ ws, devs.head? = some w.dev) ∧
        ∀ lba, (ws.find? fun w => w.lba = lba).map (fun w => w.data) =
          (ws.reverse.find? fun w => w.lba = lba).map fun w => w.data := by
  constructor
  · intro h
    have hkey : ∀ k, (devs.head?.bind fun dev =>
        (ws.find? fun w => (dev, w.lba) = k).map fun w => w.data) =
          (ws.reverse.find? fun w => (w.dev, w.lba) = k).map fun w => w.data := by
      refine fun k => eq_of_getD_eq fun x => ?_
      have hx := congrFun (h fun _ => x) k
      rwa [deferredDisks_apply, immediateDisks_apply] at hx
    have hdev : ∀ w ∈ ws, devs.head? = some w.dev := by
      intro w hw
      obtain ⟨w', hw'⟩ : ∃ w', (ws.reverse.find? fun w' => (w'.dev, w'.lba) = (w.dev, w.lba)) =
          some w' := isSome_iff_exists.mp
        (find?_isSome.mpr ⟨w, mem_reverse.mpr hw, decide_eq_true rfl⟩)
      have hfound := hkey (w.dev, w.lba)
      rw [hw', map_some] at hfound
      obtain ⟨dev, hhead, hfound⟩ := bind_eq_some_iff.mp hfound
      obtain ⟨w1, hw1, -⟩ := map_eq_some_iff.mp hfound
      obtain ⟨rfl, -⟩ : dev = w.dev ∧ w1.lba = w.lba := by simpa using find?_some hw1
      exact hhead
    refine ⟨hdev, fun lba => ?_⟩
    cases hws : ws with
    | nil => rfl
    | cons w0 ws0 =>
      rw [← hws]
      have hhead := hdev w0 (hws ▸ mem_cons_self)
      have hone : ∀ w ∈ ws.reverse, w.dev = w0.dev := fun w hw =>
        some.inj ((hdev w (mem_reverse.mp hw)).symm.trans hhead)
      have hlba := hkey (w0.dev, lba)
      rw [hhead, bind_some, find_block hone] at hlba
      simpa using hlba
  · rintro ⟨hdev, hdata⟩ disks
    funext ⟨d, lba⟩
    rw [deferredDisks_apply, immediateDisks_apply]
    cases hws : ws with
    | nil => cases devs.head? <;> rfl
    | cons w0 ws0 =>
      rw [← hws]
      have hhead := hdev w0 (hws ▸ mem_cons_self)
      have hone : ∀ w ∈ ws.reverse, w.dev = w0.dev := fun w hw =>
        some.inj ((hdev w (mem_reverse.mp hw)).symm.trans hhead)
      rw [hhead, bind_some]
      by_cases hd : w0.dev = d
      · subst hd
        rw [find_block hone, ← hdata lba]
        simp
      · have hleft : ws.find? (fun w => (w0.dev, w.lba) = (d, lba)) = none := by
          simp [find?_eq_none, hd]
        have hright : ws.reverse.find? (fun w => (w.dev, w.lba) = (d, lba)) = none := by
          refine find?_eq_none.mpr fun w hw => ?_
          simp [hone w hw, hd]
        rw [hleft, hright]

/-- A block of equal bytes. -/
def fillWrite (dev lba : ℕ) (byte : UInt8) : BlockWrite := ⟨⟨lba, fun _ => byte, .user⟩, dev⟩

/-- **Deferred writes are lost and misplaced**: of two writes of a block the older stays, and a
write for the second device is made on the first. -/
theorem deferredDisks_wrong :
    deferredDisks (fun _ _ => 0) [fillWrite 0 7 1, fillWrite 0 7 2] [0] (0, 7) 0 = 1 ∧
      immediateDisks (fun _ _ => 0) [fillWrite 0 7 1, fillWrite 0 7 2] (0, 7) 0 = 2 ∧
      deferredDisks (fun _ _ => 0) [fillWrite 1 7 1] [0, 1] (1, 7) 0 = 0 ∧
      immediateDisks (fun _ _ => 0) [fillWrite 1 7 1] (1, 7) 0 = 1 := by
  decide +kernel

end PokuOS

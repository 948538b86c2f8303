import Mathlib.Data.List.TakeWhile
import PokuOS.Process

/-!
# The stack of a new program

`build_arg_stack` of `kernel/process.c` pushes the arguments of a new program on its stack: the
strings from the top of the stack page downwards, then, at an aligned address, `argc`, the vector
of their addresses and a zero. There `_start` of `user/lib/crt0.c` finds them.

A write outside of the stack page gives `none`. **There is none, and nothing overlaps**
(`argStack_layout`).
-/

namespace PokuOS

open List

/-- A row of the argument table, of `EXEC_ARG_MAXLEN` bytes. -/
abbrev ArgRow : Type := Fin 64 → UInt8

/-- `strlen` of a row. -/
def ArgRow.strlen (row : ArgRow) : ℕ := (List.finRange 64).findIdx fun j => row j = 0

namespace Mem

/-- `memcpy` to the stack page. -/
def copyToStack (m : Mem) (a n : ℕ) (f : ℕ → UInt8) : Option Mem :=
  if userStackVirt ≤ a ∧ a + n ≤ userStackVirt + pageSize then some (m.blit a n f) else none

/-- Stores a word of the stack page. -/
def storeToStack (m : Mem) (a v : ℕ) : Option Mem :=
  if userStackVirt ≤ a ∧ a + 4 ≤ userStackVirt + pageSize then some (m.store a v) else none

/-- The loop of `build_arg_stack` over rows: what is in memory then, `sp` and `str_addr`. -/
def pushStrings : List ArgRow → Mem → ℕ → Option (Mem × ℕ × List ℕ)
  | [], m, sp => some (m, sp, [])
  | row :: rows, m, sp =>
    if row 0 = 0 then some (m, sp, [])
    else do
      let n := row.strlen + 1
      let m ← m.copyToStack (sp - n) n fun i => row (Fin.ofNat 64 i)
      let (m, sp', strAddr) ← pushStrings rows m (sp - n)
      return (m, sp', (sp - n) :: strAddr)

/-- The vector of addresses, and the zero behind it. -/
def storeVector : List ℕ → ℕ → Mem → Option Mem
  | [], a, m => m.storeToStack a 0
  | addr :: strAddr, a, m => do
    let m ← m.storeToStack a addr
    storeVector strAddr (a + 4) m

/-- `build_arg_stack`: the stack pointer, and what is in memory then. -/
def buildArgStack (m : Mem) (argv : Fin 9 → ArgRow) : Option (ℕ × Mem) := do
  let (m, sp, strAddr) ←
    pushStrings ((List.ofFn argv).take Kernel.maxExecArgs) m (userStackVirt + pageSize)
  let argc := strAddr.length
  let sp := sp / 4 * 4 - (argc + 1) * 4
  let m ← storeVector strAddr sp m
  let m ← m.storeToStack (sp - 4) argc
  return (sp - 4, m)

end Mem

/-- The string of a row is in memory, up to its NUL. -/
def ArgRow.At (row : ArgRow) (m : Mem) (a : ℕ) : Prop :=
  ∀ j : Fin 64, j.val ≤ row.strlen → m (a + j.val) = row j

/-- **The stack a program starts with.** -/
structure ArgStack (m : Mem) (sp : ℕ) (rows : List ArgRow) : Prop where
  /-- the stack pointer is aligned -/
  aligned : sp % 4 = 0
  /-- it points to the stack page -/
  inside : userStackVirt ≤ sp
  argc : m.load sp = rows.length
  /-- `argv[i]` -/
  string : ∀ i (hi : i < rows.length), rows[i].At m (m.load (sp + 4 + 4 * i))
  /-- it is above the vector and in the page -/
  above : ∀ i (hi : i < rows.length), sp + 4 * (rows.length + 2) ≤ m.load (sp + 4 + 4 * i) ∧
    m.load (sp + 4 + 4 * i) + rows[i].strlen + 1 ≤ userStackVirt + pageSize
  /-- it is behind the strings after it -/
  apart : ∀ i j (_ : i < rows.length) (hj : j < rows.length), i < j →
    m.load (sp + 4 + 4 * j) + rows[j].strlen + 1 ≤ m.load (sp + 4 + 4 * i)
  /-- `argv[argc]` -/
  null : m.load (sp + 4 + 4 * rows.length) = 0

/-! ## Strings -/

theorem ArgRow.strlen_lt {row : ArgRow} (h : ∃ j, row j = 0) : row.strlen < 64 := by
  obtain ⟨j, hj⟩ := h
  rw [strlen]
  exact (findIdx_lt_length_of_exists
    ⟨j, mem_finRange j, decide_eq_true hj⟩).trans_eq length_finRange

/-- **Strings one below the other**, without gaps, from `hi` down to `lo`. -/
inductive Stacked (m : Mem) (lo : ℕ) : ℕ → List ArgRow → List ℕ → Prop where
  /-- no string -/
  | nil : Stacked m lo lo [] []
  /-- a string, and those below it -/
  | cons {a : ℕ} {row : ArgRow} {rows : List ArgRow} {addrs : List ℕ} : row.At m a →
      Stacked m lo a rows addrs → Stacked m lo (a + (row.strlen + 1)) (row :: rows) (a :: addrs)

namespace Stacked

variable {m m' : Mem} {lo hi : ℕ} {rows : List ArgRow} {addrs : List ℕ}

variable (h : Stacked m lo hi rows addrs)
include h

theorem length_eq : addrs.length = rows.length := by
  induction h with
  | nil => rfl
  | cons _ _ ih => rw [length_cons, length_cons, ih]

theorem congr (heq : ∀ x, lo ≤ x → m' x = m x) : Stacked m' lo hi rows addrs ∧ lo ≤ hi := by
  induction h with
  | nil => exact ⟨.nil, le_rfl⟩
  | cons hat _ ih =>
    exact ⟨.cons (fun j hj => (heq _ (by omega)).trans (hat j hj)) ih.1, by omega⟩

theorem string (i : ℕ) (hr : i < rows.length) (ha : i < addrs.length) :
    rows[i].At m addrs[i] ∧ lo ≤ addrs[i] ∧ addrs[i] + rows[i].strlen + 1 ≤ hi := by
  induction h generalizing i with
  | nil => cases hr
  | cons hat hrest ih =>
    have hle := (hrest.congr fun _ _ => rfl).2
    cases i with
    | zero => exact ⟨hat, hle, by simp only [getElem_cons_zero]; omega⟩
    | succ i =>
      obtain ⟨hstring, hlo, hhi⟩ := ih i (Nat.lt_of_succ_lt_succ hr) (Nat.lt_of_succ_lt_succ ha)
      exact ⟨hstring, hlo, by simp; omega⟩

theorem apart {i j : ℕ} (hij : i < j) (hr : j < rows.length)
    (ha : j < addrs.length) : addrs[j] + rows[j].strlen + 1 ≤ addrs[i] := by
  induction h generalizing i j with
  | nil => cases hr
  | cons _ hrest ih =>
    obtain ⟨j, rfl⟩ := Nat.exists_eq_add_one_of_ne_zero (Nat.ne_zero_of_lt hij)
    cases i with
    | zero => exact (hrest.string j (Nat.lt_of_succ_lt_succ hr) (Nat.lt_of_succ_lt_succ ha)).2.2
    | succ i =>
      exact ih (Nat.lt_of_succ_lt_succ hij) (Nat.lt_of_succ_lt_succ hr)
        (Nat.lt_of_succ_lt_succ ha)

end Stacked

namespace Mem

theorem copyToStack_eq {m : Mem} {a n : ℕ} {f : ℕ → UInt8} (hlo : 0xBFFFF000 ≤ a)
    (hhi : a + n ≤ 0xC0000000) : m.copyToStack a n f = some (m.blit a n f) := if_pos ⟨hlo, hhi⟩

theorem storeToStack_eq {m : Mem} {a v : ℕ} (hlo : 0xBFFFF000 ≤ a) (hhi : a + 4 ≤ 0xC0000000) :
    m.storeToStack a v = some (m.store a v) := if_pos ⟨hlo, hhi⟩

/-- **The loop stacks the rows before the first empty one**, if there is room. -/
theorem pushStrings_spec {rows : List ArgRow} (hnul : ∀ row ∈ rows, ∃ j, row j = 0) :
    ∀ {m : Mem} {sp : ℕ}, 0xBFFFFC00 + 64 * rows.length ≤ sp → sp ≤ 0xC0000000 →
      ∃ m' lo addrs, pushStrings rows m sp = some (m', lo, addrs) ∧
        Stacked m' lo sp (rows.takeWhile fun row => row 0 ≠ 0) addrs ∧
        (∀ x, sp ≤ x → m' x = m x) ∧ 0xBFFFFC00 ≤ lo := by
  induction rows with
  | nil => exact fun hsp _ => ⟨_, _, _, rfl, .nil, fun _ _ => rfl, hsp⟩
  | cons row rows ih =>
    intro m sp hsp htop
    rw [length_cons] at hsp
    rw [pushStrings]
    by_cases hempty : row 0 = 0
    · rw [if_pos hempty, takeWhile_cons_of_neg (by simpa using hempty)]
      exact ⟨m, sp, [], rfl, .nil, fun _ _ => rfl, by omega⟩
    have hlen := ArgRow.strlen_lt (hnul row mem_cons_self)
    obtain ⟨a, rfl⟩ : ∃ a, sp = a + (row.strlen + 1) := ⟨sp - (row.strlen + 1), by omega⟩
    rw [if_neg hempty, takeWhile_cons_of_pos (by simpa using hempty)]
    simp only [Nat.add_sub_cancel]
    rw [copyToStack_eq (by omega) htop]
    obtain ⟨m', lo, addrs, hrun, hstack, hsame, hlo⟩ := ih
      (fun row hrow => hnul row (mem_cons_of_mem _ hrow))
      (show 0xBFFFFC00 + 64 * rows.length ≤ a by omega) (by omega)
    refine ⟨m', lo, a :: addrs, bind_of_some hrun _, .cons (fun j hj => ?_) hstack,
      fun x hx => (hsame x (by omega)).trans (blit_apply_of_lt_or_ge (by omega)), hlo⟩
    rw [hsame _ (by omega), blit, if_pos (by omega), Nat.add_sub_cancel_left]
    exact congrArg row (Fin.ext (Nat.mod_eq_of_lt j.isLt))

/-- **The vector is stored**, and nothing else changes. -/
theorem storeVector_spec (addrs : List ℕ) : ∀ {m : Mem} {a : ℕ}, 0xBFFFF000 ≤ a →
    a + 4 * (addrs.length + 1) ≤ 0xC0000000 →
    ∃ m', storeVector addrs a m = some m' ∧
      (∀ i (hi : i < addrs.length), m'.load (a + 4 * i) = addrs[i] % 2 ^ 32) ∧
      m'.load (a + 4 * addrs.length) = 0 ∧
      ∀ x, x < a ∨ a + 4 * (addrs.length + 1) ≤ x → m' x = m x := by
  induction addrs with
  | nil =>
    intro m a hlo hhi
    refine ⟨_, storeToStack_eq hlo hhi, nofun, load_store_self .., fun x hx => ?_⟩
    exact store_apply_of_lt_or_ge (by simpa using hx)
  | cons addr addrs ih =>
    intro m a hlo hhi
    rw [length_cons] at hhi
    obtain ⟨m', hrun, hwords, hnull, hsame⟩ := ih (show 0xBFFFF000 ≤ a + 4 by omega) (by omega)
    refine ⟨m', (bind_of_some (storeToStack_eq hlo (by omega)) _).trans hrun, fun i hi => ?_, ?_,
      fun x hx => ?_⟩
    · cases i with
      | zero => exact (load_congr fun x _ hx => hsame x (.inl hx)).trans (load_store_self ..)
      | succ i =>
        have hword := hwords i (Nat.lt_of_succ_lt_succ hi)
        rwa [Nat.add_assoc, Nat.add_comm 4, ← Nat.mul_succ] at hword
    · rwa [Nat.add_assoc, Nat.add_comm 4, ← Nat.mul_succ] at hnull
    · rw [length_cons] at hx
      rw [hsame x (by omega), store_apply_of_lt_or_ge (by omega)]

end Mem

theorem takeWhile_rows {argv : Fin 9 → ArgRow} {k : Fin 9} (hk : argv k 0 = 0)
    (hfirst : ∀ r < k, argv r 0 ≠ 0) :
    ((List.ofFn argv).take Kernel.maxExecArgs).takeWhile (fun row => row 0 ≠ 0) =
      (List.ofFn argv).take k := by
  have hle : k.val ≤ Kernel.maxExecArgs := Nat.le_of_lt_succ k.isLt
  have hbefore : ∀ row ∈ (List.ofFn argv).take k, decide (row 0 ≠ 0) = true := by
    intro row hrow
    obtain ⟨i, hi, rfl⟩ := List.mem_take_iff_getElem.mp hrow
    rw [List.getElem_ofFn]
    exact decide_eq_true (hfirst _ (Nat.lt_of_lt_of_le hi (Nat.min_le_left ..)))
  rw [← List.take_append_drop k.val ((List.ofFn argv).take Kernel.maxExecArgs), List.take_take,
    Nat.min_eq_left hle, List.takeWhile_append_of_pos hbefore]
  refine (congrArg _ ?_).trans (List.append_nil _)
  by_cases hlt : k.val < ((List.ofFn argv).take Kernel.maxExecArgs).length
  · rw [List.drop_eq_getElem_cons hlt, List.takeWhile_cons_of_neg]
    simpa using hk
  · rw [List.drop_of_length_le (Nat.le_of_not_lt hlt), List.takeWhile_nil]

/-- **The layout of the initial stack.** For every argument table whose rows end with a NUL and
whose first empty row is row `k`, all writes of `build_arg_stack` are in the stack page; it returns
an aligned address with `k`, the addresses of the strings of the first `k` rows and zero from there
on, and no string overlaps another or the vector. -/
theorem argStack_layout {argv : Fin 9 → ArgRow} (hnul : ∀ r, ∃ j, argv r j = 0) {k : Fin 9}
    (hk : argv k 0 = 0) (hfirst : ∀ r < k, argv r 0 ≠ 0) (m : Mem) :
    ∃ sp m', m.buildArgStack argv = some (sp, m') ∧ ArgStack m' sp ((List.ofFn argv).take k) := by
  have hends : ∀ row ∈ (ofFn argv).take Kernel.maxExecArgs, ∃ j, row j = 0 := by
    intro row hrow
    obtain ⟨r, rfl⟩ := mem_ofFn.mp (mem_of_mem_take hrow)
    exact hnul r
  obtain ⟨m1, lo, addrs, hpush, hstack, -, hlo⟩ := Mem.pushStrings_spec hends (m := m)
    (show _ ≤ 0xC0000000 by simp [Kernel.maxExecArgs]) le_rfl
  rw [takeWhile_rows hk hfirst] at hstack
  have hcount := hstack.length_eq
  have hfew : ((ofFn argv).take k).length ≤ 8 :=
    (length_take_le _ _).trans (Nat.le_of_lt_succ k.isLt)
  generalize (ofFn argv).take k = rows at *
  have hhi := (hstack.congr fun _ _ => rfl).2
  obtain ⟨sp, hsp, hlow, hmod, hvector⟩ : ∃ sp, lo / 4 * 4 - (addrs.length + 1) * 4 = sp + 4 ∧
      0xBFFFF000 ≤ sp ∧ sp % 4 = 0 ∧ sp + 4 * (addrs.length + 2) ≤ lo :=
    ⟨lo / 4 * 4 - (addrs.length + 1) * 4 - 4, by omega, by omega, by omega, by omega⟩
  obtain ⟨m2, hvec, hwords, hnull, hsame⟩ := Mem.storeVector_spec addrs
    (show 0xBFFFF000 ≤ sp + 4 by omega) (by omega)
  have hstack : Stacked (m2.store sp addrs.length) lo _ rows addrs := (hstack.congr fun x hx => by
    rw [Mem.store_apply_of_lt_or_ge (by omega), hsame x (by omega)]).1
  have hload : ∀ i (hi : i < addrs.length),
      (m2.store sp addrs.length).load (sp + 4 + 4 * i) = addrs[i] := by
    intro i hi
    have hstring := hstack.string i (hcount ▸ hi) hi
    rw [Mem.load_store_of_disjoint (by omega), hwords i hi, Nat.mod_eq_of_lt (by omega)]
  refine ⟨sp, m2.store sp addrs.length, ?_, hmod, hlow, ?_, fun i hi => ?_, fun i hi => ?_,
    fun i j hi hj hij => ?_, ?_⟩
  · rw [Mem.buildArgStack, show userStackVirt + pageSize = 0xC0000000 from rfl,
      bind_of_some hpush]
    simp only [hsp, bind_of_some hvec, Nat.add_sub_cancel]
    rw [Mem.storeToStack_eq hlow (by omega)]
    rfl
  · rw [Mem.load_store_self, hcount]
    exact Nat.mod_eq_of_lt (by omega)
  · rw [hload i (hcount ▸ hi)]
    exact (hstack.string i hi (hcount ▸ hi)).1
  · have hstring := hstack.string i hi (hcount ▸ hi)
    rw [hload i (hcount ▸ hi)]
    exact ⟨by omega, hstring.2.2⟩
  · rw [hload i (hcount ▸ hi), hload j (hcount ▸ hj)]
    exact hstack.apart hij hj (hcount ▸ hj)
  · rw [← hcount, Mem.load_store_of_disjoint (by omega)]
    exact hnull

/-- A table with the arguments `a` and `b`. -/
def twoArgs : Fin 9 → ArgRow := fun r j =>
  if j = 0 then if r = 0 then 0x61 else if r = 1 then 0x62 else 0 else 0

/-- A program with two arguments finds their addresses behind `argc`, and a null pointer. -/
theorem argStack_layout_two :
    ∃ sp m', Mem.buildArgStack (fun _ => 0) twoArgs = some (sp, m') ∧ m'.load sp = 2 ∧
      (twoArgs 0).At m' (m'.load (sp + 4)) ∧ (twoArgs 1).At m' (m'.load (sp + 8)) ∧
      m'.load (sp + 8) + 2 ≤ m'.load (sp + 4) ∧ m'.load (sp + 12) = 0 := by
  have hnul : ∀ r, ∃ j, twoArgs r j = 0 := fun r => ⟨1, if_neg (by simp)⟩
  obtain ⟨sp, m', hrun, hstack⟩ := argStack_layout hnul (k := 2) rfl (by decide) fun _ => 0
  exact ⟨sp, m', hrun, hstack.argc, hstack.string 0 (by decide), hstack.string 1 (by decide),
    hstack.apart 0 1 (by decide) (by decide) (by decide), hstack.null⟩

end PokuOS

import PokuOS.TrapDump

/-!
# Ranges of user memory

Before a system call touches memory of the caller, `user_range_valid` of `kernel/syscall.c` looks
up every page of the range. **It is exact** (`userRangeValid_iff`): sums that wrap around, ranges
that begin inside a page and ranges that end at 3 GiB included.
-/

namespace PokuOS

namespace Vm

/-- The loop of `user_range_valid`, for at most so many pages: its answer, and the entries of the
directory it has looked at. -/
def userRangeLoop (vm : Vm) (fin : ℕ) : ℕ → ℕ → Option (Bool × List (Fin 1024))
  | 0, _ => none
  | fuel + 1, page =>
    if page < fin then
      match vm.entry vm.cr3 (pdIdx page) with
      | none => some (false, [pdIdx page])
      | some pde =>
        match vm.entry pde.frame (ptIdx page) with
        | none => some (false, [pdIdx page])
        | some pte =>
          if pte.user then
            (vm.userRangeLoop fin fuel (add32 page 0x1000)).map fun r => (r.1, pdIdx page :: r.2)
          else some (false, [pdIdx page])
    else some (true, [])

/-- `user_range_valid`. Without an answer after all the pages there are, the loop does not end. -/
def userRangeValid (vm : Vm) (addr len : UInt32) : Option (Bool × List (Fin 1024)) :=
  if len = 0 then some (true, [])
  else if 0xC0000000 ≤ addr then some (false, [])
  else
    let fin := addr + len
    if fin < addr ∨ 0xC0000000 < fin then some (false, [])
    else vm.userRangeLoop fin.toNat (2 ^ 20) (addr.toNat / 4096 * 4096)

/-- There is an answer, it is whether `P`, and only entries for the user's half were looked at. -/
def Answers (r : Option (Bool × List (Fin 1024))) (P : Prop) : Prop :=
  ∃ valid dirs, r = some (valid, dirs) ∧ (valid = true ↔ P) ∧ ∀ i ∈ dirs, i.val < 768

variable {vm : Vm} {P : Prop}

theorem answers_yes (h : P) : Answers (some (true, [])) P :=
  ⟨true, [], rfl, ⟨fun _ => h, fun _ => rfl⟩, nofun⟩

theorem answers_no {dirs : List (Fin 1024)} (hdirs : ∀ i ∈ dirs, i.val < 768) (h : ¬P) :
    Answers (some (false, dirs)) P :=
  ⟨false, dirs, rfl, ⟨nofun, fun hp => absurd hp h⟩, hdirs⟩

/-- **The loop looks at the pages up to the end of the range**, and ends. -/
theorem answers_userRangeLoop {fin : ℕ} (hfin : fin ≤ 0xC0000000) (fuel : ℕ) :
    ∀ {page : ℕ}, page % 4096 = 0 → fin ≤ page + 4096 * fuel →
      Answers (vm.userRangeLoop fin (fuel + 1) page)
        (∀ a, page ≤ a → a < fin → vm.userPage a) := by
  induction fuel with
  | zero =>
    intro page _ hend
    rw [userRangeLoop, if_neg (by omega)]
    exact answers_yes fun a h1 h2 => by omega
  | succ fuel ih =>
    intro page hpage hend
    rw [userRangeLoop]
    by_cases hlt : page < fin
    swap
    · rw [if_neg hlt]
      exact answers_yes fun a h1 h2 => by omega
    have hidx : (pdIdx page).val < 768 := by
      change page / 2 ^ 22 % 1024 < 768
      omega
    -- the first page decides, unless it is a user page
    have hstop : ¬vm.userPage page → Answers (some (false, [pdIdx page]))
        (∀ a, page ≤ a → a < fin → vm.userPage a) := fun hno =>
      answers_no (by simpa using hidx) fun hall => hno (hall page le_rfl hlt)
    rw [if_pos hlt]
    cases hpde : vm.entry vm.cr3 (pdIdx page) with
    | none => exact hstop (by simp [userPage, lookup, hpde])
    | some pde =>
      simp only
      cases hpte : vm.entry pde.frame (ptIdx page) with
      | none => exact hstop (by simp [userPage, lookup, hpde, hpte])
      | some pte =>
        simp only
        by_cases huser : pte.user = true
        swap
        · rw [if_neg huser]
          exact hstop (by simp [userPage, lookup, hpde, hpte, huser])
        have hfirst : vm.userPage page := by simp [userPage, lookup, hpde, hpte, huser]
        obtain ⟨valid, dirs, hloop, hiff, hdirs⟩ :=
          ih (show (page + 4096) % 4096 = 0 by omega) (by omega)
        refine ⟨valid, pdIdx page :: dirs, ?_, hiff.trans ⟨fun hall a h1 h2 => ?_, fun hall a h1 =>
          hall a (by omega)⟩, List.forall_mem_cons.mpr ⟨hidx, hdirs⟩⟩
        · rw [if_pos huser, add32_eq (by omega), hloop]
          rfl
        · by_cases hnext : page + 4096 ≤ a
          · exact hall a hnext h2
          · exact userPage_congr (by omega) hfirst

/-- **`user_range_valid` is exact.** For all page tables, addresses and lengths it returns; it says
yes if and only if the range is empty, or ends at 3 GiB at the latest, without wrapping around, and
every byte of it is on a present page that user mode may access. It looks only at entries for the
user's half. -/
theorem userRangeValid_iff (vm : Vm) (addr len : UInt32) :
    Answers (vm.userRangeValid addr len) (len = 0 ∨ addr.toNat + len.toNat ≤ 0xC0000000 ∧
      ∀ a, addr.toNat ≤ a → a < addr.toNat + len.toNat → vm.userPage a) := by
  have hlen := len.toNat_lt
  have haddr := addr.toNat_lt
  have hfin : (addr + len).toNat = (addr.toNat + len.toNat) % 2 ^ 32 := UInt32.toNat_add ..
  unfold userRangeValid
  by_cases hzero : len = 0
  · rw [if_pos hzero]
    exact answers_yes (.inl hzero)
  have hpos : len.toNat ≠ 0 := fun hc => hzero (UInt32.toNat_inj.mp hc)
  rw [if_neg hzero]
  by_cases hhigh : 0xC0000000 ≤ addr
  · rw [if_pos hhigh]
    have hhigh : 0xC0000000 ≤ addr.toNat := UInt32.le_iff_toNat_le.mp hhigh
    exact answers_no nofun fun h => h.elim hzero fun h => by omega
  rw [if_neg hhigh]
  have hhigh : ¬0xC0000000 ≤ addr.toNat := fun hc => hhigh (UInt32.le_iff_toNat_le.mpr hc)
  simp only [UInt32.lt_iff_toNat_lt, hfin]
  by_cases hout : (addr.toNat + len.toNat) % 2 ^ 32 < addr.toNat ∨
      0xC0000000 < (addr.toNat + len.toNat) % 2 ^ 32
  · refine (if_pos hout).symm ▸ answers_no nofun fun h => h.elim hzero fun h => ?_
    omega
  have hsum : (addr.toNat + len.toNat) % 2 ^ 32 = addr.toNat + len.toNat := by omega
  have hrun : Answers (vm.userRangeLoop (addr.toNat + len.toNat) (2 ^ 20 - 1 + 1)
      (addr.toNat / 4096 * 4096)) _ :=
    answers_userRangeLoop (by omega) _ (by omega) (by omega)
  obtain ⟨valid, dirs, hloop, hiff, hdirs⟩ := hrun
  refine ⟨valid, dirs, (if_neg hout).trans (by rw [hsum]; exact hloop), hiff.trans ?_, hdirs⟩
  constructor
  · exact fun hall => .inr ⟨by omega, fun a h1 h2 => hall a (by omega) h2⟩
  · rintro (hc | ⟨-, hall⟩) a h1 h2
    · exact absurd hc hzero
    -- what comes before the range on its first page is on the page of its first byte
    by_cases hbefore : a < addr.toNat
    · exact userPage_congr (by omega) (hall addr.toNat le_rfl (by omega))
    · exact hall a (by omega) h2

end Vm

end PokuOS

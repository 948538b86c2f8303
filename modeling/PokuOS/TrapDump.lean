import PokuOS.SandboxRun

/-!
# The stack dump of a user fault

`exception_trap` prints up to 16 words from the user's stack pointer before it ends the task. It
stops at `0xC0000000`, and does not look whether the words are mapped. A word that is not mapped is
a page fault in kernel mode, and that halts the machine: the dump returns `none`.

**The dump is safe if and only if the pages of its first and last byte are user pages**
(`trapDumpStack_safe_iff`); 64 bytes lie in two pages at most.
-/

namespace PokuOS

/-- `struct trap_frame`, as far as `exception_trap` depends on it. -/
structure TrapFrame where
  cs : UInt32
  esp : UInt32

namespace Vm

/-- The page at `vaddr` is present, and user mode may read it. -/
def userPage (vm : Vm) (vaddr : ℕ) : Prop := (vm.lookup vaddr).any Pte.user = true

instance (vm : Vm) (vaddr : ℕ) : Decidable (vm.userPage vaddr) :=
  inferInstanceAs (Decidable (_ = true))

/-- All four bytes of the word at `addr` are in such a page. -/
def UserWord (vm : Vm) (addr : ℕ) : Prop := ∀ i < 4, vm.userPage (addr + i)

/-- Where the dump of a user stack ends. -/
def dumpLimit : ℕ := 0xC0000000

/-- The loop of `trap_dump_stack`, for a user stack: the addresses it has read from. A word in a
page that is not present cannot be read. -/
def dumpWords (vm : Vm) (esp : ℕ) : ℕ → ℕ → Option (List ℕ)
  | 0, _ => some []
  | n + 1, i =>
    let addr := (esp + 4 * i) % 2 ^ 32
    if dumpLimit ≤ addr then some []
    else if vm.pagePresent addr && vm.pagePresent (addr + 3) then
      (vm.dumpWords esp n (i + 1)).map (addr :: ·)
    else none

/-- `trap_dump_stack` of a user stack. -/
def trapDumpStack (vm : Vm) (esp : UInt32) : Option (List ℕ) := vm.dumpWords esp.toNat 16 0

end Vm

/-- `exception_trap`: a fault in kernel mode halts the machine. -/
def Kernel.exceptionTrap (k : Kernel) (tf : TrapFrame) (vector : ℕ) : Option Kernel :=
  if tf.cs &&& 3 ≠ 0 then (k.vm.trapDumpStack tf.esp).bind fun _ => k.taskExit vector else none

/-- The last byte the dump reads if the stack pointer is below the limit. -/
def dumpEnd (esp : ℕ) : ℕ := esp + 4 * min 16 ((Vm.dumpLimit - esp + 3) / 4) - 1

namespace Vm

variable {vm : Vm}

/-- Addresses of one page are translated alike. -/
theorem lookup_samePage {a b : ℕ} (h : a / 4096 = b / 4096) : vm.lookup a = vm.lookup b := by
  have hpd : pdIdx a = pdIdx b := by
    refine Fin.ext ?_
    change a / 2 ^ 22 % 1024 = b / 2 ^ 22 % 1024
    omega
  have hpt : ptIdx a = ptIdx b := by
    refine Fin.ext ?_
    change a / 2 ^ 12 % 1024 = b / 2 ^ 12 % 1024
    omega
  unfold lookup
  rw [hpd, hpt]

theorem userPage_congr {a b : ℕ} (h : a / 4096 = b / 4096) (ha : vm.userPage a) :
    vm.userPage b := by
  unfold userPage at *
  rwa [← lookup_samePage h]

theorem pagePresent_of_userPage {a : ℕ} (h : vm.userPage a) : vm.pagePresent a = true := by
  unfold userPage lookup at h
  unfold pagePresent
  cases hpde : vm.entry vm.cr3 (pdIdx a) with
  | none => simp [hpde] at h
  | some pde =>
    cases hpte : vm.entry pde.frame (ptIdx a) with
    | none => simp [hpde, hpte] at h
    | some pte => simp [hpte]

/-- The words the loop has to read, from the `i`-th on. -/
theorem dumpWords_eq {esp : ℕ} (hesp : esp < dumpLimit) {n : ℕ} :
    ∀ {i : ℕ}, i + n ≤ 16 →
      (∀ j, i ≤ j → j < i + n → esp + 4 * j < dumpLimit → vm.UserWord (esp + 4 * j)) →
      ∃ addrs, vm.dumpWords esp n i = some addrs ∧ ∀ a ∈ addrs, vm.UserWord a := by
  induction n with
  | zero => exact fun _ _ => ⟨[], rfl, by simp⟩
  | succ n ih =>
    intro i hi hwords
    have haddr : (esp + 4 * i) % 2 ^ 32 = esp + 4 * i := by
      unfold dumpLimit at hesp
      omega
    rw [dumpWords, haddr]
    by_cases hlimit : dumpLimit ≤ esp + 4 * i
    · exact ⟨[], if_pos hlimit, by simp⟩
    · have hword := hwords i le_rfl (by omega) (Nat.lt_of_not_le hlimit)
      obtain ⟨addrs, heq, haddrs⟩ := ih (i := i + 1) (by omega) fun j hj hjn =>
        hwords j (by omega) (by omega)
      refine ⟨(esp + 4 * i) :: addrs, ?_, ?_⟩
      · have hfirst := pagePresent_of_userPage (hword 0 (by omega))
        have hlast := pagePresent_of_userPage (hword 3 (by omega))
        rw [Nat.add_zero] at hfirst
        simp [hlimit, hfirst, hlast, heq]
      · exact List.forall_mem_cons.mpr ⟨hword, haddrs⟩

/-- Conversely, what a dump that returns has read. -/
theorem mem_dumpWords {esp : ℕ} (hesp : esp < dumpLimit) {n : ℕ} :
    ∀ {i : ℕ} {addrs : List ℕ}, i + n ≤ 16 → vm.dumpWords esp n i = some addrs →
      ∀ j, i ≤ j → j < i + n → esp + 4 * j < dumpLimit → esp + 4 * j ∈ addrs := by
  induction n with
  | zero => exact fun _ _ j hj hjn => by omega
  | succ n ih =>
    intro i addrs hi hdump j hj hjn hlt
    have haddr : (esp + 4 * i) % 2 ^ 32 = esp + 4 * i := by
      unfold dumpLimit at hesp
      omega
    rw [dumpWords, haddr, if_neg (by omega)] at hdump
    split at hdump
    · obtain ⟨rest, hrest, rfl⟩ := Option.map_eq_some_iff.mp hdump
      rcases Nat.eq_or_lt_of_le hj with rfl | hlater
      · exact List.mem_cons_self
      · exact List.mem_cons_of_mem _ (ih (by omega) hrest j hlater (by omega) hlt)
    · cases hdump

end Vm

/-- **When a user fault cannot crash the fault reporter.** All words the dump reads are in user
pages, and the handler comes to `task_exit`, if and only if the stack pointer is at or above the
limit, or the pages of the first and the last byte of the dump are user pages. -/
theorem trapDumpStack_safe_iff (k : Kernel) {tf : TrapFrame} (huser : tf.cs &&& 3 ≠ 0)
    (vector : ℕ) :
    (∃ addrs, k.vm.trapDumpStack tf.esp = some addrs ∧ (∀ a ∈ addrs, k.vm.UserWord a) ∧
        k.exceptionTrap tf vector = k.taskExit vector) ↔
      Vm.dumpLimit ≤ tf.esp.toNat ∨
        k.vm.userPage tf.esp.toNat ∧ k.vm.userPage (dumpEnd tf.esp.toNat) := by
  have hexit : ∀ addrs, k.vm.trapDumpStack tf.esp = some addrs →
      k.exceptionTrap tf vector = k.taskExit vector := by
    intro addrs hdump
    rw [Kernel.exceptionTrap, if_pos huser, hdump]
    rfl
  have hlt := tf.esp.toNat_lt
  unfold Vm.trapDumpStack at *
  generalize tf.esp.toNat = esp at *
  rcases Nat.lt_or_ge esp Vm.dumpLimit with hesp | hesp
  · constructor
    · rintro ⟨addrs, hdump, hwords, -⟩
      refine .inr ⟨hwords esp ?_ 0 (by omega), ?_⟩
      · exact Vm.mem_dumpWords hesp le_rfl hdump 0 le_rfl (by omega) hesp
      · -- the last word
        have hlast := hwords _ (Vm.mem_dumpWords hesp le_rfl hdump
          (min 16 ((Vm.dumpLimit - esp + 3) / 4) - 1) (Nat.zero_le _) (by omega) (by omega))
          3 (by omega)
        unfold dumpEnd
        rwa [show esp + 4 * min 16 ((Vm.dumpLimit - esp + 3) / 4) - 1 =
          esp + 4 * (min 16 ((Vm.dumpLimit - esp + 3) / 4) - 1) + 3 by omega]
    · rintro (hc | ⟨hfirst, hlast⟩)
      · omega
      · obtain ⟨addrs, hdump, hwords⟩ : ∃ addrs, k.vm.dumpWords esp 16 0 = some addrs ∧
            ∀ a ∈ addrs, k.vm.UserWord a :=
          Vm.dumpWords_eq hesp le_rfl fun j _ hj hjlt b hb => by
            -- a byte of the dump is in the page of the first or of the last one
            rcases Nat.lt_or_ge ((esp + 4 * j + b) / 4096) (dumpEnd esp / 4096) with hpage | hpage
            · refine Vm.userPage_congr ?_ hfirst
              unfold dumpEnd at hpage
              omega
            · refine Vm.userPage_congr ?_ hlast
              unfold dumpEnd at *
              omega
        exact ⟨addrs, hdump, hwords, hexit addrs hdump⟩
  · refine ⟨fun _ => .inl hesp, fun _ => ?_⟩
    have hdump : k.vm.dumpWords esp 16 0 = some [] := by
      rw [Vm.dumpWords, Nat.mul_zero, Nat.add_zero, Nat.mod_eq_of_lt hlt, if_pos hesp]
    exact ⟨[], hdump, by simp, hexit [] hdump⟩

/-- A fault of a program with the stack pointer near the end of its stack. -/
theorem trapDumpStack_safe_iff_stack : ∃ addrs,
    programState.kernel.vm.trapDumpStack 0xBFFFFFE0 = some addrs ∧
      (∀ a ∈ addrs, programState.kernel.vm.UserWord a) ∧
      programState.kernel.exceptionTrap ⟨0x1B, 0xBFFFFFE0⟩ 13 =
        programState.kernel.taskExit 13 :=
  (@trapDumpStack_safe_iff programState.kernel ⟨0x1B, 0xBFFFFFE0⟩ (by decide) 13).mpr
    (.inr (by decide +kernel))

/-- **A user fault halts the machine**: the program that was started has its stack pointer at
`0x10000000`, and the first word of the dump is not mapped. -/
theorem trapDumpStack_halts : (orderedSystem capsLayout).Reachable programState ∧
    programState.kernel.vm.pagePresent 0 = true ∧
      programState.kernel.vm.trapDumpStack 0x10000000 = none ∧
      programState.kernel.exceptionTrap ⟨0x1B, 0x10000000⟩ 13 = none := by
  refine ⟨reachable_programState, ?_, ?_, ?_⟩ <;> decide +kernel

end PokuOS

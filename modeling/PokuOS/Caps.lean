import PokuOS.Path

/-!
# Capabilities and sandboxes

`include/kernel/caps.h`, the table `syscall_caps` of `kernel/syscall.c` with its gate, and the
part of `sys_fork` that derives a child's sandbox from its parent's and a configuration.
-/

namespace PokuOS

/-! ## Error codes -/

/-- `EPERM`. -/
def ePerm : ℤ := 1

/-- `ENOENT`. -/
def eNoent : ℤ := 2

/-- `EIO`. -/
def eIo : ℤ := 5

/-- `ENOEXEC`. -/
def eNoexec : ℤ := 8

/-- `ENOMEM`. -/
def eNomem : ℤ := 12

/-- `ENOTDIR`. -/
def eNotdir : ℤ := 20

/-- `EINVAL`. -/
def eInval : ℤ := 22

/-! ## Capabilities -/

/-- The capability with this bit. -/
def cap (bit : ℕ) : BitVec 32 := 1#32 <<< bit

def capWrite : BitVec 32 := cap 0
def capRead : BitVec 32 := cap 1
def capGetchar : BitVec 32 := cap 2
def capPutchar : BitVec 32 := cap 3
def capClear : BitVec 32 := cap 4
def capExit : BitVec 32 := cap 5
def capFork : BitVec 32 := cap 6
def capExec : BitVec 32 := cap 7
def capWait : BitVec 32 := cap 8
def capTierQuery : BitVec 32 := cap 9
def capTierRequest : BitVec 32 := cap 10
def capReboot : BitVec 32 := cap 11
def capPoweroff : BitVec 32 := cap 12
def capKill : BitVec 32 := cap 13
def capMlfqQuery : BitVec 32 := cap 15
def capYield : BitVec 32 := cap 16
def capSetTier : BitVec 32 := cap 17
def capSandboxQuery : BitVec 32 := cap 19

/-- `CAP_SYSTEM_DEFAULT`. -/
def capSystemDefault : BitVec 32 := 0xFFFFFFFF

/-- `CAP_USER_DEFAULT`. -/
def capUserDefault : BitVec 32 :=
  capWrite ||| capRead ||| capGetchar ||| capPutchar ||| capClear ||| capExit ||| capFork |||
    capExec ||| capWait ||| capTierQuery ||| capMlfqQuery ||| capYield ||| capSandboxQuery

/-- The numbers of `syscall.h`. -/
inductive SyscallNr where
  | write | open | exit | getchar | putchar | clear | reboot | poweroff | tierQuery | tierRequest
  | fork | exec | wait | forkWithSandbox | mlfqQuery | yield | read | close | kill | setTier
  | uname | ls | sandboxQuery
  deriving DecidableEq, Repr

/-- `syscall_caps`. -/
def syscallCaps : SyscallNr → BitVec 32
  | .write => capWrite
  | .open => capRead
  | .exit => capExit
  | .getchar => capGetchar
  | .putchar => capPutchar
  | .clear => capClear
  | .reboot => capReboot
  | .poweroff => capPoweroff
  | .tierQuery => capTierQuery
  | .tierRequest => capTierRequest
  | .fork => capFork
  | .exec => capExec
  | .wait => capWait
  | .forkWithSandbox => capFork
  | .mlfqQuery => capMlfqQuery
  | .yield => capYield
  | .read => capRead
  | .close => capRead
  | .kill => capKill
  | .setTier => capSetTier
  | .uname => 0
  | .ls => capRead
  | .sandboxQuery => capSandboxQuery

/-- The gate of `syscall_handler`. -/
def permitted (caps : BitVec 32) (nr : SyscallNr) : Bool :=
  caps &&& syscallCaps nr == syscallCaps nr

/-! ## Sandboxes -/

/-- `root_path` of a configuration, as `copy_user_string` finds it. -/
inductive RootArg where
  | null
  /-- the copy fails -/
  | unreadable
  /-- a string -/
  | text (s : CStr)
  deriving DecidableEq

/-- `struct fork_sandbox_config`. -/
structure SandboxConfig where
  capsAllow : BitVec 32
  memLimit : ℕ
  cpuQuota : ℕ
  rootPath : RootArg
  tierOverride : ℤ

/-- `sizeof(root_path)`. -/
def rootPathSize : ℕ := 64

/-- The values of `tier_t`. -/
def tierOfInt (n : ℤ) : Tier :=
  if n = 0 then .kernel else if n = 1 then .system else if n = 2 then .user else .critical

/-- `TIER_CRITICAL` as a number. -/
def tierCritical : ℤ := 3

/-- What `sys_fork` does with one limit: zero in the configuration inherits, zero in the parent
is no limit. -/
def clampLimit (parent wanted : ℕ) : ℕ :=
  if wanted = 0 then parent
  else if parent ≠ 0 ∧ parent < wanted then parent
  else wanted

/-- The child's tier and override. -/
def forkTier (parent : Task) (tierOverride : ℤ) : Except ℤ (Tier × ℤ) :=
  if tierOverride = 0 then .ok (parent.tier, parent.tierOverride)
  else if tierOverride < 0 ∨ tierCritical < tierOverride then .error (-eInval)
  else if parent.caps &&& capSetTier = 0 then .error (-ePerm)
  else .ok (tierOfInt tierOverride, tierOverride)

/-- The child's `root_path`. -/
def forkRoot (parent : Task) : RootArg → Except ℤ CStr
  | .null => .ok parent.rootPath
  | .unreadable => .error (-eInval)
  | .text s =>
    let subRoot := s.take (rootPathSize - 1)
    if parent.rootPath ≠ [] ∧ ¬ pathIsWithin subRoot parent.rootPath then .error (-ePerm)
    else .ok subRoot

/-- The sandbox part of `sys_fork`. A call without configuration inherits everything, as one
with all fields zero does. -/
def applySandbox (parent child : Task) (sb : SandboxConfig) : Except ℤ Task := do
  let (tier, tierOverride) ← forkTier parent sb.tierOverride
  let rootPath ← forkRoot parent sb.rootPath
  return { child with
    tier := tier, tierOverride := tierOverride,
    caps := if sb.capsAllow = 0 then parent.caps else parent.caps &&& sb.capsAllow,
    memLimit := clampLimit parent.memLimit sb.memLimit,
    cpuQuota := clampLimit parent.cpuQuota (min sb.cpuQuota 100),
    rootPath := rootPath }

/-- An accepted configuration, its parts accepted. -/
theorem applySandbox_eq_ok {parent child fields : Task} {sb : SandboxConfig}
    (h : applySandbox parent child sb = .ok fields) :
    ∃ tier override root, forkTier parent sb.tierOverride = .ok (tier, override) ∧
      forkRoot parent sb.rootPath = .ok root ∧ fields = { child with
        tier := tier, tierOverride := override,
        caps := if sb.capsAllow = 0 then parent.caps else parent.caps &&& sb.capsAllow,
        memLimit := clampLimit parent.memLimit sb.memLimit,
        cpuQuota := clampLimit parent.cpuQuota (min sb.cpuQuota 100),
        rootPath := root } := by
  unfold applySandbox at h
  cases htier : forkTier parent sb.tierOverride with
  | error code => rw [htier] at h; exact nomatch h
  | ok tier =>
    cases hroot : forkRoot parent sb.rootPath with
    | error code => rw [htier, hroot] at h; exact nomatch h
    | ok root =>
      rw [htier, hroot] at h
      obtain rfl := Except.ok.inj h
      exact ⟨_, _, _, rfl, rfl, rfl⟩

/-- The configuration that inherits everything. -/
def SandboxConfig.inherit : SandboxConfig where
  capsAllow := 0
  memLimit := 0
  cpuQuota := 0
  rootPath := .null
  tierOverride := 0

end PokuOS

import PokuOS.Chroot
import PokuOS.FrameBytes

/-!
# Strings from user memory

`copy_user_path` of `kernel/syscall.c` and `copy_user_string` of `kernel/process.c` are one
function, written twice: every address is looked up in the page tables before its byte is read,
and the copy ends at a NUL, or without one when the buffer is full.

`Vm.StringAt` says which string is stored at an address. `copyUserString_iff` is that the copy
gives this string, and no other, exactly if the string fits or the copy fails.
-/

namespace PokuOS

namespace Vm

variable (vm : Vm) (c : Contents)

/-- The byte at an address, if it is on a present user page. -/
def userByte (a : ℕ) : Option UInt8 :=
  (vm.lookup (a % 2 ^ 32)).bind fun pte =>
    if pte.user then some (c pte.frame (Fin.ofNat 4096 a)) else none

/-- The loop over so many bytes from an address on. What it copies ends at a NUL or with the last
byte; an address on no user page makes it fail. -/
def copyUserBytes : ℕ → ℕ → Option CStr
  | 0, _ => some []
  | n + 1, a => do
    let b ← vm.userByte c a
    if b = 0 then some [] else (copyUserBytes n (a + 1)).map (b :: ·)

/-- `copy_user_string`, and `copy_user_path`: the string in the buffer, if it returns 0. -/
def copyUserString (src maxlen : ℕ) : Option CStr :=
  if 0xC0000000 ≤ src then none else vm.copyUserBytes c (sub32 maxlen 1) src

/-- **The string stored at an address**: its bytes are on user pages, and so is its NUL. -/
inductive StringAt : ℕ → CStr → Prop where
  /-- the NUL -/
  | nil {a : ℕ} : vm.userByte c a = some 0 → StringAt a []
  /-- a byte and the string after it -/
  | cons {a : ℕ} {b : UInt8} {s : CStr} : vm.userByte c a = some b → b ≠ 0 →
      StringAt (a + 1) s → StringAt a (b :: s)

/-- From this address on there is a NUL after at most so many bytes, or before that an address
that is on no user page. -/
def EndsWithin : ℕ → ℕ → Prop
  | 0, a => vm.userByte c a = some 0
  | n + 1, a => ∀ b ∈ vm.userByte c a, b = 0 ∨ EndsWithin n (a + 1)

variable {vm c}

variable {a : ℕ}

theorem copyUserBytes_zero {n : ℕ} (h : vm.userByte c a = some 0) :
    vm.copyUserBytes c (n + 1) a = some [] := by
  rw [copyUserBytes, bind_of_some h, if_pos rfl]

theorem copyUserBytes_cons {n : ℕ} {b : UInt8} (h : vm.userByte c a = some b) (hb : b ≠ 0) :
    vm.copyUserBytes c (n + 1) a = (vm.copyUserBytes c n (a + 1)).map (b :: ·) := by
  rw [copyUserBytes, bind_of_some h, if_neg hb]

variable {s : CStr}

/-- A string ends with its NUL. -/
theorem StringAt.ended (h : vm.StringAt c a s) : vm.userByte c (a + s.length) = some 0 := by
  induction h with
  | nil hzero => exact hzero
  | cons _ _ _ ih => rwa [List.length_cons, Nat.add_comm _ 1, ← Nat.add_assoc]

/-- The copy of a string is as much of it as there is room for. -/
theorem StringAt.copyUserBytes (h : vm.StringAt c a s) (n : ℕ) :
    vm.copyUserBytes c n a = some (s.take n) := by
  induction h generalizing n with
  | nil hzero =>
    cases n with
    | zero => rfl
    | succ n => exact copyUserBytes_zero hzero
  | cons hb hne _ ih =>
    cases n with
    | zero => rfl
    | succ n => rw [copyUserBytes_cons hb hne, ih n, Option.map_some, List.take_succ_cons]

/-- The strings of a task are copied as `copyUserPath` says. -/
theorem StringAt.copyUserPath {src : ℕ} (h : vm.StringAt c src s) (hsrc : src < 0xC0000000) :
    vm.copyUserString c src pathSize = some (PokuOS.copyUserPath s) := by
  rw [copyUserString, if_neg (Nat.not_le.mpr hsrc), h.copyUserBytes]
  rfl

/-- What the loop copies is the string at the address exactly if the string ends in time. -/
theorem copyUserBytes_iff (n a : ℕ) :
    (∀ s, vm.copyUserBytes c n a = some s → vm.StringAt c a s) ↔ vm.EndsWithin c n a := by
  induction n generalizing a with
  | zero =>
    refine ⟨fun h => ?_, fun h s hs => ?_⟩
    · cases h [] rfl with
      | nil hzero => exact hzero
    · cases hs
      exact .nil h
  | succ n ih =>
    rw [EndsWithin, ← ih]
    cases hb : vm.userByte c a with
    | none =>
      refine ⟨fun _ => nofun, fun _ s hs => ?_⟩
      rw [Vm.copyUserBytes, hb] at hs
      cases hs
    | some b =>
      by_cases hzero : b = 0
      · subst hzero
        refine ⟨fun _ b' hb' => .inl (Option.some.inj hb').symm, fun _ s hs => ?_⟩
        rw [copyUserBytes_zero hb] at hs
        cases hs
        exact .nil hb
      · rw [copyUserBytes_cons hb hzero]
        constructor
        · rintro h b' hb'
          refine .inr fun s hs => ?_
          cases h (b :: s) (by rw [hs, Option.map_some]) with
          | cons _ _ hrest => exact hrest
        · intro h s hs
          obtain ⟨rest, hrest, rfl⟩ := Option.map_eq_some_iff.mp hs
          exact .cons hb hzero ((h b rfl).resolve_left hzero rest hrest)

end Vm

/-- **When a copied string is the one that is stored.** Whatever is in the page tables and in user
memory, a copy that succeeds gives the string at the pointer, all of it on present user pages,
exactly if the pointer is not below 3 GiB, or there is a NUL after at most `maxlen - 1` bytes, or
an address on no user page before that. -/
theorem copyUserString_iff (vm : Vm) (c : Contents) (src maxlen : ℕ) :
    (∀ s, vm.copyUserString c src maxlen = some s → vm.StringAt c src s) ↔
      0xC0000000 ≤ src ∨ vm.EndsWithin c (sub32 maxlen 1) src := by
  rw [← Vm.copyUserBytes_iff]
  by_cases hsrc : 0xC0000000 ≤ src
  · rw [Vm.copyUserString, if_pos hsrc]
    exact ⟨fun _ => .inl hsrc, fun _ => nofun⟩
  · rw [Vm.copyUserString, if_neg hsrc]
    exact ⟨.inr, fun h => h.resolve_left hsrc⟩

/-- A page of user memory in which every byte is an `a`, at 4 MiB. -/
def pageOfA : Vm where
  freeq := []
  refCount _ := 1
  entry f i :=
    if f = 1 ∧ i = 1 then some ⟨2, true, true⟩
    else if f = 2 ∧ i = 0 then some ⟨3, true, true⟩
    else none
  cr3 := 1
  pressure := false

/-- **A path of 128 bytes and more is cut off**, and the copy succeeds. -/
theorem copyUserString_truncates :
    pageOfA.copyUserString (fun _ _ => 0x61) 0x400000 pathSize =
        some (List.replicate 127 0x61) ∧
      ¬pageOfA.StringAt (fun _ _ => 0x61) 0x400000 (List.replicate 127 0x61) := by
  refine ⟨by decide +kernel, fun h => ?_⟩
  have hbyte : pageOfA.userByte (fun _ _ => 0x61) (0x400000 + 127) = some 0x61 := by decide +kernel
  have hlast := h.ended
  rw [List.length_replicate, hbyte] at hlast
  exact absurd hlast (by decide)

end PokuOS

import PokuOS.Path

/-!
# The words a shell passes to a program

`split` cuts the command line in place, and stores where at most four words begin. The words from
the first `&` on are dropped, and a `NULL` is stored after the others *if there is room for it*: the
array has four slots.

**The program gets the typed words if and only if there are fewer than four**
(`execArgv_exact_iff`). With four the array has no end.
-/

namespace PokuOS

open List

namespace Shell

/-- What separates words. -/
def isBlank (c : UInt8) : Bool := c == 32 || c == 9

/-- The loop of `split`, with `room` for that many more words: the bytes it leaves, and the offsets
it stores in `argv`. -/
def split (room : ℕ) (inWord : Bool) : CStr → List UInt8 × List ℕ
  | [] => ([], [])
  | c :: rest =>
    if isBlank c then
      let (cmd, argv) := split room false rest
      (0 :: cmd, argv.map (· + 1))
    else if inWord then
      let (cmd, argv) := split room true rest
      (c :: cmd, argv.map (· + 1))
    else if room ≤ 1 then (c :: rest, [0])
    else
      let (cmd, argv) := split (room - 1) true rest
      (c :: cmd, 0 :: argv.map (· + 1))

/-- The string at an offset of the buffer. -/
def stringAt (cmd : List UInt8) (off : ℕ) : CStr := (cmd.drop off).takeWhile (· ≠ 0)

/-- A word that starts with `&`. -/
def isAmp (w : CStr) : Bool := w.head? == some 38

/-- A slot of `argv`. -/
inductive Arg where
  /-- never written -/
  | unset
  | null
  /-- a pointer into the command buffer -/
  | string (off : ℕ)

/-- The commands the shell itself has. -/
def builtins : List CStr :=
  ["help", "ls", "clear", "reboot", "poweroff", "tier", "mlfq", "exit", "wait"].map cstr

/-- How many words `main` keeps. -/
def kept (cmd : List UInt8) (argv : List ℕ) : ℕ := argv.findIdx fun off => isAmp (stringAt cmd off)

/-- The array `sys_exec` is called with. -/
def slots (cmd : List UInt8) (argv : List ℕ) : List Arg :=
  let slots := argv.map .string ++ .replicate (4 - argv.length) .unset
  if kept cmd argv < 4 then slots.set (kept cmd argv) .null else slots

/-- What `main` does with a line up to `sys_exec`: the buffer and the array it is called with, if
the line is not empty and the command not one of the shell. -/
def execArgv (line : CStr) : Option (List UInt8 × List Arg) :=
  let cmd := (split 4 false line).1
  let argv := (split 4 false line).2
  if kept cmd argv = 0 then none
  else if stringAt cmd (argv.headD 0) ∈ builtins then none
  else some (cmd, slots cmd argv)

/-- The strings of the array up to its `NULL`, if there is one. -/
def passed (cmd : List UInt8) : List Arg → Option (List CStr)
  | .string off :: slots => (passed cmd slots).map (stringAt cmd off :: ·)
  | .null :: _ => some []
  | _ => none

/-! ## What it is for -/

/-- The words of a line. -/
def words (line : CStr) : List CStr := (line.splitOnP isBlank).filter (· ≠ [])

/-- The words before the first that starts with `&`. -/
def typedArgs (line : CStr) : List CStr := (words line).takeWhile fun w => !isAmp w

/-! ## The loop of `split` -/

@[simp] theorem stringAt_succ (c : UInt8) (cmd : List UInt8) (off : ℕ) :
    stringAt (c :: cmd) (off + 1) = stringAt cmd off := rfl

/-- **What `split` stores.** The string at the start of the buffer is what is left of the word it is
in. It finds the words as far as there is room, the last of them perhaps not cut off. -/
theorem split_spec {line : CStr} (hline : ∀ c ∈ line, c ≠ 0) : ∀ {room : ℕ} (inWord : Bool),
    0 < room → ∃ head tail, line.splitOnP isBlank = head :: tail ∧
      (inWord = true → stringAt (split room inWord line).1 0 = head) ∧
      let found := (split room inWord line).2.map (stringAt (split room inWord line).1)
      let all := (if inWord then tail else head :: tail).filter (· ≠ [])
      found.map head? = (all.take room).map head? ∧
        found.take (room - 1) = all.take (room - 1) := by
  induction line with
  | nil =>
    intro room inWord hroom
    refine ⟨[], [], rfl, fun _ => rfl, ?_⟩
    simp [split]
  | cons c rest ih =>
    intro room inWord hroom
    have hc : c ≠ 0 := hline c mem_cons_self
    have ih := fun {room} => @ih (fun c hc => hline c (mem_cons_of_mem _ hc)) room
    rw [splitOnP_cons_eq_if_modifyHead]
    by_cases hblank : isBlank c
    · obtain ⟨head, tail, hsplit, -, hfound⟩ := ih false hroom
      refine ⟨[], head :: tail, by rw [if_pos hblank, hsplit], ?_, ?_⟩
      · simp [split, hblank, stringAt]
      · cases inWord <;> simpa [split, hblank, Function.comp_def] using hfound
    · cases inWord with
      | true =>
        obtain ⟨head, tail, hsplit, hhead, hfound⟩ := ih true hroom
        refine ⟨c :: head, tail, by rw [if_neg hblank, hsplit]; rfl, ?_, ?_⟩
        · simpa [split, hblank, stringAt, hc] using hhead rfl
        · simpa [split, hblank, Function.comp_def] using hfound
      | false =>
        by_cases hlast : room ≤ 1
        · obtain ⟨head, tail, hsplit, -⟩ := ih true hroom
          obtain rfl : room = 1 := by omega
          refine ⟨c :: head, tail, by rw [if_neg hblank, hsplit]; rfl, nofun, ?_⟩
          simp [split, hblank, stringAt, hc]
        · obtain ⟨head, tail, hsplit, hhead, hfound⟩ := @ih (room - 1) true (by omega)
          refine ⟨c :: head, tail, by rw [if_neg hblank, hsplit]; rfl, nofun, ?_⟩
          obtain ⟨room, rfl⟩ : ∃ k, room = k + 2 := ⟨room - 2, by omega⟩
          have hword : stringAt (c :: (split (room + 1) true rest).1) 0 = c :: head := by
            simpa [stringAt, hc] using hhead rfl
          simpa [split, hblank, hword, Function.comp_def] using hfound

/-! ## The array -/

theorem passed_null (cmd : List UInt8) (argv : List ℕ) (slots : List Arg) :
    passed cmd (argv.map .string ++ .null :: slots) = some (argv.map (stringAt cmd)) := by
  induction argv with
  | nil => rfl
  | cons off argv ih => simp [passed, ih]

theorem passed_full (cmd : List UInt8) (argv : List ℕ) :
    passed cmd (argv.map .string) = none := by
  induction argv with
  | nil => rfl
  | cons off argv ih => simp [passed, ih]

section

variable {cmd : List UInt8} {argv : List ℕ} {all : List CStr}

theorem kept_eq (hheads : (argv.map (stringAt cmd)).map head? = (all.take 4).map head?) :
    kept cmd argv = min 4 (all.findIdx isAmp) := by
  have := congrArg (findIdx (· == some 38)) hheads
  rw [findIdx_map, findIdx_map, findIdx_map] at this
  rw [← findIdx_take]
  exact this

theorem length_slots (h : argv.length ≤ 4) : (slots cmd argv).length = 4 := by
  unfold slots
  split <;> simp <;> omega

/-- **The array has its end if and only if it keeps fewer than four words.** -/
theorem passed_slots_iff
    (hheads : (argv.map (stringAt cmd)).map head? = (all.take 4).map head?)
    (hfound : (argv.map (stringAt cmd)).take 3 = all.take 3) :
    passed cmd (slots cmd argv) = some (all.take (all.findIdx isAmp)) ↔ all.findIdx isAmp < 4 := by
  have hlen : argv.length = min 4 all.length := by simpa using congrArg length hheads
  have hle : all.findIdx isAmp ≤ all.length := findIdx_le_length
  unfold slots
  rw [kept_eq hheads]
  generalize all.findIdx isAmp = k at *
  by_cases hfew : k < 4
  · rw [Nat.min_eq_right (by omega), if_pos hfew]
    refine iff_of_true ?_ hfew
    rw [set_eq_take_append_cons_drop, if_pos (by simp; omega),
      take_append_of_le_length (by simp; omega), ← map_take, passed_null, map_take]
    have := congrArg (take k) hfound
    rw [take_take, take_take, Nat.min_eq_left (by omega)] at this
    rw [this]
  · rw [Nat.min_eq_left (by omega), if_neg (by decide)]
    refine iff_of_false ?_ hfew
    rw [show 4 - argv.length = 0 by omega, replicate_zero, append_nil, passed_full]
    exact nofun

end

/-- **When a program gets the typed words**, for a line whose first word is not a command of the
shell. -/
theorem execArgv_exact_iff (line : CStr) (hline : ∀ c ∈ line, c ≠ 0) {w : CStr}
    (hw : (typedArgs line).head? = some w) (hbuiltin : w ∉ builtins) :
    ∃ cmd slots, execArgv line = some (cmd, slots) ∧ slots.length = 4 ∧
      (passed cmd slots = some (typedArgs line) ↔ (typedArgs line).length < 4) := by
  obtain ⟨head, tail, hsplit, -, hheads, hfound⟩ := @split_spec _ hline 4 false (by decide)
  have hwords : (head :: tail).filter (· ≠ []) = words line := by rw [words, hsplit]
  simp only [Bool.false_eq_true, if_false, hwords] at hheads hfound
  have htyped : typedArgs line = (words line).take ((words line).findIdx isAmp) := by
    rw [typedArgs, takeWhile_eq_take_findIdx_not]
    simp
  have hiff := passed_slots_iff hheads hfound
  have hkept := kept_eq hheads
  rw [← htyped] at hiff
  refine ⟨(split 4 false line).1, slots (split 4 false line).1 (split 4 false line).2, ?_, ?_, ?_⟩
  · -- the first word is cut off, so it is the one compared with the commands
    have hfirst := congrArg head? hfound
    cases hall : words line with
    | nil => simp [typedArgs, hall] at hw
    | cons w' rest =>
      rw [typedArgs, hall, takeWhile_cons] at hw
      split at hw
      · rename_i hamp
        rw [Bool.not_eq_true'] at hamp
        cases hw
        rw [hall] at hkept hfirst
        rw [execArgv, if_neg (by simp [hkept, findIdx_cons, hamp]), if_neg]
        cases hargv : (split 4 false line).2 with
        | nil => simp [hargv] at hfirst
        | cons off argv =>
          simp [hargv] at hfirst
          simpa [hfirst] using hbuiltin
      · cases hw
  · refine length_slots ?_
    have hlen := congrArg length hheads
    simp only [length_map, length_take] at hlen
    omega
  · rw [hiff, htyped, length_take, Nat.min_eq_left findIdx_le_length]

/-- Two arguments arrive. -/
theorem execArgv_exact_iff_two : ∃ cmd slots, execArgv (cstr "args a b &") = some (cmd, slots) ∧
    slots.length = 4 ∧ passed cmd slots = some [cstr "args", cstr "a", cstr "b"] := by
  have htyped : typedArgs (cstr "args a b &") = [cstr "args", cstr "a", cstr "b"] := by decide
  obtain ⟨cmd, slots, hrun, hlen, hiff⟩ := execArgv_exact_iff (cstr "args a b &")
    (by decide +kernel) (w := cstr "args") (by decide) (by decide)
  rw [htyped] at hiff
  exact ⟨cmd, slots, hrun, hlen, hiff.mpr (by decide)⟩

/-- **The array of three arguments has no end.** -/
theorem execArgv_unterminated : ∃ cmd slots,
    execArgv (cstr "args a b c") = some (cmd, slots) ∧ passed cmd slots = none ∧
      typedArgs (cstr "args a b c") = [cstr "args", cstr "a", cstr "b", cstr "c"] :=
  ⟨_, _, rfl, rfl, by decide⟩

end Shell

end PokuOS

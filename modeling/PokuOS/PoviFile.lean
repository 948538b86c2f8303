import Mathlib.Data.List.TakeWhile
import PokuOS.Path
import PokuOS.PoviBuffer

/-!
# Povi's files

`load_file` and `save_file` (`user/povi/file_io.cpp`). The kernel's side of the system calls is
given: the results of `sys_open` and of each `sys_write_fd`, and the bytes each `sys_read`
delivers. What `save_file` does is then its result, with the bytes it passed to
`sys_write_fd`, call by call.

A saved file is read back as the lines that were saved, **with an empty line before them**:
`load_file` starts with `clear_lines`, which leaves one line, and `add_line` appends
(`loadFile_saved`).
-/

namespace PokuOS

open List

/-- A string literal in memory, with its `NUL`. -/
def literal (s : String) : List UInt8 := cstr s ++ [0]

/-- The kernel's answers to `save_file`. -/
structure SaveAnswers where
  /-- the result of `sys_open` -/
  fd : ℤ
  /-- the result of the `k`-th `sys_write_fd` -/
  write : ℕ → ℤ

namespace PoviBuffer

/-- The bytes of a line that are passed to `sys_write_fd`. -/
def lineBytes (b : PoviBuffer) (i : ℕ) : Option (List UInt8) := do
  let l ← b.line i
  if l.len ≤ l.cStr.length then return l.cStr.take l.len else none

/-- The loop of `save_file`, for the last `n` lines, from line `i` on. -/
def saveLines (b : PoviBuffer) (write : ℕ → ℤ) (i : ℕ) : ℕ → Option (Bool × List (List UInt8))
  | 0 => some (true, [])
  | n + 1 => do
    let bytes ← b.lineBytes i
    if write (2 * i) < 0 then return (false, [bytes])
    else if write (2 * i + 1) < 0 then return (false, [bytes, [10]])
    else
      let (ok, calls) ← b.saveLines write (i + 1) n
      return (ok, bytes :: [10] :: calls)

/-- `save_file`: the result, and the bytes of each `sys_write_fd`. -/
def saveFile (b : PoviBuffer) (answers : SaveAnswers) : Option (Bool × List (List UInt8)) :=
  if answers.fd < 0 then some (false, [])
  else b.saveLines answers.write 0 b.numLines

/-- The body of `load_file`'s inner loop: a byte, with the buffer and the line read so far. -/
def loadByte (st : PoviBuffer × PoviString) (c : UInt8) : Option (PoviBuffer × PoviString) :=
  if c = 10 then do
    let b ← st.1.addLine st.2.cStr st.2.len
    return (b, st.2.clear)
  else do
    let cur ← st.2.append c
    return (st.1, cur)

/-- The loop of `load_file`, over what the calls of `sys_read` deliver. It ends at the first
call that delivers nothing. The flag is `any`. -/
def loadChunks : List (List UInt8) → Bool × PoviBuffer × PoviString →
    Option (Bool × PoviBuffer × PoviString)
  | [], st => some st
  | tmp :: reads, st =>
    if tmp = [] then some st
    else do
      let st ← tmp.foldlM loadByte st.2
      loadChunks reads (true, st)

/-- `load_file`. -/
def loadFile (b : PoviBuffer) (fd : ℤ) (reads : List (List UInt8)) :
    Option (Bool × PoviBuffer) :=
  if fd < 0 then some (false, b)
  else do
    let b ← b.clearLines
    let (any, b, cur) ← loadChunks reads (false, b, PoviString.empty)
    let b ← if any = false ∨ 0 < cur.len then b.addLine cur.cStr cur.len else some b
    return (true, b)

/-! ## Saving -/

variable {b : PoviBuffer} {ls : List (List UInt8)}

/-- The bytes of a line are its characters. -/
theorem Lines.lineBytes (h : b.Lines ls) {i : ℕ} {l : List UInt8} (hi : ls[i]? = some l) :
    b.lineBytes i = some l := by
  obtain ⟨hlt, hget⟩ := List.getElem?_eq_some_iff.mp hi
  obtain ⟨above, m, below, rfl, hlen⟩ := exists_cell hlt
  subst hlen
  obtain rfl : m = l := by simpa using hget
  obtain ⟨s, hs, ht⟩ := h.line rfl
  obtain ⟨rest, hrest⟩ := ht.cStr
  rw [PoviBuffer.lineBytes, bind_of_some hs, hrest, ht.len, if_pos (by simp), List.take_left]
  rfl

/-- **The loop of `save_file`** returns; when no call fails it has passed each line, and a
newline after it. -/
theorem saveLines_spec (h : b.Lines ls) (write : ℕ → ℤ) : ∀ (n i : ℕ), i + n = ls.length →
    Returns (b.saveLines write i n) fun r => r.1 = true →
      r.2 = (ls.drop i).flatMap fun l => [l, [10]] := by
  intro n
  induction n with
  | zero =>
    intro i hi
    refine .some fun _ => ?_
    rw [drop_eq_nil_of_le (by omega)]
    rfl
  | succ n ih =>
    intro i hi
    have hlt : i < ls.length := by omega
    rw [saveLines, bind_of_some (h.lineBytes (getElem?_eq_getElem hlt))]
    by_cases h0 : write (2 * i) < 0
    · rw [if_pos h0]
      exact .some fun hok => by cases hok
    by_cases h1 : write (2 * i + 1) < 0
    · rw [if_neg h0, if_pos h1]
      exact .some fun hok => by cases hok
    rw [if_neg h0, if_neg h1]
    refine (ih (i + 1) (by omega)).bind fun r hr => .some fun hok => ?_
    rw [drop_eq_getElem_cons hlt, flatMap_cons, hr hok]
    rfl

/-- **`save_file`** returns, and when it reports success it has passed all lines. -/
theorem saveFile_spec (h : b.Lines ls) (answers : SaveAnswers) :
    Returns (b.saveFile answers) fun r => r.1 = true → r.2 = ls.flatMap fun l => [l, [10]] := by
  rw [saveFile]
  by_cases hfd : answers.fd < 0
  · rw [if_pos hfd]
    exact .some fun hok => by cases hok
  · rw [if_neg hfd, h.numLines]
    exact saveLines_spec h answers.write ls.length 0 (Nat.zero_add _)

/-! ## Loading -/

/-- One more byte of a file: the lines so far, and the line being read. -/
def readByte (t : List (List UInt8) × List UInt8) (c : UInt8) : List (List UInt8) × List UInt8 :=
  if c = 10 then (t.1 ++ [t.2], []) else (t.1, t.2 ++ [c])

/-- The lines of the buffer after `load_file` has read the bytes of a file. -/
def loadedLines (bytes : List UInt8) : List (List UInt8) :=
  let t := bytes.foldl readByte ([[]], [])
  if bytes = [] ∨ t.2 ≠ [] then t.1 ++ [t.2] else t.1

/-- The loop's variables hold what has been read. -/
def Loading (st : PoviBuffer × PoviString) (t : List (List UInt8) × List UInt8) : Prop :=
  st.1.Lines t.1 ∧ st.2.Text t.2

variable {st : PoviBuffer × PoviString} {t : List (List UInt8) × List UInt8}

/-- `add_line` of the line being read. -/
theorem Loading.addLine (h : Loading st t) :
    Returns (st.1.addLine st.2.cStr st.2.len) (·.Lines (t.1 ++ [t.2])) := by
  obtain ⟨rest, hrest⟩ := h.2.cStr
  rw [hrest, h.2.len]
  exact addLine_spec h.1 t.2 (0 :: rest)

theorem loadByte_spec (h : Loading st t) (c : UInt8) :
    Returns (loadByte st c) (Loading · (readByte t c)) := by
  rw [loadByte, readByte]
  by_cases hc : c = 10
  · rw [if_pos hc, if_pos hc]
    exact h.addLine.bind fun b hb => .some ⟨hb, PoviString.clear_spec h.2⟩
  · rw [if_neg hc, if_neg hc]
    have happ : Returns (st.2.append c) (·.Text (t.2 ++ [c])) := PoviString.append_spec h.2 c
    exact happ.bind fun cur hcur => .some ⟨h.1, hcur⟩

theorem loadBytes_spec (h : Loading st t) (bytes : List UInt8) :
    Returns (bytes.foldlM loadByte st) (Loading · (bytes.foldl readByte t)) := by
  have := Returns.foldlM (f := loadByte) (I := fun done st => Loading st (done.foldl readByte t))
    (fun done c st hst => by
      rw [foldl_append]
      exact loadByte_spec hst c) bytes (show Loading st (([] : List UInt8).foldl readByte t) from h)
  exact this

/-- **The loop of `load_file`** reads the bytes up to the first call that delivers none. -/
theorem loadChunks_spec (reads : List (List UInt8)) : ∀ {st t} (any : Bool), Loading st t →
    Returns (loadChunks reads (any, st)) fun r =>
      (r.1 = false ↔ any = false ∧ (reads.takeWhile (· ≠ [])).flatten = []) ∧
        Loading r.2 ((reads.takeWhile (· ≠ [])).flatten.foldl readByte t) := by
  induction reads with
  | nil => exact fun any h => .some ⟨by simp, h⟩
  | cons tmp reads ih =>
    intro st t any h
    by_cases htmp : tmp = []
    · rw [loadChunks, if_pos htmp]
      exact .some ⟨by simp [htmp], by simpa [htmp] using h⟩
    · rw [loadChunks, if_neg htmp]
      refine (loadBytes_spec h tmp).bind fun st' hst' => (ih true hst').mono ?_
      rintro r ⟨hany, hload⟩
      refine ⟨?_, ?_⟩
      · simp [hany, htmp]
      · simpa [htmp] using hload

/-- **`load_file`** of a file that can be opened. -/
theorem loadFile_spec (b : PoviBuffer) {fd : ℤ} (hfd : 0 ≤ fd) (reads : List (List UInt8)) :
    Returns (b.loadFile fd reads) fun r =>
      r.1 = true ∧ r.2.Lines (loadedLines (reads.takeWhile (· ≠ [])).flatten) := by
  rw [loadFile, if_neg (by omega)]
  have hclear : Returns b.clearLines (·.Lines [[]]) := clearLines_spec b
  refine hclear.bind fun b1 h1 => ?_
  have hstart : Loading (b1, PoviString.empty) ([[]], []) := ⟨h1, PoviString.text_empty⟩
  refine (loadChunks_spec reads false hstart).bind fun r hr => ?_
  obtain ⟨any, b2, cur⟩ := r
  obtain ⟨hany, hload⟩ := hr
  have hlen : cur.len = _ := hload.2.len
  simp only [loadedLines]
  generalize (reads.takeWhile (· ≠ [])).flatten = bytes at *
  have hcond : (any = false ∨ 0 < cur.len) ↔
      bytes = [] ∨ (bytes.foldl readByte ([[]], [])).2 ≠ [] := by
    rw [hany, hlen, length_pos_iff]
    simp
  by_cases hadd : any = false ∨ 0 < cur.len
  · rw [if_pos hadd, if_pos (hcond.mp hadd)]
    exact hload.addLine.bind fun b3 h3 => .some ⟨rfl, h3⟩
  · rw [if_neg hadd, if_neg fun h => hadd (hcond.mpr h)]
    exact .some ⟨rfl, hload.1⟩

/-! ## Reading back what was saved -/

theorem readByte_line (acc : List (List UInt8)) {l : List UInt8} (hl : 10 ∉ l) :
    ∀ cur, l.foldl readByte (acc, cur) = (acc, cur ++ l) := by
  induction l with
  | nil => simp
  | cons c l ih =>
    intro cur
    rw [mem_cons, not_or] at hl
    obtain ⟨hc, hl⟩ := hl
    rw [foldl_cons, readByte, if_neg (Ne.symm hc), ih hl, append_assoc]
    rfl

variable {ls : List (List UInt8)}

/-- **Lines with a newline after each** are read as these lines. -/
theorem readByte_lines (hls : ∀ l ∈ ls, 10 ∉ l) :
    ∀ acc, (ls.flatMap (· ++ [10])).foldl readByte (acc, []) = (acc ++ ls, []) := by
  induction ls with
  | nil => simp
  | cons l ls ih =>
    intro acc
    have hrest := ih (fun m hm => hls m (mem_cons_of_mem l hm)) (acc ++ [l])
    rw [flatMap_cons, foldl_append, foldl_append,
      readByte_line acc (hls l mem_cons_self)]
    simpa [readByte] using hrest

/-- No line has a newline in it, the one being read included. -/
def NewlineFree (t : List (List UInt8) × List UInt8) : Prop := (∀ l ∈ t.1, 10 ∉ l) ∧ 10 ∉ t.2

theorem NewlineFree.readByte (h : NewlineFree t) (c : UInt8) : NewlineFree (readByte t c) := by
  obtain ⟨hlines, hcur⟩ := h
  by_cases hc : c = 10
  · rw [PoviBuffer.readByte, if_pos hc]
    refine ⟨fun l hl => ?_, not_mem_nil⟩
    rcases mem_append.mp hl with hl | hl
    · exact hlines l hl
    · rw [mem_singleton.mp hl]
      exact hcur
  · rw [PoviBuffer.readByte, if_neg hc]
    refine ⟨hlines, fun hmem => ?_⟩
    rcases mem_append.mp hmem with hmem | hmem
    · exact hcur hmem
    · exact hc (mem_singleton.mp hmem).symm

/-- **No line of a loaded buffer has a newline in it.** -/
theorem newlineFree_loaded (bytes : List UInt8) : ∀ l ∈ loadedLines bytes, 10 ∉ l := by
  have hread : ∀ (bytes : List UInt8) {t}, NewlineFree t →
      NewlineFree (bytes.foldl readByte t) := by
    intro bytes
    induction bytes with
    | nil => exact fun h => h
    | cons c bytes ih => exact fun h => ih (h.readByte c)
  obtain ⟨hlines, hcur⟩ := hread bytes (t := ([[]], [])) ⟨by simp, not_mem_nil⟩
  intro l hl
  simp only [loadedLines] at hl
  split at hl
  · rcases mem_append.mp hl with hl | hl
    · exact hlines l hl
    · rw [mem_singleton.mp hl]
      exact hcur
  · exact hlines l hl

/-- There is always a line: `clear_lines` has left one. -/
theorem loadedLines_ne_nil (bytes : List UInt8) : loadedLines bytes ≠ [] := by
  have hread : ∀ (bytes : List UInt8) {t : List (List UInt8) × List UInt8}, t.1 ≠ [] →
      (bytes.foldl readByte t).1 ≠ [] := by
    intro bytes
    induction bytes with
    | nil => exact fun h => h
    | cons c bytes ih =>
      intro t h
      refine ih ?_
      rw [readByte]
      split
      · simp
      · exact h
  have hne := hread bytes (t := ([[]], [])) (by simp)
  simp only [loadedLines]
  split
  · simp
  · exact hne

/-- **`load_file`** returns, with at least one line and no newline in any, whatever the
kernel answers. -/
theorem loadFile_lines (h : b.Lines ls) (hne : ls ≠ []) (hfree : ∀ l ∈ ls, 10 ∉ l) (fd : ℤ)
    (reads : List (List UInt8)) :
    Returns (b.loadFile fd reads) fun r =>
      ∃ ls', r.2.Lines ls' ∧ ls' ≠ [] ∧ ∀ l ∈ ls', 10 ∉ l := by
  by_cases hfd : fd < 0
  · rw [loadFile, if_pos hfd]
    exact .some ⟨ls, h, hne, hfree⟩
  · refine (loadFile_spec b (Int.not_lt.mp hfd) reads).mono fun r hr => ?_
    exact ⟨_, hr.2, loadedLines_ne_nil _, newlineFree_loaded _⟩

/-- **A saved file is read back with an empty line before it.** -/
theorem loadFile_saved (b : PoviBuffer) (hne : ls ≠ []) (hls : ∀ l ∈ ls, 10 ∉ l) {fd : ℤ}
    (hfd : 0 ≤ fd) {reads : List (List UInt8)} (hreads : ∀ r ∈ reads, r ≠ [])
    (hfile : reads.flatten = (ls.flatMap fun l => [l, [10]]).flatten) :
    Returns (b.loadFile fd reads) fun r => r.1 = true ∧ r.2.Lines ([] :: ls) := by
  have hall : reads.takeWhile (· ≠ []) = reads :=
    takeWhile_eq_self_iff.mpr fun r hr => by simpa using hreads r hr
  have hbytes : (ls.flatMap fun l => [l, [10]]).flatten = ls.flatMap (· ++ [10]) := by
    clear hne hls hfile
    induction ls with
    | nil => rfl
    | cons l ls ih => simp [ih]
  have hloaded : loadedLines (ls.flatMap (· ++ [10])) = [] :: ls := by
    obtain ⟨l, rest, rfl⟩ := exists_cons_of_ne_nil hne
    have hread := readByte_lines hls [[]]
    rw [loadedLines]
    simp only [hread]
    rw [if_neg (by simp)]
    rfl
  have hspec := loadFile_spec b hfd reads
  rw [hall, hfile, hbytes, hloaded] at hspec
  exact hspec

end PoviBuffer

end PokuOS

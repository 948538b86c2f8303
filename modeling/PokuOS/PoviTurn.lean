import PokuOS.Povi

/-!
# A turn of povi's main loop

Every turn of the main loop returns, and does to the text what its key stands for (`keyOp`).
There is one lemma for each handler, about the zipper that the editor shows: `Povi.Ready p z`
is what holds between two turns, and `Povi.Does op z` is what a handler achieves. The
`modified` flag is part of it: as long as it is clear the text is the saved one.
-/

namespace PokuOS

open Editor List PoviString

namespace Povi

/-- **What a key stands for** in each mode, as an operation on the text. -/
def keyOp : EditorMode → KeyEvent → TextOp UInt8
  | .insert, ⟨.char, ch⟩ => .insert ch
  | .insert, ⟨.enter, _⟩ => .insert 10
  | .insert, ⟨.backspace, _⟩ => .backspace
  | .insert, ⟨.left, _⟩ => .moveLeft
  | .insert, ⟨.right, _⟩ => .moveRight
  | .normal, ⟨.char, ch⟩ =>
    match normalKey ch with
    | .left => .moveLeft
    | .right => .moveRight
    | .delete => .delete
    | _ => .keep
  | .normal, ⟨.left, _⟩ => .moveLeft
  | .normal, ⟨.right, _⟩ => .moveRight
  | _, _ => .keep

/-- The program is between two turns of its loop, and shows `z`. -/
structure Ready (p : Povi) (z : Zipper UInt8) : Prop where
  /-- the editor's text and cursor -/
  shows : p.ed.Shows z
  /-- the window does not start above the text -/
  top : 0 ≤ p.ed.topRow
  /-- the file name is a string -/
  filename : ∃ t, p.ed.filename.Text t
  /-- so is the message -/
  message : ∃ t, p.ed.message.Text t
  /-- and the command line -/
  cmdLine : ∃ t, p.ed.cmdLine.Text t
  /-- **without the flag there is nothing unsaved** -/
  tracked : p.ed.modified = false → p.saved = some z.lines

/-- The block returns a state in which `op` has been done to `z`. -/
def Does (op : TextOp UInt8) (z : Zipper UInt8) (r : Option Povi) : Prop :=
  Returns r fun p => ∃ z', p.Ready z' ∧ op.OnZipper 10 z z'

variable {p : Povi} {z : Zipper UInt8} {op : TextOp UInt8} {f : Editor → Option Editor}

section

variable (h : Ready p z)
include h

theorem does_keep : Does .keep z (some p) := .some ⟨z, h, rfl⟩

/-- **A key that moves the cursor.** -/
theorem motion_does
    (hf : Returns (f p.ed) fun ed' => Editor.Edited p.ed ed' ∧
      ∃ z', ed'.Shows z' ∧ z'.lines = z.lines ∧ op.OnZipper 10 z z') :
    Does op z (p.motion f) := by
  refine hf.bind fun ed' hed => ?_
  obtain ⟨he, z', hshows, hlines, hop⟩ := hed
  refine .some ⟨z', ⟨hshows, ?_, ?_, ?_, ?_, ?_⟩, hop⟩
  · exact he.topRow ▸ h.top
  · exact he.filename ▸ h.filename
  · exact he.message ▸ h.message
  · exact he.cmdLine ▸ h.cmdLine
  · rw [he.modified, hlines]
    exact h.tracked

/-- **A key that changes the text.** The flag is set, whatever has changed. -/
theorem edit_does
    (hf : Returns (f p.ed) fun ed' => Editor.Edited p.ed ed' ∧
      ∃ z', ed'.Shows z' ∧ op.OnZipper 10 z z') :
    Does op z (p.edit f) := by
  refine hf.bind fun ed' hed => ?_
  obtain ⟨he, z', hshows, hop⟩ := hed
  refine .some ⟨z', ⟨⟨hshows.lines, hshows.row, hshows.col⟩, ?_, ?_, ?_, ?_, ?_⟩, hop⟩
  · exact he.topRow ▸ h.top
  · exact he.filename ▸ h.filename
  · exact he.message ▸ h.message
  · exact he.cmdLine ▸ h.cmdLine
  · intro hfalse
    cases hfalse

/-- A motion that keeps the lines, from its specification. -/
theorem motion_keep (hf : p.ed.Moved z (f p.ed)) : Does .keep z (p.motion f) := by
  obtain ⟨ed', z', heq, hshows, hlines, -, he⟩ := hf
  exact motion_does h ⟨ed', heq, he, z', hshows, hlines, hlines⟩

theorem moveLeft_does : Does .moveLeft z (p.motion Editor.moveLeft) := by
  obtain ⟨ed', heq, hshows, he⟩ := moveLeft_spec h.shows
  exact motion_does h ⟨ed', heq, he, z.moveLeft, hshows, z.moveLeft_lines, rfl⟩

theorem moveRight_does : Does .moveRight z (p.motion Editor.moveRight) := by
  obtain ⟨ed', heq, hshows, he⟩ := moveRight_spec h.shows
  exact motion_does h ⟨ed', heq, he, z.moveRight, hshows, z.moveRight_lines, rfl⟩

theorem insertChar_does (c : UInt8) : Does (.insert c) z (p.edit fun ed => ed.insertChar c) := by
  obtain ⟨ed', heq, hshows, he⟩ := insertChar_spec h.shows c
  exact edit_does h ⟨ed', heq, he, z.insert 10 c, hshows, rfl⟩

theorem backspace_does : Does .backspace z (p.edit Editor.backspace) := by
  obtain ⟨ed', heq, hshows, he⟩ := backspace_spec h.shows
  exact edit_does h ⟨ed', heq, he, z.backspace, hshows, rfl⟩

theorem deleteChar_does : Does .delete z (p.edit Editor.deleteChar) := by
  obtain ⟨ed', heq, hshows, he⟩ := deleteChar_spec h.shows
  exact edit_does h ⟨ed', heq, he, z.delete, hshows, rfl⟩

/-! ## The modes -/

/-- **Insert mode.** -/
theorem handleInsertMode_does (ev : KeyEvent) :
    Does (keyOp .insert ev) z (p.handleInsertMode ev) := by
  obtain ⟨type, ch⟩ := ev
  cases type with
  | none => exact does_keep h
  | char => exact insertChar_does h ch
  | esc =>
    exact .some ⟨z, ⟨⟨h.shows.lines, h.shows.row, h.shows.col⟩, h.top, h.filename, h.message,
      h.cmdLine, h.tracked⟩, rfl⟩
  | enter => exact insertChar_does h 10
  | backspace => exact backspace_does h
  | up => exact motion_keep h (moveUp_spec h.shows)
  | down => exact motion_keep h (moveDown_spec h.shows)
  | left => exact moveLeft_does h
  | right => exact moveRight_does h

/-- Whether a `g` is pending is no concern of the editor. -/
theorem Ready.pending (b : Bool) : Ready { p with pendingG := b } z :=
  ⟨h.shows, h.top, h.filename, h.message, h.cmdLine, h.tracked⟩

/-- Nor is the mode. -/
theorem Ready.setMode (mode : EditorMode) :
    Ready { p with ed := { p.ed with mode := mode }, dirty := true } z :=
  ⟨⟨h.shows.lines, h.shows.row, h.shows.col⟩, h.top, h.filename, h.message, h.cmdLine, h.tracked⟩

/-- Nor are the command line and its contents. -/
theorem Ready.setCmdLine (mode : EditorMode) {s : PoviString} {t : List UInt8} (hs : s.Text t) :
    Ready { p with ed := { p.ed with mode := mode, cmdLine := s }, dirty := true } z :=
  ⟨⟨h.shows.lines, h.shows.row, h.shows.col⟩, h.top, h.filename, h.message, ⟨t, hs⟩, h.tracked⟩

/-- Opening the command line, or leaving it: it is empty then. -/
theorem Ready.clearCmdLine (mode : EditorMode) :
    Ready { p with ed := { p.ed with mode := mode, cmdLine := p.ed.cmdLine.clear }, dirty := true }
      z := by
  obtain ⟨t, ht⟩ := h.cmdLine
  exact h.setCmdLine mode (clear_spec ht)

end

/-- **Normal mode.** -/
theorem handleNormalMode_does (h : Ready p z) (ev : KeyEvent) :
    Does (keyOp .normal ev) z (p.handleNormalMode ev) := by
  have hq := h.pending false
  obtain ⟨type, ch⟩ := ev
  cases type with
  | none => exact does_keep h
  | esc => exact does_keep h
  | backspace => exact does_keep h
  | enter => exact motion_keep hq (moveDown_spec hq.shows)
  | up => exact motion_keep hq (moveUp_spec hq.shows)
  | down => exact motion_keep hq (moveDown_spec hq.shows)
  | left => exact moveLeft_does hq
  | right => exact moveRight_does hq
  | char =>
    simp only [keyOp, handleNormalMode]
    cases normalKey ch with
    | left => exact moveLeft_does hq
    | right => exact moveRight_does hq
    | delete => exact deleteChar_does hq
    | down => exact motion_keep hq (moveDown_spec hq.shows)
    | up => exact motion_keep hq (moveUp_spec hq.shows)
    | lineStart => exact motion_keep hq (gotoLineStart_spec hq.shows)
    | lineEnd => exact motion_keep hq (gotoLineEnd_spec hq.shows)
    | lastLine => exact motion_keep hq (gotoLastLine_spec hq.shows)
    | insert => exact does_keep (hq.setMode .insert)
    | command => exact does_keep (hq.clearCmdLine .command)
    | other => exact does_keep hq
    | g =>
      by_cases hg : p.pendingG
      · rw [if_pos hg]
        exact motion_keep hq (gotoFirstLine_spec hq.shows)
      · rw [if_neg hg]
        exact does_keep (h.pending true)

/-! ## Commands -/

/-- **`pv_strcmp`** of two strings returns: it stops at the first `NUL`. -/
theorem strcmp_returns : ∀ (t rest u w : List UInt8),
    ∃ n, strcmp (t ++ 0 :: rest) (u ++ 0 :: w) = some n
  | [], rest, [], w => ⟨0, rfl⟩
  | [], rest, b :: u, w => ⟨(0 : ℤ) - b.toNat, by simp [strcmp]⟩
  | a :: t, rest, [], w => ⟨(a.toNat : ℤ) - 0, by simp [strcmp]⟩
  | a :: t, rest, b :: u, w => by
    rw [cons_append, cons_append, strcmp]
    by_cases hab : a ≠ 0 ∧ b ≠ 0 ∧ a = b
    · rw [if_pos hab]
      exact strcmp_returns t rest u w
    · rw [if_neg hab]
      exact ⟨_, rfl⟩

/-- **The command line is understood**, as one of the commands or as none. -/
theorem parseCommand_returns {s : PoviString} {t : List UInt8} (hs : s.Text t) :
    ∃ cmd, parseCommand s.cStr = some cmd := by
  obtain ⟨rest, hrest⟩ := hs.cStr
  obtain ⟨n1, h1⟩ := strcmp_returns t rest (cstr "w") []
  obtain ⟨n2, h2⟩ := strcmp_returns t rest (cstr "q") []
  obtain ⟨n3, h3⟩ := strcmp_returns t rest (cstr "wq") []
  obtain ⟨n4, h4⟩ := strcmp_returns t rest (cstr "q!") []
  rw [hrest, parseCommand]
  simp only [literal, bind_of_some h1, bind_of_some h2, bind_of_some h3, bind_of_some h4]
  split
  · exact ⟨_, rfl⟩
  split
  · exact ⟨_, rfl⟩
  split
  · exact ⟨_, rfl⟩
  split
  · exact ⟨_, rfl⟩
  · exact ⟨_, rfl⟩

/-- A message changes nothing else. -/
theorem status_ready (h : Ready p z) {m : String} (hm : ∀ c ∈ cstr m, c ≠ 0) :
    Returns (p.status m) fun p' => Ready p' z ∧ p'.quit = p.quit := by
  obtain ⟨t, ht⟩ := h.message
  obtain ⟨s, hset, hs⟩ := set_spec ht hm []
  refine ⟨{ p with ed := { p.ed with message := s } }, ?_, ?_, rfl⟩
  · rw [status, statusMessage, literal, bind_of_some hset]
    rfl
  · exact ⟨⟨h.shows.lines, h.shows.row, h.shows.col⟩, h.top, h.filename, ⟨_, hs⟩, h.cmdLine,
      h.tracked⟩

/-- The flag may go when the text has just been saved. -/
theorem Ready.write (h : Ready p z) :
    Ready { p with ed := { p.ed with modified := false }, saved := p.ed.buffer.text } z :=
  ⟨⟨h.shows.lines, h.shows.row, h.shows.col⟩, h.top, h.filename, h.message, h.cmdLine,
    fun _ => h.shows.lines.text⟩

/-- **The branches of `run_command`** return, and keep the text. `q` quits only when nothing is
unsaved. -/
theorem execCommand_ready (h : Ready p z) (answers : SaveAnswers) (cmd : PoviCommand) :
    Returns (p.execCommand answers cmd) (Ready · z) := by
  have hstatus : ∀ {m : String}, (∀ c ∈ cstr m, c ≠ 0) → Returns (p.status m) (Ready · z) :=
    fun hm => (status_ready h hm).mono fun _ hp => hp.1
  cases cmd with
  | write =>
    rw [execCommand]
    by_cases hname : p.ed.filename.len = 0
    · rw [if_pos hname]
      exact hstatus (ne_zero_of_all (by decide))
    · rw [if_neg hname]
      refine (PoviBuffer.saveFile_spec h.shows.lines answers).bind fun r _ => ?_
      obtain ⟨ok, calls⟩ := r
      cases ok with
      | true =>
        refine (status_ready h.write ?_).mono fun _ hp => hp.1
        exact ne_zero_of_all (by decide)
      | false => exact hstatus (ne_zero_of_all (by decide))
  | quit =>
    rw [execCommand]
    by_cases hmod : p.ed.modified = true
    · rw [if_pos hmod]
      exact hstatus (ne_zero_of_all (by decide))
    · rw [if_neg hmod]
      exact .some ⟨h.shows, h.top, h.filename, h.message, h.cmdLine, h.tracked⟩
  | writeQuit =>
    rw [execCommand]
    by_cases hname : p.ed.filename.len = 0
    · rw [if_pos hname]
      exact hstatus (ne_zero_of_all (by decide))
    · rw [if_neg hname]
      refine (PoviBuffer.saveFile_spec h.shows.lines answers).bind fun r _ => ?_
      obtain ⟨ok, calls⟩ := r
      cases ok with
      | true =>
        exact .some ⟨h.shows, h.top, h.filename, h.message, h.cmdLine,
          fun _ => h.shows.lines.text⟩
      | false => exact hstatus (ne_zero_of_all (by decide))
  | forceQuit =>
    exact .some ⟨h.shows, h.top, h.filename, h.message, h.cmdLine, h.tracked⟩
  | unknown => exact hstatus (ne_zero_of_all (by decide))

/-- **Command mode.** -/
theorem handleCommandMode_does (h : Ready p z) (answers : SaveAnswers) (ev : KeyEvent) :
    Does (keyOp .command ev) z (p.handleCommandMode answers ev) := by
  obtain ⟨type, ch⟩ := ev
  obtain ⟨t, ht⟩ := h.cmdLine
  cases type with
  | none => exact does_keep h
  | up => exact does_keep h
  | down => exact does_keep h
  | left => exact does_keep h
  | right => exact does_keep h
  | esc => exact does_keep (h.clearCmdLine .normal)
  | enter =>
    obtain ⟨cmd, hcmd⟩ := parseCommand_returns ht
    change Does .keep z (p.runCommand answers)
    rw [runCommand, bind_of_some hcmd]
    exact (execCommand_ready h answers cmd).bind fun p' hp' => does_keep (hp'.clearCmdLine .normal)
  | char =>
    obtain ⟨s, happ, hs⟩ := append_spec ht ch
    simp only [handleCommandMode]
    rw [bind_of_some happ]
    exact does_keep (h.setCmdLine p.ed.mode hs)
  | backspace =>
    simp only [handleCommandMode]
    rcases eq_nil_or_concat' t with rfl | ⟨u, c, rfl⟩
    · have hlen : ¬ 0 < p.ed.cmdLine.len := by simp [ht.len]
      rw [if_neg hlen]
      exact does_keep (h.setCmdLine p.ed.mode ht)
    · have hlen : p.ed.cmdLine.len = u.length + 1 := by simp [ht.len]
      obtain ⟨s, htrunc, hs⟩ := truncate_spec ht (n := p.ed.cmdLine.len - 1) (by omega)
      rw [if_pos (by omega), bind_of_some htrunc]
      exact does_keep (h.setCmdLine p.ed.mode hs)

/-! ## The screen -/

/-- What `UI::write_line` prints of a line: 80 characters at most, and none from a `NUL` on. -/
def rowText (l : List UInt8) : List UInt8 := (l.take 80).takeWhile (· ≠ 0)

theorem writeLine_spec (rest : List UInt8) : ∀ (n : ℕ) (l : List UInt8),
    writeLine n (l ++ 0 :: rest) = some ((l.take n).takeWhile (· ≠ 0))
  | 0, l => by simp [writeLine]
  | n + 1, [] => by simp [writeLine]
  | n + 1, c :: l => by
    rw [cons_append, writeLine, writeLine_spec rest n l, take_succ_cons]
    by_cases hc : c = 0 <;> simp [hc]

/-- A row of the screen, when the line `top` is in the first one. -/
def screenRow (ls : List (List UInt8)) (top row : ℕ) : List UInt8 :=
  rowText (ls[top + row]?.getD [])

theorem drawRow_spec {ed : Editor} (h : ed.Shows z) {top : ℕ} (htop : ed.topRow = top) (row : ℕ) :
    drawRow ed row = some (screenRow z.lines top row) := by
  have hnum := h.lines.numLines
  rw [drawRow, screenRow]
  by_cases hlt : top + row < z.lines.length
  · obtain ⟨above, l, below, hlines, hlen⟩ := exists_cell hlt
    have hshown := h.lines
    rw [hlines] at hshown
    obtain ⟨s, hs, ht⟩ := hshown.line (r := ed.topRow + row) (by omega)
    obtain ⟨rest, hrest⟩ := ht.cStr
    have hget : z.lines[top + row]? = some l := by
      rw [hlines, ← hlen]
      simp
    rw [if_pos (by omega), bind_of_some hs, hrest, writeLine_spec, hget]
    rfl
  · rw [if_neg (by omega), getElem?_eq_none (by omega)]
    rfl

theorem mapM_of_some {α β : Type} {g : α → Option β} {k : α → β} (l : List α)
    (h : ∀ a ∈ l, g a = some (k a)) : l.mapM g = some (l.map k) := by
  induction l with
  | nil => rfl
  | cons a l ih =>
    rw [mapM_cons, h a mem_cons_self,
      ih fun b hb => h b (mem_cons_of_mem a hb)]
    rfl

/-- What a refresh leaves: a screen of 24 rows of the text, with the cursor's row among them. -/
structure Refreshed (p q : Povi) (z : Zipper UInt8) : Prop where
  /-- the program goes on as before -/
  ready : q.Ready z
  /-- the cursor's row is in the window -/
  window : q.ed.topRow ≤ q.ed.cursorRow ∧ q.ed.cursorRow < q.ed.topRow + 24
  /-- the screen shows the lines from the first row of the window on -/
  screen : q.screen = (range 24).map (screenRow z.lines q.ed.topRow.toNat)
  mode : q.ed.mode = p.ed.mode
  cmdLine : q.ed.cmdLine = p.ed.cmdLine
  quit : q.quit = p.quit

theorem scrollToCursor_top {ed : Editor} (htop : 0 ≤ ed.topRow) (hrow : 0 ≤ ed.cursorRow) :
    0 ≤ ed.scrollToCursor.topRow := by
  rw [scrollToCursor_eq]
  simp only
  split_ifs
  all_goals omega

/-- **`UI::refresh`.** -/
theorem refresh_spec (h : Ready p z) : Returns p.refresh (Refreshed p · z) := by
  have hrow : 0 ≤ p.ed.cursorRow := by
    rw [h.shows.row]
    exact Int.natCast_nonneg _
  have htop := scrollToCursor_top h.top hrow
  have hwindow := scrollToCursor_window p.ed
  have heq := scrollToCursor_eq p.ed
  have hshows : p.ed.scrollToCursor.Shows z := by
    rw [heq]
    exact ⟨h.shows.lines, h.shows.row, h.shows.col⟩
  obtain ⟨top, ht⟩ := Int.eq_ofNat_of_zero_le htop
  have hdraw := mapM_of_some (range 24) fun row _ => drawRow_spec hshows ht row
  rw [refresh, bind_of_some hdraw]
  refine .some ⟨⟨hshows, htop, ?_, ?_, ?_, ?_⟩, hwindow, ?_, ?_, ?_, ?_⟩
  · rw [heq]
    exact h.filename
  · rw [heq]
    exact h.message
  · rw [heq]
    exact h.cmdLine
  · rw [heq]
    exact h.tracked
  · simp only [ht, Int.toNat_natCast]
  · rw [heq]
  · rw [heq]
  · rfl

/-! ## A turn of the main loop -/

/-- What stands before the handler in a turn. -/
theorem refreshIfDirty_spec (h : Ready p z) :
    Returns p.refreshIfDirty fun q => q.Ready z ∧ q.ed.mode = p.ed.mode ∧
      q.ed.cmdLine = p.ed.cmdLine ∧ q.quit = p.quit := by
  rw [refreshIfDirty]
  by_cases hd : p.dirty
  · rw [if_pos hd]
    exact (refresh_spec h).mono fun q hq => ⟨hq.ready, hq.mode, hq.cmdLine, hq.quit⟩
  · rw [if_neg hd]
    exact .some ⟨h, rfl, rfl, rfl⟩

theorem handle_does (h : Ready p z) (answers : SaveAnswers) (ev : KeyEvent) :
    Does (keyOp p.ed.mode ev) z (p.handle answers ev) := by
  rw [handle]
  cases p.ed.mode with
  | command => exact handleCommandMode_does h answers ev
  | insert => exact handleInsertMode_does h ev
  | normal => exact handleNormalMode_does h ev

/-- **A turn of the main loop returns, and does what its key stands for.** -/
theorem step_does (h : Ready p z) (e : PoviEvent) :
    Does (keyOp p.ed.mode (getKeyEvent e.key)) z (p.step e) := by
  rw [Does, step]
  generalize getKeyEvent e.key = ev
  refine (refreshIfDirty_spec h).bind fun q hq => ?_
  obtain ⟨hready, hmode, -⟩ := hq
  by_cases hnone : ev.type = .none
  · rw [if_pos hnone]
    refine .some ⟨z, hready, ?_⟩
    obtain ⟨type, ch⟩ := ev
    obtain rfl : type = .none := hnone
    cases p.ed.mode <;> rfl
  · rw [if_neg hnone, ← hmode]
    exact handle_does hready e.answers ev

end Povi

end PokuOS

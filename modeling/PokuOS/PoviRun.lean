import PokuOS.PoviTurn

/-!
# Runs of povi

What the turns of the main loop add up to. The editor's state stays valid and its operations
are those of the flat text (`povi_edits_text`); the command `q` quits only when nothing is
unsaved (`quit_saved`); and no line ever contains a newline, so a saved file determines the
lines it was saved from, although `load_file` does not give them back (`saved_file_loaded`).
-/

namespace PokuOS

open Editor Option PoviString

namespace Povi

variable {p : Povi} {z : Zipper UInt8}

/-! ## The state when the loop starts -/

/-- The loop starts with any text, at its first character. -/
structure Opened (p : Povi) : Prop where
  /-- the state is what the loop starts in -/
  start : p = Povi.start p.ed
  /-- the buffer has lines, whichever they are -/
  lines : ∃ l ls, p.ed.buffer.Lines (l :: ls)
  /-- the cursor and the window are at the start -/
  cursor : p.ed.cursorRow = 0 ∧ p.ed.cursorCol = 0 ∧ p.ed.topRow = 0
  /-- the file name is a string -/
  filename : ∃ t, p.ed.filename.Text t
  /-- so is the message -/
  message : ∃ t, p.ed.message.Text t
  /-- and the command line -/
  cmdLine : ∃ t, p.ed.cmdLine.Text t

theorem Opened.ready (h : Opened p) : ∃ z, p.Ready z := by
  obtain ⟨l, ls, hlines⟩ := h.lines
  obtain ⟨hrow, hcol, htop⟩ := h.cursor
  have hz : p.ed.buffer.Lines (Zipper.lines ⟨[], [], l, ls⟩) := hlines
  refine ⟨⟨[], [], l, ls⟩, ⟨hz, hrow, hcol⟩, htop.ge, h.filename, h.message, h.cmdLine, ?_⟩
  intro _
  rw [h.start]
  exact hz.text

/-- **In every run** the program is ready for its next turn. -/
theorem ready_of_reachable (hr : (poviSystem Opened).Reachable p) : ∃ z, p.Ready z := by
  refine System.Reachable.invariant (I := fun p => ∃ z, p.Ready z) ?_ ?_ hr
  · exact fun p h => h.ready
  · rintro p e p' ⟨z, hz⟩ - hstep
    obtain ⟨p1, h1, z', hz', -⟩ := step_does hz e
    have heq : p.step e = some p' := hstep
    rw [heq] at h1
    exact ⟨z', some.inj h1 ▸ hz'⟩

/-! ## From the start of the program -/

/-- The program has been started with a C string as its argument, or with none; the file was
opened and read with any results. -/
def Launched (p : Povi) : Prop :=
  ∃ arg fd reads, (∀ a ∈ arg, ∃ u w, a = u ++ 0 :: w ∧ ∀ c ∈ u, c ≠ 0) ∧
    Povi.main arg fd reads = some p

/-- **The file name**, absolute or in `/home/`. -/
theorem fileName_spec {u : List UInt8} (hu : ∀ c ∈ u, c ≠ 0) (w : List UInt8) :
    Returns (fileName (u ++ 0 :: w)) fun s => ∃ t, s.Text t := by
  have hset : Returns (empty.set (u ++ 0 :: w)) (·.Text u) :=
    set_spec text_empty hu w
  refine hset.bind fun name hname => ?_
  obtain ⟨rest, hrest⟩ := hname.cStr
  obtain ⟨first, hfirst⟩ : ∃ c, name.cStr[0]? = some c := by
    rw [hrest]
    cases u with
    | nil => exact ⟨_, rfl⟩
    | cons c u => exact ⟨_, rfl⟩
  rw [bind_of_some hfirst]
  by_cases hslash : first ≠ charLit '/'
  · rw [if_pos hslash]
    have hhome : Returns (empty.set (literal "/home/")) (·.Text (cstr "/home/")) :=
      set_spec text_empty (ne_zero_of_all (by decide)) []
    refine hhome.bind fun full hfull => ?_
    have happ : Returns (full.appendN name.cStr name.len) (·.Text (cstr "/home/" ++ u)) := by
      rw [hrest, hname.len]
      exact appendN_spec hfull u (0 :: rest)
    refine happ.bind fun full' hfull' => ?_
    obtain ⟨s, hassign, hs⟩ := assign_spec hname hfull'
    exact ⟨s, hassign, _, hs⟩
  · rw [if_neg hslash]
    exact .some ⟨u, hname⟩

/-- The loop's first state: any name and message, and a buffer in order. -/
theorem opened_start {b : PoviBuffer} {ls : List (List UInt8)} {name message : PoviString}
    {t u : List UInt8} (hb : b.Lines ls) (hne : ls ≠ []) (hname : name.Text t)
    (hmessage : message.Text u) :
    Opened (start ⟨b, 0, 0, 0, .normal, name, false, message, .empty⟩) := by
  obtain ⟨l, ls, rfl⟩ := List.exists_cons_of_ne_nil hne
  exact ⟨rfl, ⟨l, ls, hb⟩, ⟨rfl, rfl, rfl⟩, ⟨t, hname⟩, ⟨u, hmessage⟩, ⟨[], text_empty⟩⟩

/-- No line has a newline in it. -/
def NewlineFree (p : Povi) : Prop := ∃ ls, p.ed.buffer.Lines ls ∧ ∀ l ∈ ls, 10 ∉ l

/-- **`main` reaches its loop**, ready for any turn. -/
theorem main_spec {arg : Option (List UInt8)}
    (harg : ∀ a ∈ arg, ∃ u w, a = u ++ 0 :: w ∧ ∀ c ∈ u, c ≠ 0) (fd : ℤ)
    (reads : List (List UInt8)) :
    Returns (main arg fd reads) fun p => Opened p ∧ NewlineFree p := by
  have hnew : Returns PoviBuffer.new (·.Lines [[]]) := PoviBuffer.new_spec
  obtain ⟨b, hb, hlines⟩ := hnew
  have hed : new = some ⟨b, 0, 0, 0, .normal, .empty, false, .empty, .empty⟩ :=
    bind_of_some hb _
  have hset : ∀ {m : String}, (∀ c ∈ cstr m, c ≠ 0) →
      Returns (empty.set (literal m)) (·.Text (cstr m)) := fun hm =>
    set_spec text_empty hm []
  rw [main, bind_of_some hed]
  cases arg with
  | none =>
    refine Returns.bind (P := fun ed => ∃ s, s.Text (cstr "usage: povi <filename>") ∧
      ed = ⟨b, 0, 0, 0, .normal, .empty, false, s, .empty⟩) ?_ ?_
    · exact (hset (ne_zero_of_all (by decide))).bind fun s hs => .some ⟨s, hs, rfl⟩
    · rintro ed ⟨s, hs, rfl⟩
      exact .some ⟨opened_start hlines (by simp) text_empty hs, [[]], hlines, by simp⟩
  | some a =>
    obtain ⟨u, w, rfl, hu⟩ := harg a rfl
    refine (fileName_spec hu w).bind fun name hname => ?_
    obtain ⟨t, ht⟩ := hname
    refine (PoviBuffer.loadFile_lines hlines (by simp) (by simp) fd reads).bind fun r hr => ?_
    obtain ⟨ok, buffer⟩ := r
    obtain ⟨ls, hls, hne, hfree⟩ := hr
    cases ok with
    | true => exact .some ⟨opened_start hls hne ht text_empty, ls, hls, hfree⟩
    | false =>
      refine Returns.bind (P := fun ed => ∃ s, s.Text (cstr "new file") ∧
        ed = ⟨buffer, 0, 0, 0, .normal, name, false, s, .empty⟩) ?_ ?_
      · exact (hset (ne_zero_of_all (by decide))).bind fun s hs => .some ⟨s, hs, rfl⟩
      · rintro ed ⟨s, hs, rfl⟩
        exact .some ⟨opened_start hls hne ht hs, ls, hls, hfree⟩

theorem Launched.opened (h : Launched p) : Opened p ∧ NewlineFree p := by
  obtain ⟨arg, fd, reads, harg, hmain⟩ := h
  obtain ⟨p', hp', hopened⟩ := main_spec harg fd reads
  rw [hmain] at hp'
  exact some.inj hp' ▸ hopened

/-- **In every run of the program** it is ready, and no line has a newline in it. -/
theorem launched_ready (hr : (poviSystem Launched).Reachable p) :
    ∃ z, p.Ready z ∧ ∀ l ∈ z.lines, 10 ∉ l := by
  refine System.Reachable.invariant (I := fun p => ∃ z, p.Ready z ∧ ∀ l ∈ z.lines, 10 ∉ l)
    ?_ ?_ hr
  · intro p h
    obtain ⟨hopened, ls, hls, hfree⟩ := h.opened
    obtain ⟨z, hz⟩ := hopened.ready
    have heq : ls = z.lines := some.inj (hls.text.symm.trans hz.shows.lines.text)
    exact ⟨z, hz, heq ▸ hfree⟩
  · rintro p e p' ⟨z, hz, hfree⟩ - hstep
    obtain ⟨p1, h1, z', hz', hop⟩ := step_does hz e
    have heq : p.step e = some p' := hstep
    rw [heq] at h1
    exact ⟨z', some.inj h1 ▸ hz', hop.free hfree⟩

/-- Povi without an argument, when its loop starts. -/
def firstPovi : Povi := (Povi.main none 0 []).get (by decide +kernel)

theorem firstPovi_main : Povi.main none 0 [] = some firstPovi := (some_get _).symm

/-- A key is pressed, and the kernel saves files. -/
def press (c : UInt8) : PoviEvent := ⟨c, ⟨3, fun _ => 1⟩⟩

/-- `i`, `a`, Enter, `b`. -/
def typedRun : List PoviEvent := [press 105, press 97, press 10, press 98]

theorem firstPovi_launched : (poviSystem Launched).Reachable firstPovi :=
  .init ⟨none, 0, [], nofun, firstPovi_main⟩

theorem firstPovi_opened : (poviSystem Opened).Reachable firstPovi :=
  .init (Launched.opened ⟨none, 0, [], nofun, firstPovi_main⟩).1

/-- A turn may be taken until the program has quit. -/
theorem allowed_of_running (init : Povi → Prop) (p : Povi) (e : PoviEvent)
    (h : (!p.quit) = true) : (poviSystem init).allowed p e := by
  have hrunning : p.quit = false := by simpa using h
  exact hrunning

/-! ## Editing -/

/-- What the operations of an editor do, as operations on its flat text `f`. -/
structure EditsText (ed : Editor) (f : Flat UInt8) : Prop where
  /-- insert at the offset and advance by one -/
  insertChar : ∀ c, Returns (ed.insertChar c) fun ed' => ed'.flat = some (f.insert c)
  /-- delete the character before the offset -/
  backspace : Returns ed.backspace fun ed' => ed'.flat = some f.backspace
  /-- delete the character at the offset -/
  deleteChar : Returns ed.deleteChar fun ed' => ed'.flat = some f.delete
  /-- one less, unless it is 0 -/
  moveLeft : Returns ed.moveLeft fun ed' => ed'.flat = some f.moveLeft
  /-- one more, unless it is the end -/
  moveRight : Returns ed.moveRight fun ed' => ed'.flat = some f.moveRight
  /-- the other motions keep the text -/
  motions : ∀ m ∈ [Editor.moveUp, Editor.moveDown, Editor.gotoLineStart, Editor.gotoLineEnd,
    Editor.gotoFirstLine, Editor.gotoLastLine],
    Returns (m ed) fun ed' => ∃ f', ed'.flat = some f' ∧ f'.text = f.text

theorem editsText_of_shows {ed : Editor} (h : ed.Shows z) : EditsText ed (z.flat 10) := by
  have hmoved : ∀ {r : Option Editor}, ed.Moved z r →
      Returns r fun ed' => ∃ f', ed'.flat = some f' ∧ f'.text = (z.flat 10).text := by
    rintro r ⟨ed', z', hr, hshows, hlines, -, -⟩
    exact ⟨ed', hr, z'.flat 10, hshows.flat, Zipper.flat_text_eq 10 hlines⟩
  refine ⟨fun c => ?_, ?_, ?_, ?_, ?_, ?_⟩
  · obtain ⟨ed', heq, hshows, -⟩ := insertChar_spec h c
    exact ⟨ed', heq, hshows.flat.trans (congrArg some (z.flat_insert 10 c))⟩
  · obtain ⟨ed', heq, hshows, -⟩ := backspace_spec h
    exact ⟨ed', heq, hshows.flat.trans (congrArg some (z.flat_backspace 10))⟩
  · obtain ⟨ed', heq, hshows, -⟩ := deleteChar_spec h
    exact ⟨ed', heq, hshows.flat.trans (congrArg some (z.flat_delete 10))⟩
  · obtain ⟨ed', heq, hshows, -⟩ := moveLeft_spec h
    exact ⟨ed', heq, hshows.flat.trans (congrArg some (z.flat_moveLeft 10))⟩
  · obtain ⟨ed', heq, hshows, -⟩ := moveRight_spec h
    exact ⟨ed', heq, hshows.flat.trans (congrArg some (z.flat_moveRight 10))⟩
  · simp only [List.forall_mem_cons, List.not_mem_nil, false_imp_iff, implies_true, and_true]
    exact ⟨hmoved (moveUp_spec h), hmoved (moveDown_spec h),
      hmoved (gotoLineStart_spec h), hmoved (gotoLineEnd_spec h),
      hmoved (gotoFirstLine_spec h), hmoved (gotoLastLine_spec h)⟩

/-- **Povi edits the text it shows.** In every run, from any text: the state is valid; a
refresh puts the cursor into the window and the text on the screen; the operations of the
editor are those of the flat text; and a turn of the main loop returns and does to the flat
text what its key stands for. -/
theorem povi_edits_text (hr : (poviSystem Opened).Reachable p) :
    ∃ f, p.ed.flat = some f ∧ p.ed.Valid ∧ EditsText p.ed f ∧
      Returns p.refresh (fun q => q.ed.Valid ∧ q.ed.flat = some f ∧
        q.ed.topRow ≤ q.ed.cursorRow ∧ q.ed.cursorRow < q.ed.topRow + 24 ∧
        ∃ ls, q.ed.buffer.text = some ls ∧
          q.screen = (List.range 24).map (screenRow ls q.ed.topRow.toNat)) ∧
      ∀ e, Returns (p.step e) fun p' => p'.ed.Valid ∧
        ∃ f', p'.ed.flat = some f' ∧ (keyOp p.ed.mode (getKeyEvent e.key)).OnFlat f f' := by
  obtain ⟨z, hz⟩ := ready_of_reachable hr
  refine ⟨z.flat 10, hz.shows.flat, hz.shows.valid, editsText_of_shows hz.shows,
    (refresh_spec hz).mono fun q hq => ?_, fun e => (step_does hz e).mono ?_⟩
  · exact ⟨hq.ready.shows.valid, hq.ready.shows.flat, hq.window.1, hq.window.2, z.lines,
      hq.ready.shows.lines.text, hq.screen⟩
  · rintro p' ⟨z', hz', hop⟩
    exact ⟨hz'.shows.valid, z'.flat 10, hz'.shows.flat, hop.onFlat⟩

theorem povi_edits_text_typed :
    ∃ p f, (poviSystem Opened).Reachable p ∧ p.ed.flat = some f ∧ f.text = [97, 10, 98] ∧
      f.offset = 3 ∧ p.ed.Valid ∧ EditsText p.ed f := by
  obtain ⟨p, hr, htyped⟩ := System.exists_reachable (S := poviSystem Opened) (fun p _ => !p.quit)
    typedRun (fun p => p.ed.flat.map (fun f => (f.text, f.offset)) = some ([97, 10, 98], 3))
    (allowed_of_running _) firstPovi_opened (by decide +kernel)
  obtain ⟨f, hflat, hvalid, hedits, -, -⟩ := povi_edits_text hr
  rw [hflat] at htyped
  obtain ⟨htext, hoffset⟩ := Prod.mk.inj (some.inj htyped)
  exact ⟨p, f, hr, hflat, htext, hoffset, hvalid, hedits⟩

/-! ## Quitting -/

/-- **`q` in a turn**: it quits only when the flag is clear. -/
theorem quit_modified {p' : Povi} {e : PoviEvent} (h : Ready p z) (ha : p.quit = false)
    (hmode : p.ed.mode = .command) (hkey : (getKeyEvent e.key).type = .enter)
    (hcmd : parseCommand p.ed.cmdLine.cStr = some .quit) (hstep : p.step e = some p')
    (hquit : p'.quit = true) : p'.ed.modified = false := by
  obtain ⟨q, hq, hready, hqmode, hqcmd, hqquit⟩ := refreshIfDirty_spec h
  have hrun : p.step e = (q.execCommand e.answers .quit).map leaveCommand := by
    rw [step, bind_of_some hq]
    simp only [hkey, handle, hqmode, hmode, handleCommandMode, runCommand, hqcmd,
      bind_of_some hcmd]
    cases q.execCommand e.answers .quit <;> rfl
  rw [hrun] at hstep
  obtain ⟨q', hq', rfl⟩ := map_eq_some_iff.mp hstep
  rw [execCommand] at hq'
  by_cases hmod : q.ed.modified = true
  · rw [if_pos hmod] at hq'
    obtain ⟨q1, h1, -, hstays⟩ :=
      status_ready (m := "no write since last change (use :q!)") hready
        (ne_zero_of_all (by decide))
    rw [hq'] at h1
    cases h1
    have hno : q'.quit = false := hstays.trans (hqquit.trans ha)
    exact absurd (hno.symm.trans hquit) (by decide)
  · rw [if_neg hmod] at hq'
    cases hq'
    exact Bool.not_eq_true _ ▸ hmod

/-- **Povi never discards unsaved text silently.** In every run, a turn in which the command
`q` makes the editor quit ends with the text that was saved last, or loaded if nothing was
saved. -/
theorem quit_saved {p' : Povi} {e : PoviEvent} (hr : (poviSystem Launched).Reachable p)
    (ha : (poviSystem Launched).allowed p e) (hmode : p.ed.mode = .command)
    (hkey : (getKeyEvent e.key).type = .enter)
    (hcmd : parseCommand p.ed.cmdLine.cStr = some .quit) (hstep : p.step e = some p')
    (hquit : p'.quit = true) :
    ∃ ls, p'.ed.buffer.text = some ls ∧ p'.saved = some ls := by
  obtain ⟨z, hz, -⟩ := launched_ready hr
  have hclear := quit_modified hz ha hmode hkey hcmd hstep hquit
  obtain ⟨p1, h1, z', hz', -⟩ := step_does hz e
  rw [hstep] at h1
  cases h1
  exact ⟨z'.lines, hz'.shows.lines.text, hz'.tracked hclear⟩

/-- `povi f`, for a file that is not there yet. -/
def newFilePovi : Povi := (Povi.main (some [102, 0]) (-1) []).get (by decide +kernel)

theorem newFilePovi_launched : (poviSystem Launched).Reachable newFilePovi := by
  refine .init ⟨some [102, 0], -1, [], fun a ha => ?_, (some_get _).symm⟩
  exact ⟨[102], [], (some.inj ha).symm, by simp⟩

/-- `i`, `a`, Escape, `:w`, Enter, and then `:q` and Enter. -/
theorem quit_saved_written :
    ∃ p p', (poviSystem Launched).Reachable p ∧ p.step (press 10) = some p' ∧ p'.quit = true ∧
      p'.ed.buffer.text = some [[97]] ∧ p'.saved = some [[97]] := by
  obtain ⟨p, hr, ha, hmode, hcmd, p', hstep, hquit, htext⟩ := System.exists_reachable
    (S := poviSystem Launched) (fun p _ => !p.quit)
    [press 105, press 97, press 27, press 58, press 119, press 10, press 58, press 113]
    (fun p => p.quit = false ∧ p.ed.mode = .command ∧
      parseCommand p.ed.cmdLine.cStr = some .quit ∧
        ∃ p' ∈ p.step (press 10), p'.quit ∧ p'.ed.buffer.text = some [[97]])
    (allowed_of_running _) newFilePovi_launched (by decide +kernel)
  obtain ⟨ls, hls, hsaved⟩ := quit_saved hr ha hmode (by decide) hcmd hstep hquit
  exact ⟨p, p', hr, hstep, hquit, htext, hsaved.trans (hls.symm.trans htext)⟩

/-! ## Saving and loading -/

/-- **A saved file is loaded with an empty line before it**: in every run, whatever
`save_file` has written comes back as one line more than was saved, for any buffer it is
loaded into and any chunks it is read in. -/
theorem saved_file_loaded {answers : SaveAnswers} {calls : List (List UInt8)}
    (hr : (poviSystem Launched).Reachable p)
    (hsave : p.ed.buffer.saveFile answers = some (true, calls)) (b : PoviBuffer) {fd : ℤ}
    (hfd : 0 ≤ fd) {reads : List (List UInt8)} (hreads : ∀ r ∈ reads, r ≠ [] ∧ r.length ≤ 512)
    (hfile : reads.flatten = calls.flatten) :
    ∃ ls, p.ed.buffer.text = some ls ∧
      Returns (b.loadFile fd reads) fun r =>
        r.1 = true ∧ r.2.text = some ([] :: ls) ∧ r.2.text ≠ p.ed.buffer.text := by
  obtain ⟨z, hz, hfree⟩ := launched_ready hr
  have hlines := hz.shows.lines
  obtain ⟨r, hsaved, hcalls⟩ := PoviBuffer.saveFile_spec hlines answers
  rw [hsave] at hsaved
  cases hsaved
  have hwritten : calls = z.lines.flatMap fun l => [l, [10]] := hcalls rfl
  rw [hwritten] at hfile
  have hne : z.lines ≠ [] := by simp [Zipper.lines]
  refine ⟨z.lines, hlines.text, ?_⟩
  refine (PoviBuffer.loadFile_saved b hne hfree hfd (fun r hr => (hreads r hr).1) hfile).mono ?_
  rintro r ⟨hok, hloaded⟩
  refine ⟨hok, hloaded.text, ?_⟩
  rw [hloaded.text, hlines.text]
  intro heq
  exact List.cons_ne_self _ _ (some.inj heq)

/-- The text `a`, saved, and loaded byte by byte. -/
theorem saved_file_loaded_a :
    ∃ p ls, (poviSystem Launched).Reachable p ∧ p.ed.buffer.text = some ls ∧
      Returns (PoviBuffer.loadFile ⟨[], ⟨[], 0⟩⟩ 3 [[97], [10]]) fun r =>
        r.1 = true ∧ r.2.text = some ([] :: ls) ∧ r.2.text ≠ p.ed.buffer.text := by
  obtain ⟨p, hr, hp⟩ := System.exists_reachable (S := poviSystem Launched) (fun p _ => !p.quit)
    [press 105, press 97]
    (fun p => p.ed.buffer.saveFile ⟨3, fun _ => 1⟩ = some (true, [[97], [10]]))
    (allowed_of_running _) firstPovi_launched (by decide +kernel)
  obtain ⟨ls, hls, hload⟩ := saved_file_loaded hr hp ⟨[], ⟨[], 0⟩⟩
    (show (0 : ℤ) ≤ 3 by decide)
    (show ∀ r ∈ [[97], [10]], r ≠ [] ∧ r.length ≤ 512 by decide) rfl
  exact ⟨p, ls, hr, hls, hload⟩

/-- The text `a` is saved as `a` and a newline, and comes back as two lines. -/
theorem loaded_twice_as_long :
    ∃ p, (poviSystem Launched).Reachable p ∧ p.ed.buffer.text = some [[97]] ∧
      p.ed.buffer.saveFile ⟨3, fun _ => 1⟩ = some (true, [[97], [10]]) ∧
      (p.ed.buffer.loadFile 3 [[97, 10]]).bind (·.2.text) = some [[], [97]] := by
  refine System.exists_reachable (S := poviSystem Launched) (fun p _ => !p.quit)
    [press 105, press 97] _ (allowed_of_running _) firstPovi_launched ?_
  decide +kernel

end Povi

end PokuOS

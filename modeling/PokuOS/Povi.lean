import PokuOS.PoviEditor
import PokuOS.PoviFile

/-!
# Povi

The program itself (`user/povi/povi.cpp`): keys, the three modes, commands, and the main loop.
One step of the system is one turn of the loop: the screen is refreshed when something has
changed, a key is read, and the handler of the current mode runs. What the environment
contributes to a turn is the character that `sys_getchar` returns, and the kernel's answers in
case a file is saved.

Of `UI::refresh` the content area is modelled, which reads the buffer; the status bar, which
only prints, is not. The state has one field that is not the program's: the text as it was
at the last successful `save_file`, or when the file was loaded.
-/

namespace PokuOS

/-! ## Keys -/

/-- `KeyType`. -/
inductive KeyType where
  /-- `KEYEV_NONE` -/
  | none
  /-- `KEYEV_CHAR` -/
  | char
  /-- `KEYEV_ESC` -/
  | esc
  /-- `KEYEV_ENTER` -/
  | enter
  /-- `KEYEV_BACKSPACE` -/
  | backspace
  /-- `KEYEV_UP` -/
  | up
  /-- `KEYEV_DOWN` -/
  | down
  /-- `KEYEV_LEFT` -/
  | left
  /-- `KEYEV_RIGHT` -/
  | right
deriving DecidableEq, Repr

/-- `KeyEvent`. -/
structure KeyEvent where
  type : KeyType
  ch : UInt8
deriving DecidableEq, Repr

/-- `get_key_event`, for the character that `sys_getchar` returns. -/
def getKeyEvent (c : UInt8) : KeyEvent :=
  if c = 0 then ⟨.none, 0⟩
  else if c = 0x1B then ⟨.esc, 0⟩
  else if c = 10 then ⟨.enter, 0⟩
  else if c = 8 then ⟨.backspace, 0⟩
  else if c = 1 then ⟨.up, 0⟩
  else if c = 2 then ⟨.down, 0⟩
  else if c = 3 then ⟨.left, 0⟩
  else if c = 4 then ⟨.right, 0⟩
  else ⟨.char, c⟩

/-- The cases of `handle_normal_mode` for a character. -/
inductive NormalKey where
  /-- `h` -/
  | left
  /-- `j`, and newline -/
  | down
  /-- `k` -/
  | up
  /-- `l` -/
  | right
  /-- `0` -/
  | lineStart
  /-- `$` -/
  | lineEnd
  /-- `x` -/
  | delete
  /-- `i` -/
  | insert
  /-- `:` -/
  | command
  | g
  /-- `G` -/
  | lastLine
  /-- anything else -/
  | other
deriving DecidableEq, Repr

/-- A character literal. -/
def charLit (c : Char) : UInt8 := UInt8.ofNat c.toNat

/-- `switch (ev.ch)` of `handle_normal_mode`. -/
def normalKey (ch : UInt8) : NormalKey :=
  if ch = charLit 'h' then .left
  else if ch = charLit 'j' ∨ ch = 10 then .down
  else if ch = charLit 'k' then .up
  else if ch = charLit 'l' then .right
  else if ch = charLit '0' then .lineStart
  else if ch = charLit '$' then .lineEnd
  else if ch = charLit 'x' then .delete
  else if ch = charLit 'i' then .insert
  else if ch = charLit ':' then .command
  else if ch = charLit 'g' then .g
  else if ch = charLit 'G' then .lastLine
  else .other

/-! ## Commands -/

/-- The commands of `run_command`. -/
inductive PoviCommand where
  /-- `w` -/
  | write
  /-- `q` -/
  | quit
  /-- `wq` -/
  | writeQuit
  /-- `q!` -/
  | forceQuit
  /-- none of them -/
  | unknown
deriving DecidableEq, Repr

/-- `pv_strcmp`. -/
def strcmp : List UInt8 → List UInt8 → Option ℤ
  | a :: as, b :: bs =>
    if a ≠ 0 ∧ b ≠ 0 ∧ a = b then strcmp as bs else some ((a.toNat : ℤ) - b.toNat)
  | _, _ => none

/-- The comparisons of `run_command`. -/
def parseCommand (cmd : List UInt8) : Option PoviCommand := do
  if (← strcmp cmd (literal "w")) = 0 then return .write
  else if (← strcmp cmd (literal "q")) = 0 then return .quit
  else if (← strcmp cmd (literal "wq")) = 0 then return .writeQuit
  else if (← strcmp cmd (literal "q!")) = 0 then return .forceQuit
  else return .unknown

/-! ## State -/

/-- The state of the program. -/
structure Povi where
  ed : Editor
  dirty : Bool
  pendingG : Bool
  /-- the content area of the screen, as it was last drawn -/
  screen : List (List UInt8)
  /-- `main` has returned -/
  quit : Bool
  /-- the text at the last successful `save_file`, or after loading -/
  saved : Option (List (List UInt8))

/-- What the environment contributes to a turn of the main loop. -/
structure PoviEvent where
  /-- the character `sys_getchar` returns; `0` when there is none -/
  key : UInt8
  /-- the answers to `save_file` -/
  answers : SaveAnswers

namespace Povi

/-- `UI::write_line`: the characters up to the `NUL`, at most `n`. -/
def writeLine : ℕ → List UInt8 → Option (List UInt8)
  | 0, _ => some []
  | _ + 1, [] => none
  | n + 1, c :: s => if c = 0 then some [] else (writeLine n s).map (c :: ·)

/-- One row of `UI::refresh`. -/
def drawRow (ed : Editor) (row : ℕ) : Option (List UInt8) :=
  if ed.topRow + row < ed.buffer.numLines then do
    let s ← ed.buffer.line (ed.topRow + row)
    writeLine 80 s.cStr
  else some []

/-- The content area of `UI::refresh`, and the scrolling before it. -/
def refresh (p : Povi) : Option Povi := do
  let ed := p.ed.scrollToCursor
  let screen ← (List.range 24).mapM (drawRow ed)
  return { p with ed := ed, screen := screen, dirty := false }

/-- `if (dirty) { ui.refresh(ed); dirty = false; }` -/
def refreshIfDirty (p : Povi) : Option Povi := if p.dirty then p.refresh else some p

/-- An operation of the editor that is bound to a key, and `mark_dirty`. -/
def motion (p : Povi) (f : Editor → Option Editor) : Option Povi := do
  let ed ← f p.ed
  return { p with ed := ed, dirty := true }

/-- The same for an operation that changes the text: `modified` is set. -/
def edit (p : Povi) (f : Editor → Option Editor) : Option Povi := do
  let ed ← f p.ed
  return { p with ed := { ed with modified := true }, dirty := true }

/-- `ed.status_message`. -/
def status (p : Povi) (m : String) : Option Povi := do
  let ed ← p.ed.statusMessage (literal m)
  return { p with ed := ed }

/-- The branches of `run_command`. -/
def execCommand (p : Povi) (answers : SaveAnswers) : PoviCommand → Option Povi
  | .write =>
    if p.ed.filename.len = 0 then p.status "no file name"
    else do
      let (ok, _) ← p.ed.buffer.saveFile answers
      let q := { p with ed := { p.ed with modified := false }, saved := p.ed.buffer.text }
      if ok then q.status "written" else p.status "write failed"
  | .quit =>
    if p.ed.modified then p.status "no write since last change (use :q!)"
    else return { p with quit := true }
  | .writeQuit =>
    if p.ed.filename.len = 0 then p.status "no file name"
    else do
      let (ok, _) ← p.ed.buffer.saveFile answers
      if ok then return { p with quit := true, saved := p.ed.buffer.text }
      else p.status "write failed"
  | .forceQuit => return { p with quit := true }
  | .unknown => p.status "not an editor command"

/-- Back to normal mode, with an empty command line. -/
def leaveCommand (p : Povi) : Povi :=
  { p with ed := { p.ed with mode := .normal, cmdLine := p.ed.cmdLine.clear }, dirty := true }

/-- `run_command`. -/
def runCommand (p : Povi) (answers : SaveAnswers) : Option Povi := do
  let cmd ← parseCommand p.ed.cmdLine.cStr
  let p ← p.execCommand answers cmd
  return p.leaveCommand

/-- `handle_command_mode`. -/
def handleCommandMode (p : Povi) (answers : SaveAnswers) (ev : KeyEvent) : Option Povi :=
  match ev.type with
  | .esc => return p.leaveCommand
  | .enter => p.runCommand answers
  | .backspace => do
    let cmdLine ← if 0 < p.ed.cmdLine.len then p.ed.cmdLine.truncate (p.ed.cmdLine.len - 1)
      else some p.ed.cmdLine
    return { p with ed := { p.ed with cmdLine := cmdLine }, dirty := true }
  | .char => do
    let cmdLine ← p.ed.cmdLine.append ev.ch
    return { p with ed := { p.ed with cmdLine := cmdLine }, dirty := true }
  | _ => return p

/-- `handle_insert_mode`. -/
def handleInsertMode (p : Povi) (ev : KeyEvent) : Option Povi :=
  match ev.type with
  | .char => p.edit fun ed => ed.insertChar ev.ch
  | .enter => p.edit fun ed => ed.insertChar 10
  | .backspace => p.edit Editor.backspace
  | .esc => return { p with ed := { p.ed with mode := .normal }, dirty := true }
  | .up => p.motion Editor.moveUp
  | .down => p.motion Editor.moveDown
  | .left => p.motion Editor.moveLeft
  | .right => p.motion Editor.moveRight
  | .none => return p

/-- `handle_normal_mode`. Only keys that are not handled at all leave `pending_g` alone. -/
def handleNormalMode (p : Povi) (ev : KeyEvent) : Option Povi :=
  let q := { p with pendingG := false }
  match ev.type with
  | .char =>
    match normalKey ev.ch with
    | .left => q.motion Editor.moveLeft
    | .down => q.motion Editor.moveDown
    | .up => q.motion Editor.moveUp
    | .right => q.motion Editor.moveRight
    | .lineStart => q.motion Editor.gotoLineStart
    | .lineEnd => q.motion Editor.gotoLineEnd
    | .delete => q.edit Editor.deleteChar
    | .insert => return { q with ed := { p.ed with mode := .insert }, dirty := true }
    | .command =>
      return { q with
        ed := { p.ed with mode := .command, cmdLine := p.ed.cmdLine.clear }
        dirty := true }
    | .g => if p.pendingG then q.motion Editor.gotoFirstLine else return { p with pendingG := true }
    | .lastLine => q.motion Editor.gotoLastLine
    | .other => return q
  | .up => q.motion Editor.moveUp
  | .down => q.motion Editor.moveDown
  | .left => q.motion Editor.moveLeft
  | .right => q.motion Editor.moveRight
  | .enter => q.motion Editor.moveDown
  | _ => return p

/-- The handler of the current mode. -/
def handle (p : Povi) (answers : SaveAnswers) (ev : KeyEvent) : Option Povi :=
  match p.ed.mode with
  | .command => p.handleCommandMode answers ev
  | .insert => p.handleInsertMode ev
  | .normal => p.handleNormalMode ev

/-- One turn of the main loop. -/
def step (p : Povi) (e : PoviEvent) : Option Povi := do
  let p ← p.refreshIfDirty
  let ev := getKeyEvent e.key
  if ev.type = .none then return p else p.handle e.answers ev

/-- The state when the main loop starts. -/
def start (ed : Editor) : Povi := ⟨ed, true, false, [], false, ed.buffer.text⟩

/-- The file name for an argument: relative names are looked up in `/home/`. -/
def fileName (arg : List UInt8) : Option PoviString := do
  let filename ← PoviString.empty.set arg
  let first ← filename.cStr[0]?
  if first ≠ charLit '/' then do
    let full ← PoviString.empty.set (literal "/home/")
    let full ← full.appendN filename.cStr filename.len
    filename.assign full
  else return filename

/-- `main` up to its loop: the argument, if there is one, and the kernel's answers to
`load_file`. -/
def main (arg : Option (List UInt8)) (fd : ℤ) (reads : List (List UInt8)) : Option Povi := do
  let ed ← Editor.new
  match arg with
  | some arg => do
    let filename ← fileName arg
    let (ok, buffer) ← ed.buffer.loadFile fd reads
    let ed := { ed with filename := filename, buffer := buffer }
    if ok then return start ed
    else do
      let ed ← ed.statusMessage (literal "new file")
      return start ed
  | none => do
    let ed ← ed.statusMessage (literal "usage: povi <filename>")
    return start ed

end Povi

/-- The program, from any states to start in; it takes turns until it quits. -/
def poviSystem (init : Povi → Prop) : System Povi PoviEvent where
  init := init
  allowed p _ := p.quit = false
  step := Povi.step

end PokuOS

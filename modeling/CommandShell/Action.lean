import CommandShell.Files.Content
import CommandShell.Files.World
import CommandShell.Stream

/-!
# Actions

What a command does: it reads and writes its two streams and works on the world, and may fail at
any point. What it did before it failed stays done.
-/

namespace CommandShell

/-- What a running command can reach. -/
structure Scene where
  world : World
  input : Stream
  output : Stream
deriving Inhabited

/-- A step of a running command. -/
abbrev Action := ExceptT Failure (StateM Scene)

namespace Action

def complain (cause : Complaint) : Action α := throw (.complaint cause)

def crash (cause : Crash) : Action α := throw (.crash cause)

def ofExcept : Except Crash α → Action α
  | .ok a => return a
  | .error cause => crash cause

def ofCall (complaint : OsError → Complaint) : Except CallFailure α → Action α
  | .ok a => return a
  | .error (.os error) => complain (complaint error)
  | .error .nul => crash .nulInPath

def world : Action World := return (← get).world

def onInput (use : Stream → Except Crash (α × Stream)) : Action α := do
  let (a, input) ← ofExcept (use (← get).input)
  modify fun scene => { scene with input }
  return a

def ofInput (look : Stream → Except Crash α) : Action α := do
  ofExcept (look (← get).input)

def onOutput (use : Stream → Except Crash Stream) : Action Unit := do
  let output ← ofExcept (use (← get).output)
  modify fun scene => { scene with output }

def write (s : Text) : Action Unit := onOutput (·.write s)

def writeEach (texts : List Text) : Action Unit := texts.forM write

def writeAll (texts : List Text) : Action Unit := onOutput (·.writeAll texts)

def inputIsExhausted : Action Bool := ofInput (·.isExhausted)

def readInput : Action Text := onInput (·.read)

/-- Takes the lines of the input one by one, and passes on what the work on one line gives to
the work on the next. -/
def foldInputLines (start : σ) (work : σ → Text → Action σ) : Action σ := do
  let lines ← ofInput (·.pendingLines)
  lines.foldlM (fun state line => do
    modify fun scene => { scene with input := scene.input.skip line.length }
    work state line) start

def forInputLines (work : Text → Action Unit) : Action Unit :=
  foldInputLines () fun _ line => work line

def readInputLines : Action (List Text) := do
  let lines ← ofInput (·.pendingLines)
  modify fun scene => { scene with input := scene.input.skip lines.flatten.length }
  return lines

/-- Goes to the beginning of the input, which is refused if it holds nothing at all. -/
def rewindInput (refusal : Complaint) : Action Unit := do
  let stop ← onInput (·.seekEnd)
  if stop = 0 then complain refusal
  onInput fun stream => return ((), ← stream.seek 0)

def openFile (path : Text) : Action ByteArray := do
  let w ← world
  let place ← ofCall (.unreadable path) (w.openToRead path)
  return w.content place

def decode (bytes : ByteArray) : Action Text :=
  match Content.text? bytes with
  | some s => return s
  | none => crash .notUtf8

def readFile (path : Text) : Action Text := do decode (← openFile path)

def readFileLines (path : Text) : Action (List Text) := return Text.lines (← readFile path)

/-- Takes the lines of a file operand one by one, and passes on what the work on one line gives
to the work on the next. -/
def foldFileLines (path : Text) (start : σ) (work : σ → Text → Action σ) : Action σ := do
  let (lines, spoilt) := Content.lines (← openFile path)
  let state ← lines.foldlM work start
  if spoilt then crash .notUtf8
  return state

def forFileLines (path : Text) (work : Text → Action Unit) : Action Unit :=
  foldFileLines path () fun _ line => work line

end Action

end CommandShell

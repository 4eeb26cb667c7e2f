import CommandShell.Arguments

/-!
# `head` and `tail`

`head` writes the first lines of a file or of its input and `tail` the last ones, ten unless the
flag `n` says otherwise. For `head`, a negative number leaves out lines at the end.
-/

namespace CommandShell

structure Head where
  count : Int
  files : List Text

structure Tail where
  count : Int
  files : List Text

def lineCountFlag : Text := ['n']

def usualLineCount : Int := 10

/-- The lines of the only or first file, or of the input. The input must hold something unless
there is exactly one file. -/
def Action.fileOrInputLines (files : List Text) (refusal : Complaint) : Action (List Text) := do
  if files.length ≠ 1 then
    if ← Action.inputIsExhausted then Action.complain refusal
  match files with
  | [] => Action.readInputLines
  | file :: _ => Action.readFileLines file

namespace Head

/-- The number of lines; the last flag counts. -/
def countFrom (count : Int) : List Flag → Checked Int
  | [] => return count
  | flag :: later =>
    if flag.name = lineCountFlag then
      match flag.value.int? with
      | some count => countFrom count later
      | none => Checked.complain (.headCount flag.value)
    else Checked.complain (.headUnknownFlag flag.name)

/-- `head` takes the flag `n`. -/
def check (arguments : Arguments) : Checked Head := do
  let count ← countFrom usualLineCount (← arguments.flags)
  let (_, files) ← arguments.complete
  return { count, files }

def select (count : Int) (lines : List Text) : List Text :=
  lines.take (if count < 0 then lines.length + count else count).toNat

def run (head : Head) : Action Unit := do
  Action.writeEach (select head.count (← Action.fileOrInputLines head.files .headNoInput))

end Head

namespace Tail

/-- The number of lines; the first flag counts. -/
def countOf : List Flag → Checked Int
  | [] => return usualLineCount
  | flag :: _ =>
    if flag.name = lineCountFlag then
      match flag.value.int? with
      | some count => return count
      | none => Checked.complain (.tailCount flag.value)
    else Checked.complain (.tailUnknownFlag flag.name)

/-- `tail` takes the flag `n`. -/
def check (arguments : Arguments) : Checked Tail := do
  let count ← countOf (← arguments.flags)
  let (_, files) ← arguments.complete
  return { count, files }

/-- The lines that are written; the sign of the number does not matter. -/
def select (count : Int) (lines : List Text) : List Text :=
  lines.drop (lines.length - count.natAbs)

def run (tail : Tail) : Action Unit := do
  Action.writeEach (select tail.count (← Action.fileOrInputLines tail.files .tailNoInput))

end Tail

end CommandShell

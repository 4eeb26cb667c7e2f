import CommandShell.Arguments
import CommandShell.Text.Space

/-!
# `wc`

Counts the lines, words and characters of its files together, or of its input.
-/

namespace CommandShell

inductive Measure where
  | lines
  | words
  | characters
deriving DecidableEq, Repr

structure Wc where
  measure? : Option Measure
  files : List Text

/-- Numbers of lines, words and characters. -/
structure Counts where
  lines : Nat
  words : Nat
  characters : Nat
deriving DecidableEq, Repr

namespace Counts

def add (counts : Counts) (line : Text) : Counts where
  lines := counts.lines + 1
  words := counts.words + (Text.words line).length
  characters := counts.characters + line.length

def ofLines (lines : List Text) : Counts := lines.foldl add ⟨0, 0, 0⟩

/-- The count that is asked for, or all three. -/
def render (counts : Counts) : Option Measure → Text
  | some .lines => Text.ofNat counts.lines
  | some .words => Text.ofNat counts.words
  | some .characters => Text.ofNat counts.characters
  | none =>
    Text.ofNat counts.lines ++ ' ' :: Text.ofNat counts.words ++ ' ' ::
      Text.ofNat counts.characters

end Counts

namespace Wc

def measureOf? (name : Text) : Option Measure :=
  if name = ['l'] then some .lines
  else if name = ['w'] then some .words
  else if name = ['m'] then some .characters
  else none

def checkFlags : List Flag → Checked (Option Measure)
  | [] => return none
  | [flag] => match measureOf? flag.name with
    | some measure => return some measure
    | none => Checked.complain .wcUnknownFlag
  | _ => Checked.complain .wcManyFlags

/-- `wc` takes one flag at most and any number of files. -/
def check (arguments : Arguments) : Checked Wc := do
  let measure? ← checkFlags (← arguments.flags)
  let (_, files) ← arguments.complete
  return { measure?, files }

/-- Runs `wc`. Only the counts of files end in a line feed. -/
def run (wc : Wc) : Action Unit := do
  if wc.files.isEmpty then
    if ← Action.inputIsExhausted then Action.complain .wcNoInput
    Action.write ((Counts.ofLines (← Action.readInputLines)).render wc.measure?)
  else
    let texts ← wc.files.mapM Action.readFile
    Action.write ((Counts.ofLines (Text.lines texts.flatten)).render wc.measure?)
    Action.write ['\n']

end Wc

end CommandShell

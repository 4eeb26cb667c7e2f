import CommandShell.Arguments
import CommandShell.Pattern.Regex.Matching
import CommandShell.Pattern.Regex.Reader

/-!
# `grep`

Writes the lines of its files, or of its input, in which a regular expression matches. With more
than one file, every line comes after the name of its file.
-/

namespace CommandShell

structure Grep where
  pattern : Pattern
  files : List Text

namespace Grep

/-- `grep` takes an expression and any number of files. -/
def check (arguments : Arguments) : Checked Grep := do
  match ← arguments.operands with
  | [] => Checked.crash .noOperand
  | expression :: files =>
    match Pattern.ofText expression with
    | .error .invalid => Checked.complain (.grepPattern expression)
    | .error (.crash cause) => Checked.crash cause
    | .ok pattern =>
      let _ ← arguments.complete
      return { pattern, files }

def selects (grep : Grep) (line : Text) : Bool := grep.pattern.regex.occursIn line

def lineOf (grep : Grep) (file line : Text) : Text :=
  if grep.files.length > 1 then file ++ ':' :: line else line

def run (grep : Grep) : Action Unit := do
  if grep.files.isEmpty then
    if ← Action.inputIsExhausted then Action.complain .noInput
    Action.writeAll ((← Action.readInputLines).filter grep.selects)
  else grep.files.forM fun file => do
    let lines ← Action.readFileLines file
    Action.writeEach ((lines.filter grep.selects).map (grep.lineOf file))

end Grep

end CommandShell

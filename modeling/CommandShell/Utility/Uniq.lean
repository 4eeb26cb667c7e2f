import CommandShell.Arguments
import CommandShell.Text.Lowercase
import CommandShell.Text.Space

/-!
# `uniq`

Writes the lines of a file or of its input, without the white space around them and without
those that equal the line before. Before the first line there is an empty one.
-/

namespace CommandShell

structure Uniq where
  ignoreCase : Bool
  file? : Option Text

namespace Uniq

def ignoreCaseFlag : Text := ['i']

/-- `uniq` takes one flag and one file at most. -/
def check (arguments : Arguments) : Checked Uniq := do
  let flags ← arguments.flags
  if flags.length > 1 then Checked.complain .uniqManyFlags
  if flags.any (·.name ≠ ignoreCaseFlag) then Checked.complain .uniqUnknownFlag
  let files ← arguments.operands
  if files.length > 1 then Checked.complain .uniqManyFiles
  let _ ← arguments.complete
  return { ignoreCase := !flags.isEmpty, file? := files.head? }

def key (ignoreCase : Bool) (line : Text) : Text := if ignoreCase then Text.lower line else line

/-- Takes a line after another one, and gives it back for the next. -/
def visit (uniq : Uniq) (previous line : Text) : Action Text := do
  let line := Text.trim line
  if key uniq.ignoreCase line ≠ key uniq.ignoreCase previous then
    Action.write (line ++ ['\n'])
  return line

def run (uniq : Uniq) : Action Unit := do
  match uniq.file? with
  | some path =>
    if !(← Action.world).has path then Action.complain (.uniqNotFound path)
    let _ ← Action.foldFileLines path [] uniq.visit
  | none =>
    Action.rewindInput .uniqNoInput
    let _ ← Action.foldInputLines [] uniq.visit

end Uniq

end CommandShell

import CommandShell.Arguments

/-!
# `cat`

Copies its input if there is any, and otherwise its files, one after the other.
-/

namespace CommandShell

structure Cat where
  files : List Text

namespace Cat

/-- `cat` takes no flags. -/
def check (arguments : Arguments) : Checked Cat := do
  let (flags, files) ← arguments.complete
  if !flags.isEmpty then Checked.complain .catFlags
  return { files }

def run (cat : Cat) : Action Unit := do
  if !(← Action.inputIsExhausted) then
    Action.write (← Action.readInput)
  else if cat.files.isEmpty then Action.complain .catNeedsFile
  else cat.files.forM fun file => do
    Action.write (← Action.readFile file)

end Cat

end CommandShell

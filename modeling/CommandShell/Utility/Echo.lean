import CommandShell.Arguments

/-!
# `echo` and `exit`

`echo` writes its operands with blanks between them; `exit` ends the session.
-/

namespace CommandShell

structure Echo where
  operands : List Text

namespace Echo

def check (arguments : Arguments) : Checked Echo := do
  let (_, operands) ← arguments.complete
  return { operands }

def run (echo : Echo) : Action Unit := Action.write (Text.join [' '] echo.operands ++ ['\n'])

end Echo

namespace Exit

def check (arguments : Arguments) : Checked Unit := do
  let _ ← arguments.complete

def run : Action Unit := Action.complain .exit

end Exit

end CommandShell

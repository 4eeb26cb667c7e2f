import CommandShell.Action
import CommandShell.Flag

/-!
# Arguments

What a command is given: its flags, its operands and two streams. Whoever builds a command
directly may leave any of them out. Every command checks its arguments before it ever runs; some
look at their flags and operands first and only then notice that something is missing.
-/

namespace CommandShell

/-- What a command is given. -/
structure Arguments where
  flags? : Option (List Flag)
  operands? : Option (List Text)
  /-- whether both streams are there -/
  connected : Bool

abbrev Checked := Except Failure

namespace Checked

def complain (cause : Complaint) : Checked α := throw (.complaint cause)

def crash (cause : Crash) : Checked α := throw (.crash cause)

end Checked

namespace Arguments

/-- The flags, for a command that looks at them before anything else. -/
def flags (arguments : Arguments) : Checked (List Flag) :=
  match arguments.flags? with
  | some flags => return flags
  | none => Checked.crash .noList

/-- The operands, for a command that looks at them before anything else. -/
def operands (arguments : Arguments) : Checked (List Text) :=
  match arguments.operands? with
  | some operands => return operands
  | none => Checked.crash .noList

def complete (arguments : Arguments) : Checked (List Flag × List Text) :=
  match arguments.flags?, arguments.operands?, arguments.connected with
  | some flags, some operands, true => return (flags, operands)
  | _, _, _ => Checked.complain .missingArgument

end Arguments

end CommandShell

import CommandShell.Arguments
import CommandShell.Flag

/-!
# Plans

What a command line asks for, before anything is opened or run. A command stands alone or inside
redirects; commands are joined by pipes and sequences, and a tolerant part reports its errors as
output.
-/

namespace CommandShell

/-- A command of a kind `κ` with its flags and operands, and the redirects around it. -/
inductive Simple (κ : Type) where
  | command (command : κ) (flags : List Flag) (operands : List Text)
  /-- reads from `source` and writes to `sink`, where they are given -/
  | redirect (source sink : Option Text) (child : Simple κ)

/-- What a command line asks for. -/
inductive Plan (κ : Type) where
  | simple (simple : Simple κ)
  | tolerant (child : Plan κ)
  | pipe (left right : Plan κ)
  | seq (left right : Plan κ)
  /-- writes a text and ends with a status -/
  | forward (text : Text) (status : Int)

namespace Simple

def addFlag (flag : Flag) : Simple κ → Simple κ
  | command c flags operands => command c (flags ++ [flag]) operands
  | redirect source sink child => redirect source sink (addFlag flag child)

def addOperand (operand : Text) : Simple κ → Simple κ
  | command c flags operands => command c flags (operands ++ [operand])
  | redirect source sink child => redirect source sink (addOperand operand child)

/-- The command inside all redirects. -/
def kind : Simple κ → κ
  | command c _ _ => c
  | redirect _ _ child => child.kind

end Simple

namespace Plan

def ofCommand (command? : Option κ) (flags : List Flag) (operands : List Text) :
    Checked (Plan κ) :=
  match command? with
  | some command => return .simple (.command command flags operands)
  | none => Checked.complain .missingArgument

def checkFile : Option (Option Text) → Checked (Option Text)
  | none => return none
  | some (some file) => return some file
  | some none => Checked.complain .missingArgument

/-- A plan with a redirect around a command. Each file may be left alone, or set to a name. Flags
and operands go to the command. -/
def ofRedirect (child? : Option (Plan κ)) (source sink : Option (Option Text))
    (flags : List Flag) (operands : List Text) : Checked (Plan κ) := do
  match child? with
  | none => Checked.complain .missingArgument
  | some (.simple child) =>
    let source ← checkFile source
    let sink ← checkFile sink
    let child := flags.foldl (fun child flag => child.addFlag flag) child
    let child := operands.foldl (fun child operand => child.addOperand operand) child
    return .simple (.redirect source sink child)
  | some _ => Checked.crash .notRedirectable

def ofPipe (left? right? : Option (Plan κ)) : Checked (Plan κ) :=
  match left?, right? with
  | some left, some right => return .pipe left right
  | _, _ => Checked.complain .missingArgument

def ofPart (part? : Option (Plan κ)) : Checked (Plan κ) :=
  match part? with
  | some part => return part
  | none => Checked.crash .missingPart

end Plan

end CommandShell

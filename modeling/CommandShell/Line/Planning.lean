import CommandShell.Files.Expansion
import CommandShell.Line.Chart
import CommandShell.Line.Meaning
import CommandShell.Plan
import CommandShell.Specification

/-!
# Planning

A line becomes a plan. The name of a command is looked up among those that are known, and the
specification of the command decides which words are flags and which of them take the next
argument as their value. Arguments are expanded against the files.
-/

namespace CommandShell.Line

/-- The commands that lines can use, with their specifications. -/
structure Catalog (κ : Type) where
  commands : List κ
  specification : κ → Specification

namespace Catalog

/-- The last command with a name. -/
def find? (catalog : Catalog κ) (name : Text) : Option κ :=
  catalog.commands.reverse.find? fun command => (catalog.specification command).name = name

end Catalog

def orComplain : Except Complaint α → Checked α
  | .ok a => return a
  | .error cause => Checked.complain cause

/-- A command whose modifiers are being read, and a flag that waits for its value. -/
structure Progress (κ : Type) where
  simple : Simple κ
  waiting : Option FlagSpec

namespace Progress

def complete (progress : Progress κ) (spec : FlagSpec) (value : Text) : Checked (Progress κ) := do
  let flag ← orComplain (spec.ofText (some value))
  return ⟨progress.simple.addFlag flag, none⟩

def needsValue (spec : FlagSpec) : Checked α := do
  Checked.complain (.flagNeedsValue (← orComplain spec.name))

/-- Reads a word with a dash. If the command takes any such word, it is a value or an operand
with its dash. -/
def readFlag (specification : Specification) (word : Text) (progress : Progress κ) :
    Checked (Progress κ) :=
  match specification.declaration? word, progress.waiting with
  | none, _ => Checked.complain (.unknownFlag word)
  | some .wildcard, some spec => progress.complete spec ('-' :: word)
  | some .wildcard, none => return ⟨progress.simple.addOperand ('-' :: word), none⟩
  | some (.named name .bool help), waiting => do
    let flag ← orComplain ((FlagSpec.named name .bool help).withValue (.bool true))
    return ⟨progress.simple.addFlag flag, waiting⟩
  | some (.named _ _ _), some spec => needsValue spec
  | some spec, none => return { progress with waiting := some spec }

/-- Reads an argument: the value of a flag, or operands. An argument that fits no path stands for
itself. -/
def readArgument (w : World) (argument : Text) (progress : Progress κ) :
    Checked (Progress κ) :=
  match progress.waiting with
  | some spec => progress.complete spec argument
  | none =>
    match Expansion.paths w argument with
    | .error cause => Checked.crash cause
    | .ok paths =>
      let operands := if paths.isEmpty then [argument] else paths
      return ⟨operands.foldl (fun simple operand => simple.addOperand operand) progress.simple,
        none⟩

def read (w : World) (specification : Specification) (progress : Progress κ) :
    Modifier → Checked (Progress κ)
  | .flag name => do progress.readFlag specification (← orComplain name.value)
  | .arg value => do progress.readArgument w (← orComplain value.value)

def finish (progress : Progress κ) : Checked (Simple κ) :=
  match progress.waiting with
  | none => return progress.simple
  | some spec => needsValue spec

end Progress

/-- Puts a redirect around a command; its file is named as it stands in the line. -/
def Redirect.wrap (simple : Simple κ) : Redirect → Simple κ
  | .mk .input _ target => .redirect (some target.text) none simple
  | .mk .output _ target => .redirect none (some target.text) simple

/-- The plan of a command. An underscore before its name makes it tolerant. -/
def Command.plan (catalog : Catalog κ) (w : World) : Command → Checked (Plan κ)
  | .mk opening name ending => do
    match ← orComplain name.value with
    | [] => Checked.crash .emptyName
    | first :: rest =>
      let tolerant := first = '_'
      let called := if tolerant then rest else first :: rest
      match catalog.find? called with
      | none => Checked.complain (.unknownCommand called)
      | some command =>
        let redirects := opening.redirects ++ ending.redirects
        let simple := redirects.foldl Redirect.wrap (.command command [] [])
        let start : Progress κ := ⟨simple, none⟩
        let specification := catalog.specification command
        let progress ← ending.modifiers.foldlM (Progress.read w specification) start
        let plan := Plan.simple (← progress.finish)
        return if tolerant then .tolerant plan else plan

def Pipe.plan (catalog : Catalog κ) (w : World) : Pipe → Checked (Plan κ)
  | .pair left _ _ right => return .pipe (← left.plan catalog w) (← right.plan catalog w)
  | .more left _ _ right => return .pipe (← left.plan catalog w) (← right.plan catalog w)

def Sequence.plan (catalog : Catalog κ) (w : World) : Sequence → Checked (Plan κ)
  | .commands left _ _ right => return .seq (← left.plan catalog w) (← right.plan catalog w)
  | .pipeCommand left _ _ right => return .seq (← left.plan catalog w) (← right.plan catalog w)
  | .pipes left _ _ right => return .seq (← left.plan catalog w) (← right.plan catalog w)
  | .commandPipe left _ _ right => return .seq (← left.plan catalog w) (← right.plan catalog w)
  | .more left _ _ right => return .seq (← left.plan catalog w) (← right.plan catalog w)

def CommandLine.plan (catalog : Catalog κ) (w : World) : CommandLine → Checked (Plan κ)
  | .command only => only.plan catalog w
  | .pipe all => all.plan catalog w
  | .sequence all => all.plan catalog w

def Script.plan (catalog : Catalog κ) (w : World) (script : Script) : Checked (Plan κ) :=
  match script.line with
  | none => Checked.complain .noCommand
  | some line => line.plan catalog w

def Script.ofLine (line : Text) : Checked Script :=
  match Script.ofLine? line with
  | none => Checked.complain .badLine
  | some script => return script

def plan (catalog : Catalog κ) (w : World) (line : Text) : Checked (Plan κ) := do
  (← Script.ofLine line).plan catalog w

end CommandShell.Line

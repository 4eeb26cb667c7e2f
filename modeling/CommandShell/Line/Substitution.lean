import CommandShell.Assembly
import CommandShell.Line.Planning
import CommandShell.Text.Space

/-!
# Command substitution

The command lines between backquotes are run from left to right, and what they write takes their
place in the line: in one line, with a backslash before every quote, and with single spaces
between its words.
-/

namespace CommandShell

namespace Line

def utilities : Catalog Utility := ⟨Utility.all, Utility.specification⟩

/-- The output of a command line as it is put into another line. -/
def splice (output : Text) : Text :=
  let oneLine := Text.replaceChar '\n' [' '] output
  let escaped := Text.replaceChar '\'' ['\\', '\''] (Text.replaceChar '"' ['\\', '"'] oneLine)
  Text.join [' '] ((Text.splitAt ' ' (Text.trim escaped)).filter (· ≠ []))

/-- Runs a command line and gives what is put in its place. -/
def substitute (line : Text) : Shell Text := do
  let plan ← Shell.ofChecked (plan utilities (← get) line)
  let job ← plan.build .both
  return splice (← job.outputWith plan.usualInput)

end Line

namespace Tree

def innerLine? (children : List Tree) : Option Text :=
  (children.find? (·.hasLabel (.rule .commandLine))).map text

mutual

/-- The text of a tree with its outermost substitutions run. -/
def substituted : Tree → Shell Text
  | leaf token => return token.text
  | endOfLine => return []
  | node .subcommand children =>
    match innerLine? children with
    | none => return []
    | some line => Line.substitute line
  | node _ children => substitutedAll children

/-- The text of trees from left to right with their outermost substitutions run. -/
def substitutedAll : List Tree → Shell Text
  | [] => return []
  | tree :: later => return (← substituted tree) ++ (← substitutedAll later)

end

end Tree

namespace Line

def substituted (line : Text) : Shell Text := do
  (← Shell.ofChecked (Script.ofLine line)).tree.substituted

/-- The plan of a line after its substitutions have been run. -/
def planOf (catalog : Catalog κ) (line : Text) : Shell (Plan κ) := do
  let line ← substituted line
  Shell.ofChecked (plan catalog (← get) line)

end Line

end CommandShell

import CommandShell.Arguments
import CommandShell.Pattern.Regex.Reader
import CommandShell.Pattern.Regex.Replacement

/-!
# `sed`

Replaces, in every line of a file or of its input, the first match of a regular expression, or
all of them.
-/

namespace CommandShell

structure Sed where
  pattern : Pattern
  replacement : Text
  everywhere : Bool
  files : List Text

namespace Sed

def isSeparator (c : Char) : Bool := c = '/' || c = '|'

/-- Whether an expression ends in a separator, any of them, and the letter for all matches. -/
def asksForAll (expression : Text) : Bool :=
  match expression.reverse with
  | 'g' :: separator :: _ => isSeparator separator
  | _ => false

/-- Reads an expression: a letter, and between three separators a pattern and a replacement. -/
def ofExpression (expression : Text) (files : List Text) : Checked Sed :=
  match expression with
  | 's' :: separator :: _ =>
    if !isSeparator separator then Checked.complain .sedForm
    else match Text.splitAt separator expression with
      | [_, source, replacement, _] =>
        match Pattern.ofText source with
        | .error .invalid => Checked.complain .sedPattern
        | .error (.crash cause) => Checked.crash cause
        | .ok pattern =>
          return { pattern, replacement, everywhere := asksForAll expression, files }
      | _ => Checked.complain .sedParts
  | _ => Checked.complain .sedForm

/-- `sed` takes an expression and a file. -/
def check (arguments : Arguments) : Checked Sed := do
  let (_, operands) ← arguments.complete
  match operands with
  | [] => Checked.complain .sedNoExpression
  | expression :: files => ofExpression expression files

/-- Writes a line with its matches replaced. The replacement is read anew for every line. -/
def edit (sed : Sed) (line : Text) : Action Unit := do
  let template ← Action.ofExcept (Regex.Template.ofText sed.pattern sed.replacement)
  Action.write (sed.pattern.regex.replace template (!sed.everywhere) line)

def run (sed : Sed) : Action Unit := do
  match sed.files with
  | [] =>
    if ← Action.inputIsExhausted then Action.complain .noInput
    Action.forInputLines sed.edit
  | file :: _ => Action.forFileLines file sed.edit

end Sed

end CommandShell

import CommandShell.Arguments
import CommandShell.Utility.Ranges

/-!
# `cut`

Keeps some columns of every line of a file, or of the input if there is no file.
-/

namespace CommandShell

structure Cut where
  ranges : Value
  files : List Text

namespace Cut

/-- `cut` takes one flag, whatever its name. -/
def check (arguments : Arguments) : Checked Cut := do
  let (flags, files) ← arguments.complete
  match flags with
  | [flag] => return { ranges := flag.value, files }
  | [] => Checked.complain .cutNoList
  | _ => Checked.complain .cutManyLists

def readLines (cut : Cut) : Action (List Text) := do
  match cut.files with
  | [] =>
    if ← Action.inputIsExhausted then Action.complain .cutEmptyInput
    Action.readInputLines
  | file :: _ => Action.readFileLines file

def readRange (columns : Int) : Value → Action Range
  | .text s => match Range.ofText s columns with
    | .ok range => return range
    | .error cause => Action.complain cause
  | _ => Action.crash .notText

/-- Reads the ranges of a value: those of a list, or the characters of a text. -/
def readRanges (columns : Int) : Value → Action (List Range)
  | .list items => items.mapM (readRange columns)
  | .text s => (s.map fun c => Value.text [c]).mapM (readRange columns)
  | _ => Action.crash .notIterable

def columns (lines : List Text) : Nat := lines.foldl (fun n line => max n line.length) 0

def slice (line : Text) (range : Range) : Text :=
  (line.take range.last.toNat).drop (range.first - 1).toNat

def slices (ranges : List Range) (line : Text) : Text := ranges.flatMap (slice line)

/-- Writes lines with line feeds between them. -/
def writeLines (lines : List Text) : Action Unit := do
  Action.writeAll (lines.dropLast.map (· ++ ['\n']))
  if let some last := lines.getLast? then Action.write last

def run (cut : Cut) : Action Unit := do
  let lines := (← cut.readLines).map Text.withoutLineEnd
  let ranges ← readRanges (columns lines) cut.ranges
  writeLines (lines.map (slices (Range.merge ranges)))

end Cut

end CommandShell

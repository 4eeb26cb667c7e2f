import CommandShell.Arguments

/-!
# `sort`

Writes the lines of a file or of its input in code-point order, or in the opposite order.
-/

namespace CommandShell

structure Sorting where
  reverse : Bool
  file? : Option Text

namespace Sorting

def reverseFlag : Text := ['r']

/-- `sort` takes one flag and one file at most. -/
def check (arguments : Arguments) : Checked Sorting := do
  let flags ← arguments.flags
  if flags.length > 1 then Checked.complain .sortManyFlags
  if flags.any (·.name ≠ reverseFlag) then Checked.complain .sortUnknownFlag
  let files ← arguments.operands
  if files.length > 1 then Checked.complain .sortManyFiles
  let _ ← arguments.complete
  return { reverse := !flags.isEmpty, file? := files.head? }

def readFileLines (path : Text) : Action (List Text) := do
  let w ← Action.world
  if !w.has path then Action.complain (.sortNotFound path)
  let place ← Action.ofCall .sortFailed (w.openToRead path)
  return Text.lines (← Action.decode (w.content place))

/-- Lines in order, or in the opposite one; equal lines stay in the order that they had. -/
def order (reverse : Bool) (lines : List Text) : List Text :=
  if reverse then lines.mergeSort fun s t => Text.le t s else lines.mergeSort Text.le

def run (sort : Sorting) : Action Unit := do
  let lines ← match sort.file? with
    | some path => readFileLines path
    | none => do
      Action.rewindInput .sortNoInput
      Action.readInputLines
  Action.writeEach (order sort.reverse lines)

end Sorting

end CommandShell

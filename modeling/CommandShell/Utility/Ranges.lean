import CommandShell.Complaint
import CommandShell.Number.Integer

/-!
# Column ranges

`cut` keeps the columns that lie in one of several ranges. Columns are numbered from one and a
range includes both its ends; a range whose end lies before its start has no columns.
-/

namespace CommandShell

/-- The columns from `first` to `last`. -/
structure Range where
  first : Int
  last : Int
deriving DecidableEq, Repr

namespace Range

def ofColumn (s : Text) : Except Complaint Range :=
  match Int.ofText? s with
  | none => throw (.cutNotNumber s)
  | some n => if n < 1 then throw .cutPosition else return ⟨n, n⟩

def readEnd (a b side : Text) : Except Complaint (Option Int) :=
  if side.isEmpty then return none
  else match Int.ofText? side with
    | none => throw (.cutBadEnds a b)
    | some n => return some n

/-- Reads the two ends of a range. Without a first column the range starts at one, without a last
one it ends at the last column there is. -/
def ofEnds (a b : Text) (columns : Int) : Except Complaint Range := do
  let first? ← readEnd a b a
  let last? ← readEnd a b b
  let first := first?.getD 1
  if first?.isSome && last?.any (· < first) then throw .cutDecreasing
  else if first < 1 then throw .cutPosition
  else return ⟨first, (last?.map (min · columns)).getD columns⟩

def ofText (s : Text) (columns : Int) : Except Complaint Range :=
  if (Text.trim s).isEmpty then throw .cutEmptyRange
  else match Text.splitAt '-' s with
    | [column] => ofColumn column
    | [a, b] => ofEnds a b columns
    | _ => throw .cutManyDashes

/-- The order of ranges: by their first columns, then by their last. -/
def le (r s : Range) : Bool := r.first < s.first || (r.first = s.first && r.last ≤ s.last)

/-- Joins sorted ranges, the first of which may have grown already, where one starts before the
last has ended. -/
def mergeFrom (current : Range) : List Range → List Range
  | [] => [current]
  | next :: later =>
    if current.last ≥ next.first then
      mergeFrom ⟨current.first, max current.last next.last⟩ later
    else current :: mergeFrom next later

/-- The ranges in order, those that overlap joined. -/
def merge (ranges : List Range) : List Range :=
  match ranges.mergeSort le with
  | [] => []
  | first :: later => mergeFrom first later

end Range

end CommandShell

import CommandShell.Text

/-!
# Wildcards

In a pattern for names, `*` stands for any characters, `?` for one character, and characters in
brackets for one of them, or after `!` for one other than them. A bracket that is never closed
stands for itself.
-/

namespace CommandShell

namespace Wildcard

/-- What may stand between brackets: a character, or all from one to another. -/
inductive Item where
  | one (c : Char)
  | span (first last : Char)
deriving DecidableEq, Repr

inductive Part where
  | any
  | one
  | char (c : Char)
  | set (negated : Bool) (items : List Item)
deriving DecidableEq, Repr

def Item.has (c : Char) : Item → Bool
  | one d => c = d
  | span first last => first ≤ c && c ≤ last

/-- The index at which a bracket closes, counted from its first character: the first closing
bracket that is not the first character, a negation apart. -/
def closing? (body : Text) : Option Nat :=
  let afterMark := if body.head? = some '!' then 1 else 0
  let skipped := if body[afterMark]? = some ']' then afterMark + 1 else afterMark
  ((body.drop skipped).findIdx? (· = ']')).map (· + skipped)

/-- Cuts the characters between brackets at the dashes that make spans. A dash makes one if there
is a character before it that ends no other span. -/
def chunksFrom (skip : Nat) (current : Text) : Text → List Text
  | [] => [current.reverse]
  | c :: rest =>
    if c = '-' ∧ skip = 0 then current.reverse :: chunksFrom 2 [] rest
    else chunksFrom (skip - 1) (c :: current) rest

/-- A dash at the very end makes no span. -/
def keepLastDash (chunks : List Text) : List Text :=
  match chunks.reverse with
  | [] :: last :: before => ((last ++ ['-']) :: before).reverse
  | _ => chunks

/-- Leaves out the spans that end before they begin, from the last to the first. -/
def dropEmptySpans : List Text → List Text
  | [] => []
  | chunk :: later =>
    match dropEmptySpans later with
    | [] => [chunk]
    | next :: rest =>
      match chunk.getLast?, next.head? with
      | some a, some b =>
        if b < a then (chunk.dropLast ++ next.tail) :: rest else chunk :: next :: rest
      | _, _ => chunk :: next :: rest

/-- A character between brackets, or the dash of a span. -/
inductive Mark where
  | char (c : Char)
  | dash
deriving DecidableEq, Repr

def marks (chunks : List Text) : List Mark :=
  match chunks with
  | [] => []
  | [chunk] => chunk.map .char
  | chunk :: later => chunk.map .char ++ .dash :: marks later

/-- Reads the items; a dash that has no beginning stands for itself. -/
def items : List Mark → List Item
  | [] => []
  | .char a :: .dash :: .char b :: rest => .span a b :: items rest
  | .char c :: rest => .one c :: items rest
  | .dash :: rest => .one '-' :: items rest

def ofBracket (body : Text) : Part :=
  let chunks :=
    if body.contains '-' then
      dropEmptySpans (keepLastDash (chunksFrom (if body.head? = some '!' then 2 else 1) [] body))
    else [body]
  match marks chunks with
  | .char '!' :: rest => .set true (items rest)
  | all => .set false (items all)

def parts : Text → List Part
  | [] => []
  | '*' :: rest => .any :: parts rest
  | '?' :: rest => .one :: parts rest
  | '[' :: rest =>
    match closing? rest with
    | none => .char '[' :: parts rest
    | some stop => ofBracket (rest.take stop) :: parts (rest.drop (stop + 1))
  | c :: rest => .char c :: parts rest
termination_by s => s.length
decreasing_by all_goals (simp only [List.length_cons, List.length_drop]; omega)

/-- Whether a part that stands for one character stands for this one. -/
def Part.has (c : Char) : Part → Bool
  | any => false
  | one => true
  | char d => c = d
  | set negated items => items.any (·.has c) != negated

/-- Whether the rest of a name fits after some of its characters. -/
def fitsLater (fits : Text → Bool) : Text → Bool
  | [] => fits []
  | c :: rest => fits (c :: rest) || fitsLater fits rest

def fitsParts : List Part → Text → Bool
  | [], name => name.isEmpty
  | .any :: rest, name => fitsLater (fitsParts rest) name
  | _ :: _, [] => false
  | part :: rest, c :: name => part.has c && fitsParts rest name

def fits (pattern name : Text) : Bool := fitsParts (parts pattern) name

def hasAny (pattern : Text) : Bool := pattern.any fun c => c = '*' || c = '?' || c = '['

end Wildcard

end CommandShell

import CommandShell.Pattern.Regex

/-!
# Matching

A regular expression is matched at a place in a text by trying its alternatives in order. What
comes after a part is passed to the part as a function, so a part that can match in several ways
tries them until the rest matches too.
-/

namespace CommandShell

namespace Regex

/-- A place in a text with what the groups have captured on the way to it. The characters before
the place are listed from the nearest on. -/
structure Place where
  before : Text
  after : Text
  position : Nat
  captures : List (Nat × Text)

namespace Place

def start (s : Text) : Place := ⟨[], s, 0, []⟩

/-- One character further, past a character that passes a test. -/
def step? (test : Test) (place : Place) : Option Place :=
  match place.after with
  | [] => none
  | c :: rest =>
    if test.passes c then
      some { place with before := c :: place.before, after := rest, position := place.position + 1 }
    else none

def back? (count : Nat) (place : Place) : Option Place :=
  if count ≤ place.position then
    some { place with
      before := place.before.drop count
      after := (place.before.take count).reverse ++ place.after
      position := place.position - count }
  else none

def capture? (index : Nat) (place : Place) : Option Text :=
  (place.captures.find? (·.1 = index)).map (·.2)

/-- Captures, for a group, what stands between an earlier place and this one. -/
def capture (place : Place) (index : Nat) (opened : Place) : Place :=
  let text := (place.before.take (place.position - opened.position)).reverse
  { place with captures := (index, text) :: place.captures.filter (·.1 ≠ index) }

/-- Past a text that is compared by a rule. -/
def past? (rule : CaseRule) : Text → Place → Option Place
  | [], place => some place
  | c :: rest, place =>
    match place.after with
    | [] => none
    | d :: later =>
      if rule.lower c.toNat = rule.lower d.toNat then
        past? rule rest { place with
          before := d :: place.before, after := later, position := place.position + 1 }
      else none

/-- Whether a character in some direction belongs to a word. -/
def isWord (asciiOnly : Bool) (neighbours : Text) : Bool :=
  neighbours.head?.any fun c => Class.word.has c asciiOnly

/-- Whether a place is one that an anchor asks for. An empty text has no word boundaries, and no
places that are none. -/
def isAt (place : Place) : Anchor → Bool
  | .textStart => place.before.isEmpty
  | .textEnd => place.after.isEmpty
  | .lastLineEnd => place.after.isEmpty || place.after = ['\n']
  | .lineStart => place.before.isEmpty || place.before.head? = some '\n'
  | .lineEnd => place.after.isEmpty || place.after.head? = some '\n'
  | .boundary asciiOnly negated =>
    !(place.before.isEmpty && place.after.isEmpty) &&
      ((isWord asciiOnly place.before != isWord asciiOnly place.after) != negated)

end Place

/-- What remains to be matched after a part. -/
abbrev Rest := Place → Option Place

/-- A part: it finds a place from which the rest matches. -/
abbrev Matcher := Place → Rest → Option Place

/-- Repeats a part as often as it can, then with fewer repetitions. Once there are enough of
them, a repetition may start only at another place than the one before it. -/
def greedily (body : Matcher) (least : Nat) (most : Option Nat) (rest : Rest) :
    (fuel count : Nat) → (last : Option Nat) → Place → Option Place
  | 0, _, _, place => rest place
  | fuel + 1, count, last, place =>
    if count < least then
      body place (greedily body least most rest fuel (count + 1) last)
    else
      let more :=
        if most.all (count < ·) ∧ last ≠ some place.position then
          body place (greedily body least most rest fuel (count + 1) (some place.position))
        else none
      more <|> rest place

/-- Repeats a part as seldom as it can, then more often. -/
def reluctantly (body : Matcher) (least : Nat) (most : Option Nat) (rest : Rest) :
    (fuel count : Nat) → (last : Option Nat) → Place → Option Place
  | 0, _, _, place => rest place
  | fuel + 1, count, last, place =>
    if count < least then
      body place (reluctantly body least most rest fuel (count + 1) last)
    else rest place <|>
      if most.all (count < ·) ∧ last ≠ some place.position then
        body place (reluctantly body least most rest fuel (count + 1) (some place.position))
      else none

/-- Repeats a part as often as it can and keeps every repetition. -/
def possessively (body : Matcher) (least : Nat) (most : Option Nat) :
    (fuel count : Nat) → (last : Option Nat) → Place → Option Place
  | 0, _, _, place => some place
  | fuel + 1, count, last, place =>
    if count < least then
      (body place some).bind (possessively body least most fuel (count + 1) last)
    else if most.all (count < ·) ∧ last ≠ some place.position then
      match body place some with
      | some next => possessively body least most fuel (count + 1) (some place.position) next
      | none => some place
    else some place

/-- The most repetitions that can be tried from a place: those that are needed, one for each
character that is left, and one that matches nothing. -/
def repetitions (least : Nat) (place : Place) : Nat := least + place.after.length + 2

def matcher : Regex → Matcher
  | .empty, place, rest => rest place
  | .one test, place, rest => (place.step? test).bind rest
  | .anchor spot, place, rest => if place.isAt spot then rest place else none
  | .seq first second, place, rest => matcher first place fun next => matcher second next rest
  | .alt first second, place, rest => matcher first place rest <|> matcher second place rest
  | .rep .greedy least most body, place, rest =>
    greedily (matcher body) least most rest (repetitions least place) 0 none place
  | .rep .reluctant least most body, place, rest =>
    reluctantly (matcher body) least most rest (repetitions least place) 0 none place
  | .rep .possessive least most body, place, rest =>
    (possessively (matcher body) least most (repetitions least place) 0 none place).bind rest
  | .group index body, place, rest =>
    matcher body place fun next => rest (next.capture index place)
  | .atomic body, place, rest => (matcher body place some).bind rest
  | .look behind negated body, place, rest =>
    let found := (place.back? (behind.getD 0)).bind fun start => matcher body start some
    if negated then if found.isSome then none else rest place
    else found.bind fun next => rest { place with captures := next.captures }
  | .again index rule, place, rest =>
    (place.capture? index).bind fun text => (place.past? rule text).bind rest
  | .cond index yes no, place, rest =>
    if (place.capture? index).isSome then matcher yes place rest else matcher no place rest

/-- Matches an expression at a place. A match that must advance may not end where it starts. -/
def matchAt (regex : Regex) (mustAdvance : Bool) (place : Place) : Option Place :=
  matcher regex place fun stop =>
    if mustAdvance ∧ stop.position = place.position then none else some stop

/-- Where a match starts and where it ends. -/
structure Match where
  start : Place
  stop : Place

/-- The first match at a place or after it. Only a match at that very place must advance. -/
def searchFrom (regex : Regex) (mustAdvance : Bool) (before : Text) (position : Nat) :
    Text → Option Match
  | [] => tryAt []
  | c :: rest =>
    tryAt (c :: rest) <|> searchFrom regex false (c :: before) (position + 1) rest
where
  tryAt (after : Text) : Option Match :=
    let place : Place := ⟨before, after, position, []⟩
    (matchAt regex mustAdvance place).map fun stop => ⟨place, stop⟩

def occursIn (regex : Regex) (s : Text) : Bool := (searchFrom regex false [] 0 s).isSome

end Regex

end CommandShell

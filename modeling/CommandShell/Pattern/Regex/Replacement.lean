import CommandShell.Failure
import CommandShell.Number.Integer
import CommandShell.Pattern.Regex.Matching

/-!
# Replacements

A replacement is a text in which a backslash introduces a special character or a group of the
match. A text without backslashes stands for itself.
-/

namespace CommandShell

namespace Regex

inductive Part where
  | char (c : Char)
  | group (index : Nat)
deriving DecidableEq, Repr

/-- A replacement, ready to be filled in. -/
abbrev Template := List Part

namespace Template

/-- Special characters that are written with a letter. -/
def special? (c : Char) : Option Char :=
  if c = 'a' then some '\x07'
  else if c = 'b' then some '\x08'
  else if c = 'f' then some '\x0c'
  else if c = 'n' then some '\n'
  else if c = 'r' then some '\r'
  else if c = 't' then some '\t'
  else if c = 'v' then some '\x0b'
  else if c = '\\' then some '\\'
  else none

def isOctal (c : Char) : Bool := '0' ≤ c && c ≤ '7'

def octal (digits : Text) : Nat := digits.foldl (fun n c => 8 * n + (c.toNat - 48)) 0

def groupPart (pattern : Pattern) (index : Nat) : Except Crash Part :=
  if index > pattern.groups then throw .badReplacement else return .group index

/-- A name in angle brackets; an escaped character in it keeps its backslash. -/
def splitName (name : Text) : Text → Option (Text × Text)
  | '>' :: rest => if name.isEmpty then none else some (name.reverse, rest)
  | '\\' :: c :: rest => splitName (c :: '\\' :: name) rest
  | ['\\'] => none
  | c :: rest => splitName (c :: name) rest
  | [] => none

/-- The group with a name or a number. A name that the pattern does not know is worse than a bad
one, unless the replacement breaks off right after it. -/
def namedGroup (pattern : Pattern) (name rest : Text) : Except Crash Part :=
  if rest = ['\\'] then throw .badReplacement
  else if Text.isName name then
    match pattern.names.find? (·.1 = name) with
    | some (_, index) => groupPart pattern index
    | none => throw .unknownGroup
  else match Int.ofText? name with
    | some (.ofNat index) => groupPart pattern index
    | _ => throw .badReplacement

/-- A number after a backslash: three octal digits are a character, and one or two digits are a
group. -/
def number (pattern : Pattern) (c : Char) : Text → Except Crash (Part × Nat)
  | d :: e :: _ =>
    if d.isDigit && isOctal c && isOctal d && isOctal e then
      let code := octal [c, d, e]
      if code > 0xff then throw .badReplacement else return (.char (Char.ofNat code), 2)
    else if d.isDigit then two d
    else one
  | [d] => if d.isDigit then two d else one
  | [] => one
where
  /-- The group with a number of one digit. -/
  one : Except Crash (Part × Nat) := return (← groupPart pattern (c.toNat - 48), 0)
  /-- The group with a number of two digits. -/
  two (d : Char) : Except Crash (Part × Nat) :=
    return (← groupPart pattern (10 * (c.toNat - 48) + (d.toNat - 48)), 1)

/-- What follows a backslash: the parts it stands for and the text after them. -/
def escaped (pattern : Pattern) (c : Char) (rest : Text) : Except Crash (List Part × Text) :=
  if c = 'g' then
    match rest with
    | '<' :: inner =>
      match splitName [] inner with
      | none => throw .badReplacement
      | some (name, later) => return ([← namedGroup pattern name later], later)
    | _ => throw .badReplacement
  else if c = '0' then
    let digits := (rest.take 2).takeWhile isOctal
    return ([.char (Char.ofNat (octal digits % 0x100))], rest.drop digits.length)
  else if c.isDigit then do
    let (part, used) ← number pattern c rest
    return ([part], rest.drop used)
  else match special? c with
    | some special => return ([.char special], rest)
    | none => if c.isAlpha then throw .badReplacement else return ([.char '\\', .char c], rest)

/-- Reads a replacement that has backslashes; `fuel` bounds the number of its parts. -/
def read (pattern : Pattern) : (fuel : Nat) → Text → Except Crash Template
  | 0, _ | _, [] => return []
  | _, ['\\'] => throw .badReplacement
  | fuel + 1, '\\' :: c :: rest => do
    let (parts, later) ← escaped pattern c rest
    return parts ++ (← read pattern fuel later)
  | fuel + 1, c :: rest => return .char c :: (← read pattern fuel rest)

def ofText (pattern : Pattern) (s : Text) : Except Crash Template :=
  if s.contains '\\' then read pattern s.length s else return s.map .char

/-- Fills a replacement with the groups of a match; a group that took no part is empty. -/
def fill (template : Template) (found : Match) : Text :=
  template.flatMap fun
    | .char c => [c]
    | .group 0 => found.start.after.take (found.stop.position - found.start.position)
    | .group index => (found.stop.capture? index).getD []

end Template

/-- Replaces the matches after a place, or only the first one. After a match that is empty, the
next one must advance; `fuel` bounds the number of matches. -/
def replaceFrom (regex : Regex) (template : Template) (once : Bool) :
    (fuel : Nat) → (mustAdvance : Bool) → (before : Text) → (position : Nat) → Text → Text
  | 0, _, _, _, after => after
  | fuel + 1, mustAdvance, before, position, after =>
    match searchFrom regex mustAdvance before position after with
    | none => after
    | some found =>
      let skipped := after.take (found.start.position - position)
      let later :=
        if once then found.stop.after
        else replaceFrom regex template once fuel
          (found.start.position = found.stop.position) found.stop.before found.stop.position
          found.stop.after
      skipped ++ template.fill found ++ later

/-- Replaces all matches in a text, or only the first one. -/
def replace (regex : Regex) (template : Template) (once : Bool) (s : Text) : Text :=
  replaceFrom regex template once (2 * s.length + 2) false [] 0 s

end Regex

end CommandShell

import CommandShell.Failure
import CommandShell.Number.Integer
import CommandShell.Pattern.Regex

/-!
# Reading regular expressions

The notation of regular expressions: sets, repetition, groups with and without names, looking
around, conditions, and flags for the whole expression or for a part of it.
-/

namespace CommandShell

namespace Regex

/-- Why an expression was refused: it makes no sense, or nothing handles what is wrong. -/
inductive Problem where
  | invalid
  | crash (cause : Crash)

structure Flags where
  ignoreCase : Bool := false
  multiline : Bool := false
  dotAll : Bool := false
  verbose : Bool := false
  ascii : Bool := false
  unicode : Bool := false
  /-- forbids repetition -/
  template : Bool := false
deriving DecidableEq, Repr

namespace Flags

def none : Flags := {}

/-- The flag with a letter; the letter for the locale is known but never allowed. -/
def ofLetter? (c : Char) : Option Flags :=
  if c = 'i' then some { ignoreCase := true }
  else if c = 'm' then some { multiline := true }
  else if c = 's' then some { dotAll := true }
  else if c = 'x' then some { verbose := true }
  else if c = 'a' then some { ascii := true }
  else if c = 'u' then some { unicode := true }
  else if c = 't' then some { template := true }
  else if c = 'L' then some {}
  else .none

def union (f g : Flags) : Flags where
  ignoreCase := f.ignoreCase || g.ignoreCase
  multiline := f.multiline || g.multiline
  dotAll := f.dotAll || g.dotAll
  verbose := f.verbose || g.verbose
  ascii := f.ascii || g.ascii
  unicode := f.unicode || g.unicode
  template := f.template || g.template

def meets (f g : Flags) : Bool :=
  (f.ignoreCase && g.ignoreCase) || (f.multiline && g.multiline) || (f.dotAll && g.dotAll) ||
    (f.verbose && g.verbose) || (f.ascii && g.ascii) || (f.unicode && g.unicode) ||
    (f.template && g.template)

/-- Flags with some turned on and others off. The last character set turned on holds. -/
def adjust (f on off : Flags) : Flags where
  ignoreCase := (f.ignoreCase || on.ignoreCase) && !off.ignoreCase
  multiline := (f.multiline || on.multiline) && !off.multiline
  dotAll := (f.dotAll || on.dotAll) && !off.dotAll
  verbose := (f.verbose || on.verbose) && !off.verbose
  ascii := if on.unicode then false else f.ascii || on.ascii
  unicode := f.unicode
  template := f.template

def rule (f : Flags) : CaseRule :=
  if f.ignoreCase then if f.ascii then .ascii else .full else .exact

end Flags

/-- How wide the texts are that an expression matches. -/
structure Width where
  least : Nat
  most : Nat
deriving DecidableEq, Repr

/-- A width that counts as unbounded. -/
def maxWidth : Nat := 18446744073709551616

/-- How often a part can be repeated at all. -/
def maxRepeat : Nat := 4294967295

/-- The width of an expression, given those of the groups it may refer to. -/
def width (groups : List (Option Width)) : Regex → Width
  | .empty | .anchor _ | .look _ _ _ => ⟨0, 0⟩
  | .one _ => ⟨1, 1⟩
  | .seq first second =>
    let a := width groups first
    let b := width groups second
    ⟨min (a.least + b.least) maxWidth, min (a.most + b.most) maxWidth⟩
  | .alt first second =>
    let a := width groups first
    let b := width groups second
    ⟨min a.least b.least, max a.most b.most⟩
  | .rep _ least most body =>
    let a := width groups body
    ⟨min (a.least * least) maxWidth,
      match most with
      | some most => min (a.most * most) maxWidth
      | none => if a.most = 0 then 0 else maxWidth⟩
  | .group _ body | .atomic body => width groups body
  | .again index _ => ((groups[index]?).bind id).getD ⟨0, 0⟩
  | .cond _ yes no =>
    let a := width groups yes
    let b := width groups no
    ⟨min a.least b.least, max a.most b.most⟩

/-- What is known while an expression is read. -/
structure Reading where
  rest : Text
  /-- the groups so far, with their widths once they are closed; the first is the whole -/
  groups : List (Option Width)
  names : List (Text × Nat)
  /-- inside a look behind, how many groups there were before it -/
  behind : Option Nat
  /-- groups that must turn up somewhere -/
  wanted : List Nat
  flags : Flags
  hasRepeats : Bool
  hasWideBehind : Bool

abbrev Reader := StateT Reading (Except Problem)

namespace Reader

def bad : Reader α := throw .invalid

/-- A character of the notation, or one with a backslash before it. -/
inductive Sign where
  | plain (c : Char)
  | escaped (c : Char)
deriving DecidableEq, Repr

def Sign.text : Sign → Text
  | plain c => [c]
  | escaped c => ['\\', c]

def peek : Reader (Option Sign) := do
  match (← get).rest with
  | [] => return none
  | ['\\'] => bad
  | '\\' :: c :: _ => return some (.escaped c)
  | c :: _ => return some (.plain c)

/-- Goes on reading at a text; a single backslash at the end is refused as soon as it is seen. -/
def goTo (rest : Text) : Reader Unit := do
  if rest = ['\\'] then bad
  modify fun reading => { reading with rest }

def skip : Reader Unit := do
  match (← get).rest with
  | '\\' :: _ :: rest => goTo rest
  | _ :: rest => goTo rest
  | [] => return

def take : Reader (Option Sign) := do
  let sign ← peek
  skip
  return sign

def takeSome : Reader Sign := do
  match ← take with
  | some sign => return sign
  | none => bad

def accept (c : Char) : Reader Bool := do
  if (← peek) = some (.plain c) then skip; return true
  else return false

def expect (c : Char) : Reader Unit := do if !(← accept c) then bad

/-- Takes characters of a kind, up to some number of them. -/
def takeRun (kind : Char → Bool) : Nat → Reader Text
  | 0 => return []
  | count + 1 => do
    match ← peek with
    | some (.plain c) => if kind c then skip; return c :: (← takeRun kind count) else return []
    | _ => return []

/-- Splits a text at the first plain occurrence of a character. -/
def splitUntil (stop : Char) (seen : Text) : Text → Option (Text × Text)
  | '\\' :: c :: rest => splitUntil stop (c :: '\\' :: seen) rest
  | c :: rest => if c = stop then some (seen.reverse, rest) else splitUntil stop (c :: seen) rest
  | [] => none

/-- Takes what comes before a character, which must be something, and moves past both. -/
def takeUntil (stop : Char) : Reader Text := do
  match splitUntil stop [] (← get).rest with
  | some (name, rest) => if name.isEmpty then bad else goTo rest; return name
  | none => bad

def isHex (c : Char) : Bool := c.isDigit || ('a' ≤ c && c ≤ 'f') || ('A' ≤ c && c ≤ 'F')

def isOctal (c : Char) : Bool := '0' ≤ c && c ≤ '7'

def valueIn (base : Nat) (digits : Text) : Nat :=
  digits.foldl (fun n c => base * n + digit c) 0
where
  digit (c : Char) : Nat :=
    if c.isDigit then c.toNat - 48 else if 'a' ≤ c then c.toNat - 87 else c.toNat - 55

/-- A character by its number in exactly so many hexadecimal digits. -/
def hexCode (count : Nat) : Reader Nat := do
  let digits ← takeRun isHex count
  let code := valueIn 16 digits
  if digits.length ≠ count ∨ code > 0x10ffff then bad
  return code

/-- Characters that are written with a letter, a bell and breaks of all kinds. -/
def control? (c : Char) : Option Nat :=
  if c = 'a' then some 7
  else if c = 'f' then some 12
  else if c = 'n' then some 10
  else if c = 'r' then some 13
  else if c = 't' then some 9
  else if c = 'v' then some 11
  else if c = '\\' then some 92
  else none

def class? (c : Char) : Option Item :=
  if c = 'd' then some (.cls .digit false)
  else if c = 'D' then some (.cls .digit true)
  else if c = 's' then some (.cls .space false)
  else if c = 'S' then some (.cls .space true)
  else if c = 'w' then some (.cls .word false)
  else if c = 'W' then some (.cls .word true)
  else none

/-- A character by its number in hexadecimal digits after a letter, or a character that is no
letter and stands for itself. -/
def codeAfter (c : Char) : Reader Nat :=
  if c = 'x' then hexCode 2
  else if c = 'u' then hexCode 4
  else if c = 'U' then hexCode 8
  else if c.isAlpha then bad
  else return c.toNat

def setEscape (c : Char) : Reader Item := do
  if c = 'b' then return .code 8
  else if let some code := control? c then return .code code
  else if let some item := class? c then return item
  else if isOctal c then
    let code := valueIn 8 (c :: (← takeRun isOctal 2))
    if code > 0xff then bad
    return .code code
  else if c.isDigit then bad
  else return .code (← codeAfter c)

def setItem : Sign → Reader Item
  | .escaped c => setEscape c
  | .plain c => return .code c.toNat

/-- The items of a set, up to its end. A bracket cannot close a set that is still empty. -/
def setItems : (fuel : Nat) → (items : List Item) → Reader (List Item)
  | 0, _ => bad
  | fuel + 1, items => do
    let sign ← takeSome
    if sign = .plain ']' ∧ items ≠ [] then return items.reverse
    let item ← setItem sign
    if !(← accept '-') then setItems fuel (item :: items)
    else
      let sign ← takeSome
      if sign = .plain ']' then return (.code 45 :: item :: items).reverse
      match item, ← setItem sign with
      | .code first, .code last =>
        if last < first then bad
        setItems fuel (.range first last :: items)
      | _, _ => bad

def set (flags : Flags) : Reader Regex := do
  let negated ← accept '^'
  let items ← setItems ((← get).rest.length + 1) []
  match items.eraseDups with
  | [.code code] => return .one (.code negated code flags.rule)
  | items => return .one (.set negated items flags.rule flags.ascii)

def isClosed (index : Nat) : Reader Bool := return (((← get).groups[index]?).bind id).isSome

/-- Refuses, inside a look behind, the groups that are open or were not there before it. -/
def checkBehind (index : Nat) : Reader Unit := do
  if let some limit := (← get).behind then
    if !(← isClosed index) || index ≥ limit then bad

def reference (flags : Flags) (index : Nat) : Reader Regex := do
  if !(← isClosed index) then bad
  checkBehind index
  return .again index flags.rule

/-- A number after a backslash: three octal digits are a character, and one or two digits are a
group. -/
def numberEscape (flags : Flags) (c : Char) : Reader Regex := do
  let more ← takeRun Char.isDigit 1
  if isOctal c && more.all isOctal && !more.isEmpty then
    if let [last] ← takeRun isOctal 1 then
      let code := valueIn 8 (c :: more ++ [last])
      if code > 0xff then bad
      return .one (.code false code flags.rule)
  reference flags (valueIn 10 (c :: more))

def anchor? (flags : Flags) (c : Char) : Option Anchor :=
  if c = 'A' then some .textStart
  else if c = 'Z' then some .textEnd
  else if c = 'b' then some (.boundary flags.ascii false)
  else if c = 'B' then some (.boundary flags.ascii true)
  else none

/-- What an expression's backslash and the character after it stand for. -/
def escape (flags : Flags) (c : Char) : Reader Regex := do
  if let some spot := anchor? flags c then return .anchor spot
  else if let some item := class? c then return .one (.set false [item] flags.rule flags.ascii)
  else if let some code := control? c then return .one (.code false code flags.rule)
  else if c = '0' then
    let code := valueIn 8 (← takeRun isOctal 2)
    return .one (.code false code flags.rule)
  else if c.isDigit then numberEscape flags c
  else return .one (.code false (← codeAfter c) flags.rule)

def repeatCount (digits : Text) : Reader Nat := do
  if digits.length > Number.maxDigits then throw (.crash .longNumber)
  let count := valueIn 10 digits
  if count ≥ maxRepeat then throw (.crash .hugeRepeat)
  return count

/-- The least and the most repetitions between braces; none if this is no repetition at all. -/
def braces : Reader (Option (Nat × Option Nat)) := do
  let start := (← get).rest
  if (← peek) = some (.plain '\x7d') then return none
  let low ← takeRun Char.isDigit start.length
  let high ← if ← accept ',' then takeRun Char.isDigit start.length else pure low
  if !(← accept '\x7d') then
    modify fun reading => { reading with rest := start }
    return none
  let least ← if low.isEmpty then pure 0 else repeatCount low
  if high.isEmpty then return some (least, none)
  let most ← repeatCount high
  if most < least then bad
  return some (least, some most)

/-- The repetitions that a sign asks for; none if it stands for itself. -/
def repeats (c : Char) : Reader (Option (Nat × Option Nat)) :=
  if c = '?' then return some (0, some 1)
  else if c = '*' then return some (0, none)
  else if c = '+' then return some (1, none)
  else braces

def mode : Reader Mode := do
  if ← accept '?' then return .reluctant
  else if ← accept '+' then return .possessive
  else return .greedy

/-- A part of an expression. Anchors and repetitions cannot be repeated. -/
structure Atom where
  regex : Regex
  repeatable : Bool

def plainAtom (regex : Regex) : Atom := ⟨regex, true⟩

def signAtom (flags : Flags) : Sign → Reader Atom
  | .escaped c => do
    match ← escape flags c with
    | .anchor spot => return ⟨.anchor spot, false⟩
    | regex => return plainAtom regex
  | .plain '[' => return plainAtom (← set flags)
  | .plain '.' => return plainAtom (.one (.any flags.dotAll))
  | .plain '^' => return ⟨.anchor (if flags.multiline then .lineStart else .textStart), false⟩
  | .plain '$' => return ⟨.anchor (if flags.multiline then .lineEnd else .lastLineEnd), false⟩
  | .plain c => return plainAtom (.one (.code false c.toNat flags.rule))

def repeatLast (least : Nat) (most : Option Nat) : List Atom → Reader (List Atom)
  | [] => bad
  | atom :: before => do
    if !atom.repeatable then bad
    let mode ← mode
    modify fun reading => { reading with hasRepeats := true }
    return ⟨.rep mode least most atom.regex, false⟩ :: before

/-- Parts, the last of which comes first, as one expression. -/
def sequence (atoms : List Atom) : Regex :=
  match atoms.reverse.map (·.regex) with
  | [] => .empty
  | first :: later => chain first later
where
  /-- Expressions one after the other. -/
  chain (first : Regex) : List Regex → Regex
    | [] => first
    | second :: later => .seq first (chain second later)

/-- What follows a comment that reaches to the end of its line. -/
def afterComment : Text → Text
  | '\\' :: _ :: rest => afterComment rest
  | '\n' :: rest => rest
  | ['\\'] => ['\\']
  | _ :: rest => afterComment rest
  | [] => []

/-- Whether a sign is white space that a verbose expression may have anywhere. -/
def isBlank : Sign → Bool
  | .plain c => c = ' ' || ('\t' ≤ c && c ≤ '\r')
  | .escaped _ => false

/-- The flag of a letter that is turned on; two character sets exclude each other. -/
def flagOn (c : Char) (on : Flags) : Reader Flags := do
  if c = 'L' then bad
  match Flags.ofLetter? c with
  | none => bad
  | some flag =>
    let all := on.union flag
    if all.ascii && all.unicode && (flag.ascii || flag.unicode) then bad
    return all

/-- The letters of the flags that are turned on, and the character after them. -/
def flagsOn : (fuel : Nat) → (c : Char) → (on : Flags) → Reader (Flags × Char)
  | 0, _, _ => bad
  | fuel + 1, c, on => do
    let on ← flagOn c on
    match ← takeSome with
    | .plain c => if c = ')' || c = '-' || c = ':' then return (on, c) else flagsOn fuel c on
    | .escaped _ => bad

/-- The letters of the flags that are turned off, up to a colon. -/
def flagsOff : (fuel : Nat) → (off : Flags) → Reader Flags
  | 0, _ => bad
  | fuel + 1, off => do
    match ← takeSome with
    | .escaped _ => bad
    | .plain c =>
      if c = ':' ∧ off ≠ Flags.none then return off
      if c = 'a' || c = 'u' || c = 'L' then bad
      match Flags.ofLetter? c with
      | none => bad
      | some flag => flagsOff fuel (off.union flag)

/-- The flags at the beginning of a group: those turned on and off in it. Without a colon they
hold for the whole expression, and there is no group. -/
def groupFlags (c : Char) : Reader (Option (Flags × Flags)) := do
  let fuel := (← get).rest.length + 1
  let (on, stop) ← if c = '-' then pure (Flags.none, c) else flagsOn fuel c .none
  if stop = ')' then
    modify fun reading => { reading with flags := reading.flags.union on }
    return none
  if on.template then bad
  let off ← if stop = '-' then flagsOff fuel .none else pure Flags.none
  if off.template || on.meets off then bad
  return some (on, off)

def openGroup (name : Option Text) : Reader Nat := do
  let index := (← get).groups.length
  if let some name := name then
    if (← get).names.any (·.1 = name) then bad
    modify fun reading => { reading with names := reading.names ++ [(name, index)] }
  modify fun reading => { reading with groups := reading.groups ++ [none] }
  return index

def closeGroup (index : Nat) (body : Regex) : Reader Unit :=
  modify fun reading =>
    { reading with groups := reading.groups.set index (some (body.width reading.groups)) }

def groupName (stop : Char) : Reader Text := do
  let name ← takeUntil stop
  if Text.isName name then return name else bad

def lookUp (name : Text) : Reader Nat := do
  match (← get).names.find? (·.1 = name) with
  | some (_, index) => return index
  | none => bad

/-- The group of a condition, by name or by number; a number may be that of a later group. -/
def conditionGroup : Reader Nat := do
  let name ← takeUntil ')'
  let index ←
    if Text.isName name then lookUp name
    else match Int.ofText? name with
      | some (.ofNat (index + 1)) =>
        modify fun reading => { reading with wanted := (index + 1) :: reading.wanted }
        pure (index + 1)
      | _ => bad
  checkBehind index
  return index

/-- Notes the width of the body of a look behind, which must be fixed. -/
def widthBehind (body : Regex) : Reader Nat := do
  let width := body.width (← get).groups
  if width.least ≠ width.most ∨ width.least ≥ 4294967296 then
    modify fun reading => { reading with hasWideBehind := true }
  return width.least

/-- What the beginning of a group says about it. -/
inductive Opening where
  | capture (name : Option Text)
  | plain (on off : Flags)
  | atomic
  | look (behind negated : Bool)
  | condition (index : Nat)
  /-- this is no group, but a part of its own or nothing at all -/
  | part (regex : Option Regex)
  /-- flags for the whole expression -/
  | flags

def opening (flags : Flags) : Reader Opening := do
  if !(← accept '?') then return .capture none
  match ← takeSome with
  | .escaped _ => bad
  | .plain 'P' =>
    if ← accept '<' then return .capture (some (← groupName '>'))
    else if ← accept '=' then
      return .part (some (← reference flags (← lookUp (← groupName ')'))))
    else bad
  | .plain ':' => return .plain .none .none
  | .plain '#' =>
    match splitUntil ')' [] (← get).rest with
    | some (_, rest) => goTo rest; return .part none
    | none => bad
  | .plain '=' => return .look false false
  | .plain '!' => return .look false true
  | .plain '<' =>
    match ← takeSome with
    | .plain '=' => return .look true false
    | .plain '!' => return .look true true
    | _ => bad
  | .plain '(' => return .condition (← conditionGroup)
  | .plain '>' => return .atomic
  | .plain c =>
    if c = '-' || (Flags.ofLetter? c).isSome then
      match ← groupFlags c with
      | some (on, off) => return .plain on off
      | none => return .flags
    else bad

mutual

/-- Reads alternatives. Only the first one of the whole expression may set its flags. -/
def alternatives : (fuel : Nat) → (flags : Flags) → (top first : Bool) → Reader Regex
  | 0, _, _, _ => bad
  | fuel + 1, flags, top, first => do
    let one ← parts fuel flags first []
    if ← accept '|' then
      let reading ← get
      return .alt one (← alternatives fuel (if top then reading.flags else flags) top false)
    else return one

def parts : (fuel : Nat) → (flags : Flags) → (first : Bool) → List Atom → Reader Regex
  | 0, _, _, _ => bad
  | fuel + 1, flags, first, atoms => do
    match ← peek with
    | none | some (.plain '|') | some (.plain ')') => return sequence atoms
    | some sign =>
      skip
      if flags.verbose && isBlank sign then parts fuel flags first atoms
      else if flags.verbose && sign = .plain '#' then
        goTo (afterComment (← get).rest)
        parts fuel flags first atoms
      else if sign = .plain '(' then
        match ← opening flags with
        | .flags =>
          if !first || !atoms.isEmpty then bad
          parts fuel (← get).flags first atoms
        | .part regex => parts fuel flags first ((regex.map plainAtom).toList ++ atoms)
        | opening =>
          let regex ← group fuel flags opening
          parts fuel flags first (plainAtom regex :: atoms)
      else match sign with
        | .plain c =>
          if c = '*' || c = '+' || c = '?' || c = '\x7b' then
            match ← repeats c with
            | some (least, most) =>
              parts fuel flags first (← repeatLast least most atoms)
            | none =>
              parts fuel flags first
                (plainAtom (.one (.code false c.toNat flags.rule)) :: atoms)
          else parts fuel flags first ((← signAtom flags sign) :: atoms)
        | .escaped _ => parts fuel flags first ((← signAtom flags sign) :: atoms)

def group : (fuel : Nat) → (flags : Flags) → Opening → Reader Regex
  | 0, _, _ => bad
  | fuel + 1, flags, .capture name => do
    let index ← openGroup name
    let body ← alternatives fuel flags false false
    expect ')'
    closeGroup index body
    return .group index body
  | fuel + 1, flags, .plain on off => do
    let body ← alternatives fuel (flags.adjust on off) false false
    expect ')'
    return body
  | fuel + 1, flags, .atomic => do
    let body ← alternatives fuel flags false false
    expect ')'
    return .atomic body
  | fuel + 1, flags, .look false negated => do
    let body ← alternatives fuel flags false false
    expect ')'
    return .look none negated body
  | fuel + 1, flags, .look true negated => do
    let outer := (← get).behind
    if outer.isNone then
      modify fun reading => { reading with behind := some reading.groups.length }
    let body ← alternatives fuel flags false false
    modify fun reading => { reading with behind := outer }
    expect ')'
    return .look (some (← widthBehind body)) negated body
  | fuel + 1, flags, .condition index => do
    let yes ← parts fuel flags false []
    let no ← if ← accept '|' then parts fuel flags false [] else pure .empty
    expect ')'
    return .cond index yes no
  | _, _, .part _ | _, _, .flags => bad

end

end Reader

def Reading.start (s : Text) : Reading where
  rest := s
  groups := [none]
  names := []
  behind := none
  wanted := []
  flags := .none
  hasRepeats := false
  hasWideBehind := false

def Reading.isSound (reading : Reading) : Bool :=
  reading.rest.isEmpty && reading.wanted.all (· < reading.groups.length) &&
    !(reading.flags.template && reading.hasRepeats) && !reading.hasWideBehind

end Regex

def Pattern.ofText (s : Text) : Except Regex.Problem Pattern := do
  if s = ['\\'] then throw .invalid
  let (regex, reading) ←
    (Regex.Reader.alternatives (3 * s.length + 6) .none true true).run (.start s)
  if reading.flags.ascii && reading.flags.unicode then throw (.crash .mixedCharacterSets)
  if !reading.isSound then throw .invalid
  return { regex, groups := reading.groups.length - 1, names := reading.names }

end CommandShell

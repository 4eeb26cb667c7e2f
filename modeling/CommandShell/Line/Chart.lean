import CommandShell.Line.Phrases

/-!
# Charts

The line grammar is ambiguous. Among all ways to read a line the shell takes the one that
chooses, at every decision from left to right, the first alternative with which the rest of the
line can still be read.

A chart has a row for every place of the token list. A row lists, for each kind of phrase, the
readings of that phrase from there on, in order of preference. What can follow a reading depends
only on where it ends, so of the readings that end at one place only the first is kept. Rows are
numbered by how many tokens are left, which lets a chart grow from the end of the line.
-/

namespace CommandShell.Line

/-- Readings of a phrase in order of preference, each with the number of tokens left after it. -/
abbrev Readings (α : Type) := List (α × Nat)

namespace Readings

variable {α β : Type}

/-- Keeps the first of all readings that end at the same place. -/
def distinct (readings : Readings α) : Readings α :=
  readings.foldr (fun reading kept => reading :: kept.filter (·.2 ≠ reading.2)) []

def as (f : α → β) (readings : Readings α) : Readings β :=
  readings.map fun (a, left) => (f a, left)

def andThen (readings : Readings α) (next : α → Nat → Readings β) : Readings β :=
  readings.flatMap fun (a, left) => next a left

end Readings

/-- How tightly a word holds what follows it. A loose word takes strings, voids and
substitutions at its end, a firm one no substitutions, a tight one strings only. -/
inductive Grip where
  | loose
  | firm
  | tight
deriving DecidableEq, Repr

/-- Something that a word can take at its end. -/
inductive Suffix where
  | string (last : Quoted)
  | void (gap : Option Text)
  | substitution (inner : Substitution)

def Word.append (front : Word) : Suffix → Word
  | .string last => .stringAfter front last
  | .void gap => .voidAfter front gap
  | .substitution inner => .substitutionAfter front inner

/-- A joint with what follows it: the blanks around the separator and the right-hand side. -/
structure Joint (α : Type) where
  before : Option Text
  after : Option Text
  right : α

structure Row where
  /-- the token at this place, unless the line ends here -/
  token? : Option Token
  /-- bodies of quoted strings up to and including the closing quote -/
  body : Quote → Readings Body
  quoted : Readings Quoted
  strings : Readings Strings
  substitution : Readings Substitution
  /-- pairs of backquotes around at most a blank -/
  void : Readings (Option Text)
  suffixes : Grip → Readings (List Suffix)
  word : Grip → Readings Word
  redirect : Readings Redirect
  /-- blanks and then a redirect -/
  spacedRedirect : Readings (List Text × Redirect)
  modifier : Readings Modifier
  ending : Readings Ending
  /-- the rest of an opening that already has a redirect, and the name -/
  opened : Readings (Opening × Word)
  command : Readings Command
  barCommand : Readings (Joint Command)
  bars : Readings (List (Joint Command))
  pipe : Readings Pipe
  semicolonCommand : Readings (Joint Command)
  semicolonPipe : Readings (Joint Pipe)
  semicolons : Readings (List (Joint Command))
  sequence : Readings Sequence
  commandLine : Readings CommandLine
  /-- the blanks up to the end of the line, if nothing else is left -/
  blanks? : Option (List Text)

/-- The row at the end of the line: only what may be empty can be read there. -/
def Row.atEnd : Row where
  token? := none
  body _ := []
  quoted := []
  strings := []
  substitution := []
  void := []
  suffixes _ := [([], 0)]
  word _ := []
  redirect := []
  spacedRedirect := []
  modifier := []
  ending := [(.done, 0)]
  opened := []
  command := []
  barCommand := []
  bars := [([], 0)]
  pipe := []
  semicolonCommand := []
  semicolonPipe := []
  semicolons := [([], 0)]
  sequence := []
  commandLine := []
  blanks? := some []

/-- The rows of a chart; row `k` is for the place where `k` tokens are left. -/
abbrev Chart := Array Row

namespace Chart

def row (chart : Chart) (left : Nat) : Row := chart[left]?.getD Row.atEnd

def holds (chart : Chart) (left : Nat) (token : Token) : Bool :=
  (chart.row left).token? = some token

/-- A blank that may be missing, taken whenever it is there. -/
def gap (chart : Chart) (left : Nat) : Option Text × Nat :=
  match (chart.row left).token? with
  | some (.space t) => (some t, left - 1)
  | _ => (none, left)

/-- A blank that may be missing, or left for what follows. -/
def gaps (chart : Chart) (left : Nat) : Readings (Option Text) :=
  match (chart.row left).token? with
  | some (.space t) => [(some t, left - 1), (none, left)]
  | _ => [(none, left)]

def expect (chart : Chart) (token : Token) (left : Nat) : Readings Unit :=
  if chart.holds left token then [((), left - 1)] else []

def gapThen (chart : Chart) (token : Token) (left : Nat) : Readings (Option Text) :=
  let (before, left) := chart.gap left
  (chart.expect token left).as fun _ => before

/-- A separator with its blanks and what follows it. -/
def joint {α : Type} (chart : Chart) (separator : Token) (right : Row → Readings α) (left : Nat) :
    Readings (Joint α) :=
  (chart.gapThen separator left).andThen fun before left =>
    (chart.gaps left).andThen fun after left =>
      (right (chart.row left)).as fun right => ⟨before, after, right⟩

end Chart

def Literal.ofToken? : Token → Option Literal
  | .chars t => some (.chars t)
  | .dash => some .dash
  | .less => some .less
  | .greater => some .greater
  | .semicolon => some .semicolon
  | .bar => some .bar
  | _ => none

def Direction.ofToken? : Token → Option Direction
  | .less => some .input
  | .greater => some .output
  | _ => none

def Quote.ofToken? : Token → Option Quote
  | .doubleQuote => some .double
  | .singleQuote => some .single
  | _ => none

section Rows

variable (chart : Chart) (token : Token) (left : Nat)

/-! Each of the following reads one kind of phrase that begins with `token`, after which `left`
tokens are left; `chart` holds the rows of the later places. The alternatives of a rule appear
in order of preference. -/

/-- A substitution: a blank goes to the backquote before it rather than to the command line. -/
def readSubstitution : Readings Substitution :=
  if token = .backquote then
    (chart.gaps left).andThen fun before left =>
      ((chart.row left).commandLine.andThen fun line left =>
        (chart.gapThen .backquote left).as fun after => .run before line after)
      ++ (chart.gapThen .backquote left).as fun after => .void before after
  else []

def readVoid : Readings (Option Text) :=
  if token = .backquote then chart.gapThen .backquote left else []

def readBody (substitution : Readings Substitution) (quote : Quote) : Readings Body :=
  if token = quote.token then [(.done, left)]
  else if token = quote.other.token then ((chart.row left).body quote).as .mark
  else if token = .backquote then
    substitution.andThen fun inner left =>
      ((chart.row left).body quote).as (.substitution inner)
  else match token, Literal.ofToken? token with
    | .space t, _ => ((chart.row left).body quote).as (.space t)
    | _, some literal => ((chart.row left).body quote).as (.literal literal)
    | _, none => []

def readQuoted : Readings Quoted :=
  match Quote.ofToken? token with
  | some quote => ((chart.row left).body quote).as (.mk quote)
  | none => []

/-- A run of quoted strings, as long as possible. -/
def readStrings (quoted : Readings Quoted) : Readings Strings :=
  quoted.andThen fun first left =>
    ((chart.row left).strings.as (.more first)) ++ [(.one first, left)]

def readPrimary (substitution : Readings Substitution) (void : Readings (Option Text))
    (quoted : Readings Quoted) (strings : Readings Strings) : Readings Word :=
  match token with
  | .chars t => (.chars t, left) :: ((chart.row left).word .loose).as (.charsBefore t)
  | .dash => (.dash, left) :: ((chart.row left).word .loose).as .dashBefore
  | _ =>
    (void.andThen fun gap left => ((chart.row left).word .tight).as (.voidBefore gap))
    ++ (substitution.andThen fun inner left =>
      ((chart.row left).word .firm).as (.substitutionBefore inner))
    ++ substitution.as .substitution
    ++ strings.as .strings
    ++ quoted.andThen fun first left => ((chart.row left).word .loose).as (.stringBefore first)

/-- The suffixes of a word, as many as possible. -/
def readSuffixes (substitution : Readings Substitution) (void : Readings (Option Text))
    (quoted : Readings Quoted) (grip : Grip) : Readings (List Suffix) :=
  let further (suffix : Suffix) (left : Nat) : Readings (List Suffix) :=
    ((chart.row left).suffixes grip).as (suffix :: ·)
  (quoted.andThen fun last left => further (.string last) left)
  ++ (if grip ≠ .tight then void.andThen fun gap left => further (.void gap) left else [])
  ++ (if grip = .loose then
      substitution.andThen fun inner left => further (.substitution inner) left else [])
  ++ [([], left + 1)]

def readWord (primary : Readings Word) (grip : Grip) : Readings Word :=
  primary.andThen fun front left =>
    ((chart.row left).suffixes grip).as fun suffixes => suffixes.foldl Word.append front

def readRedirect : Readings Redirect :=
  match Direction.ofToken? token with
  | some direction =>
    let (gap, left) := chart.gap left
    ((chart.row left).word .loose).as (.mk direction gap)
  | none => []

def readSpacedRedirect (redirect : Readings Redirect) : Readings (List Text × Redirect) :=
  match token with
  | .space t => (chart.row left).spacedRedirect.as fun (spaces, redirect) => (t :: spaces, redirect)
  | _ => redirect.as fun redirect => ([], redirect)

def readModifier (word : Readings Word) : Readings Modifier :=
  (if token = .dash then ((chart.row left).word .loose).as .flag else []) ++ word.as .arg

def readEnding (spaced : Readings (List Text × Redirect)) : Readings Ending :=
  (spaced.andThen fun (spaces, redirect) left =>
    (chart.row left).ending.as (.redirect spaces redirect))
  ++ (match token with
    | .space t =>
      (chart.row left).modifier.andThen fun modifier left =>
        (chart.row left).ending.as (.modifier t modifier)
    | _ => [])
  ++ [(.done, left + 1)]

def readOpened (redirect : Readings Redirect) (word : Readings Word) :
    Readings (Opening × Word) :=
  match token, Direction.ofToken? token with
  | .space t, _ => (chart.row left).opened.as fun (opening, name) => (.space t opening, name)
  | _, some _ =>
    redirect.andThen fun first left =>
      (chart.row left).opened.as fun (opening, name) => (.redirect first opening, name)
  | _, none => word.as fun name => (.done, name)

def Opening.ofSpaces (spaces : List Text) (rest : Opening) : Opening :=
  spaces.foldr .space rest

/-- The opening and the name of a command; blanks can come first only before a redirect. -/
def readOpening (spaced : Readings (List Text × Redirect)) (word : Readings Word) :
    Readings (Opening × Word) :=
  (spaced.andThen fun (spaces, first) left =>
    (chart.row left).opened.as fun (opening, name) =>
      (.ofSpaces spaces (.redirect first opening), name))
  ++ word.as fun name => (.done, name)

def readCommand (opening : Readings (Opening × Word)) : Readings Command :=
  opening.andThen fun (opening, name) left =>
    (chart.row left).ending.as (.mk opening name)

end Rows

def Pipe.extend (front : Pipe) (joints : List (Joint Command)) : Pipe :=
  joints.foldl (fun left joint => .more left joint.before joint.after joint.right) front

def Sequence.extend (front : Sequence) (joints : List (Joint Command)) : Sequence :=
  joints.foldl (fun left joint => .more left joint.before joint.after joint.right) front

def readPipe (chart : Chart) (command : Readings Command) : Readings Pipe :=
  command.andThen fun first left =>
    (chart.row left).barCommand.andThen fun joint left =>
      (chart.row left).bars.as
        (Pipe.extend (.pair first joint.before joint.after joint.right))

def readSequence (chart : Chart) (command : Readings Command) (pipe : Readings Pipe) :
    Readings Sequence :=
  let further (front : Sequence) (left : Nat) : Readings Sequence :=
    (chart.row left).semicolons.as front.extend
  (command.andThen fun first left =>
    (chart.row left).semicolonCommand.andThen fun joint left =>
      further (.commands first joint.before joint.after joint.right) left)
  ++ (pipe.andThen fun first left =>
    (chart.row left).semicolonCommand.andThen fun joint left =>
      further (.pipeCommand first joint.before joint.after joint.right) left)
  ++ (pipe.andThen fun first left =>
    (chart.row left).semicolonPipe.andThen fun joint left =>
      further (.pipes first joint.before joint.after joint.right) left)
  ++ (command.andThen fun first left =>
    (chart.row left).semicolonPipe.andThen fun joint left =>
      further (.commandPipe first joint.before joint.after joint.right) left)

/-- Joints and the joints after them, as many as possible; `left` tokens are left before them. -/
def readJoints (chart : Chart) (joint : Readings (Joint Command))
    (more : Row → Readings (List (Joint Command))) (left : Nat) : Readings (List (Joint Command)) :=
  (joint.andThen fun first left => (more (chart.row left)).as (first :: ·)) ++ [([], left)]

def readCommandLine (command : Readings Command) (pipe : Readings Pipe)
    (sequence : Readings Sequence) : Readings CommandLine :=
  command.as .command ++ pipe.as .pipe ++ sequence.as .sequence

/-- A row from the token at its place and the rows of the later places. -/
def Row.ofToken (chart : Chart) (token : Token) : Row :=
  let left := chart.size - 1
  let substitution := (readSubstitution chart token left).distinct
  let void := readVoid chart token left
  let quoted := (readQuoted chart token left).distinct
  let strings := (readStrings chart quoted).distinct
  let primary := (readPrimary chart token left substitution void quoted strings).distinct
  let looseWord := (readWord chart primary .loose).distinct
  let firmWord := (readWord chart primary .firm).distinct
  let tightWord := (readWord chart primary .tight).distinct
  let looseSuffixes := (readSuffixes chart left substitution void quoted .loose).distinct
  let firmSuffixes := (readSuffixes chart left substitution void quoted .firm).distinct
  let tightSuffixes := (readSuffixes chart left substitution void quoted .tight).distinct
  let doubleBody := (readBody chart token left substitution .double).distinct
  let singleBody := (readBody chart token left substitution .single).distinct
  let redirect := (readRedirect chart token left).distinct
  let spacedRedirect := (readSpacedRedirect chart token left redirect).distinct
  let modifier := (readModifier chart token left looseWord).distinct
  let ending := (readEnding chart token left spacedRedirect).distinct
  let opened := (readOpened chart token left redirect looseWord).distinct
  let opening := (readOpening chart spacedRedirect looseWord).distinct
  let command := (readCommand chart opening).distinct
  let here : Chart := chart.push { Row.atEnd with token? := some token, command }
  let barCommand := (here.joint .bar (·.command) (left + 1)).distinct
  let bars := (readJoints chart barCommand (·.bars) (left + 1)).distinct
  let pipe := (readPipe chart command).distinct
  let semicolonCommand := (here.joint .semicolon (·.command) (left + 1)).distinct
  let semicolonPipe := (here.joint .semicolon (·.pipe) (left + 1)).distinct
  let semicolons := (readJoints chart semicolonCommand (·.semicolons) (left + 1)).distinct
  let sequence := (readSequence chart command pipe).distinct
  { token? := some token
    body := fun
      | .double => doubleBody
      | .single => singleBody
    quoted, strings, substitution, void
    suffixes := fun
      | .loose => looseSuffixes
      | .firm => firmSuffixes
      | .tight => tightSuffixes
    word := fun
      | .loose => looseWord
      | .firm => firmWord
      | .tight => tightWord
    redirect, spacedRedirect, modifier, ending, opened, command, barCommand, bars, pipe
    semicolonCommand, semicolonPipe, semicolons, sequence
    commandLine := (readCommandLine command pipe sequence).distinct
    blanks? := match token with
      | .space t => (chart.row left).blanks?.map (t :: ·)
      | _ => none }

def Chart.ofTokens (tokens : List Token) : Chart :=
  tokens.foldr (fun token chart => chart.push (Row.ofToken chart token)) #[Row.atEnd]

/-- Reads a whole line: a command line if there is one with which only blanks are left, else
only blanks. -/
def Script.ofTokens? (tokens : List Token) : Option Script :=
  let chart := Chart.ofTokens tokens
  let whole := chart.row tokens.length
  let lines : List Script := whole.commandLine.filterMap fun (line, left) =>
    (chart.row left).blanks?.map fun trailing => ⟨some line, trailing⟩
  match lines with
  | script :: _ => some script
  | [] => whole.blanks?.map fun trailing => ⟨none, trailing⟩

def Script.ofLine? (line : Text) : Option Script := Script.ofTokens? (Token.ofLine line)

end CommandShell.Line

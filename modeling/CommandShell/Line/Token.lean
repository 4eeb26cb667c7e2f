import CommandShell.Text

/-!
# Tokens of a command line

A line is cut greedily into tokens. Eight characters are tokens of their own; blanks make
`space` tokens; everything else makes `chars` tokens, in which a quote may stand when a
backslash comes right before it. Line breaks separate tokens and leave no trace.
-/

namespace CommandShell

/-- One token of a command line. -/
inductive Token where
  | space (text : Text)
  | chars (text : Text)
  | bar
  | semicolon
  | dash
  | less
  | greater
  | backquote
  | doubleQuote
  | singleQuote
deriving DecidableEq, Repr

/-- A token together with the index of its first character in the line. -/
structure Lexeme where
  token : Token
  start : Nat
deriving DecidableEq, Repr

namespace Token

def text : Token → Text
  | space t => t
  | chars t => t
  | bar => ['|']
  | semicolon => [';']
  | dash => ['-']
  | less => ['<']
  | greater => ['>']
  | backquote => ['\x60']
  | doubleQuote => ['"']
  | singleQuote => ['\'']

/-- The characters that are always a token of their own. -/
def ofSpecial? (c : Char) : Option Token :=
  if c = '|' then some bar
  else if c = ';' then some semicolon
  else if c = '-' then some dash
  else if c = '<' then some less
  else if c = '>' then some greater
  else if c = '\x60' then some backquote
  else if c = '"' then some doubleQuote
  else if c = '\'' then some singleQuote
  else none

/-- Blanks make up `space` tokens. -/
def isBlank (c : Char) : Bool := c = ' ' || c = '\t'

/-- Line breaks are skipped between tokens. -/
def isLineBreak (c : Char) : Bool := c = '\r' || c = '\n'

/-- Characters that a `chars` token can hold without a backslash in front. -/
def isPlain (c : Char) : Bool :=
  c ≠ ' ' && !isLineBreak c && (ofSpecial? c).isNone

/-- Length of the longest `chars` token at the beginning of a text. -/
def charsLength : Text → Nat
  | [] => 0
  | '\\' :: '"' :: rest => charsLength rest + 2
  | '\\' :: '\'' :: rest => charsLength rest + 2
  | c :: rest => if isPlain c then charsLength rest + 1 else 0

/-- Length of the longest `space` token at the beginning of a text. -/
def spaceLength (s : Text) : Nat := (s.takeWhile isBlank).length

/-- What stands at the beginning of `c :: rest`: how many characters it takes and the token
they make, or no token for a run of line breaks. A tab can begin either kind of run: the
longer run wins, and blanks win a tie. -/
def munch (c : Char) (rest : Text) : Nat × Option Token :=
  if isLineBreak c then ((c :: rest).takeWhile isLineBreak |>.length, none)
  else match ofSpecial? c with
    | some token => (1, some token)
    | none =>
      let blanks := spaceLength (c :: rest)
      let plain := charsLength (c :: rest)
      if plain ≤ blanks then (blanks, some (space ((c :: rest).take blanks)))
      else (plain, some (chars ((c :: rest).take plain)))

/-- The lexemes of a text whose first character has index `start`. -/
def scanFrom (start : Nat) : Text → List Lexeme
  | [] => []
  | c :: rest =>
    let (size, token?) := munch c rest
    let later := scanFrom (start + size) (rest.drop (size - 1))
    match token? with
    | some token => ⟨token, start⟩ :: later
    | none => later
termination_by s => s.length
decreasing_by simp only [List.length_cons, List.length_drop]; omega

def scan (line : Text) : List Lexeme := scanFrom 0 line

def ofLine (line : Text) : List Token := (scan line).map (·.token)

end Token

end CommandShell

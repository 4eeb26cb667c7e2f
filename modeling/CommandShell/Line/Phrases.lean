import CommandShell.Line.Tree

/-!
# Phrases of a command line

One type for every kind of phrase of the line grammar. A value says how its tokens were
grouped, so the concrete tree and the tokens can be read off it; the blanks that the grammar
allows between two parts are kept as `Option Text`.
-/

namespace CommandShell.Line

/-- A token that may stand literally between quotes. -/
inductive Literal where
  | chars (text : Text)
  | dash
  | less
  | greater
  | semicolon
  | bar
deriving DecidableEq, Repr

inductive Direction where
  | input
  | output
deriving DecidableEq, Repr

/-- The two kinds of quotes. -/
inductive Quote where
  | double
  | single
deriving DecidableEq, Repr

mutual

/-- A word: a name, a flag, an argument or the target of a redirect. The grammar can group the
same atoms in many ways; the constructors are its alternatives. A pair of backquotes with
nothing but a blank between them is called a void. -/
inductive Word where
  | chars (text : Text)
  | dash
  | voidBefore (gap : Option Text) (rest : Word)
  | substitutionBefore (inner : Substitution) (rest : Word)
  | substitution (inner : Substitution)
  | strings (run : Strings)
  | stringBefore (first : Quoted) (rest : Word)
  | charsBefore (text : Text) (rest : Word)
  | dashBefore (rest : Word)
  | stringAfter (front : Word) (last : Quoted)
  | voidAfter (front : Word) (gap : Option Text)
  | substitutionAfter (front : Word) (inner : Substitution)

/-- One or more quoted strings in a row. -/
inductive Strings where
  | one (first : Quoted)
  | more (first : Quoted) (rest : Strings)

inductive Quoted where
  | mk (quote : Quote) (body : Body)

/-- What stands between two quotes; `mark` is a quote of the other kind. -/
inductive Body where
  | done
  | mark (rest : Body)
  | literal (token : Literal) (rest : Body)
  | space (text : Text) (rest : Body)
  | substitution (inner : Substitution) (rest : Body)

/-- A command line between backquotes, or nothing between them. -/
inductive Substitution where
  | void (before after : Option Text)
  | run (before : Option Text) (line : CommandLine) (after : Option Text)

/-- A redirect of one stream to a file. -/
inductive Redirect where
  | mk (direction : Direction) (gap : Option Text) (target : Word)

/-- What precedes the name of a command. -/
inductive Opening where
  | done
  | space (text : Text) (rest : Opening)
  | redirect (first : Redirect) (rest : Opening)

/-- A flag or an argument. -/
inductive Modifier where
  | flag (name : Word)
  | arg (value : Word)

/-- What follows the name of a command. -/
inductive Ending where
  | done
  | redirect (spaces : List Text) (first : Redirect) (rest : Ending)
  | modifier (space : Text) (first : Modifier) (rest : Ending)

inductive Command where
  | mk (opening : Opening) (name : Word) (ending : Ending)

/-- Two or more commands joined by bars; the joints carry the blanks around the bar. -/
inductive Pipe where
  | pair (left : Command) (before after : Option Text) (right : Command)
  | more (left : Pipe) (before after : Option Text) (right : Command)

/-- Commands and pipes joined by semicolons. -/
inductive Sequence where
  | commands (left : Command) (before after : Option Text) (right : Command)
  | pipeCommand (left : Pipe) (before after : Option Text) (right : Command)
  | pipes (left : Pipe) (before after : Option Text) (right : Pipe)
  | commandPipe (left : Command) (before after : Option Text) (right : Pipe)
  | more (left : Sequence) (before after : Option Text) (right : Command)

/-- What a line, or the inside of a substitution, consists of. -/
inductive CommandLine where
  | command (only : Command)
  | pipe (all : Pipe)
  | sequence (all : Sequence)

end

deriving instance DecidableEq for CommandLine

/-- A whole line: perhaps a command line, then blanks. -/
structure Script where
  line : Option CommandLine
  trailing : List Text
deriving DecidableEq

/-! ## Concrete trees -/

def Literal.token : Literal → Token
  | chars t => .chars t
  | dash => .dash
  | less => .less
  | greater => .greater
  | semicolon => .semicolon
  | bar => .bar

def Quote.token : Quote → Token
  | double => .doubleQuote
  | single => .singleQuote

/-- The quote that may stand inside. -/
def Quote.other : Quote → Quote
  | double => single
  | single => double

def Quote.rule : Quote → Rule
  | double => .doubleQuoted
  | single => .singleQuoted

def Direction.token : Direction → Token
  | input => .less
  | output => .greater

def spaceLeaf (text : Text) : Tree := .leaf (.space text)

def gapLeaves : Option Text → List Tree
  | none => []
  | some text => [spaceLeaf text]

def voidLeaves (gap : Option Text) : List Tree :=
  .leaf .backquote :: gapLeaves gap ++ [.leaf .backquote]

def jointLeaves (separator : Token) (before after : Option Text) : List Tree :=
  gapLeaves before ++ .leaf separator :: gapLeaves after

mutual

def Word.tree : Word → Tree
  | .chars t => .node .phrase [.leaf (.chars t)]
  | .dash => .node .phrase [.leaf .dash]
  | .voidBefore gap rest => .node .phrase (voidLeaves gap ++ [rest.tree])
  | .substitutionBefore inner rest => .node .phrase [inner.tree, rest.tree]
  | .substitution inner => .node .phrase [inner.tree]
  | .strings run => .node .phrase run.trees
  | .stringBefore first rest => .node .phrase [first.tree, rest.tree]
  | .charsBefore t rest => .node .phrase [.leaf (.chars t), rest.tree]
  | .dashBefore rest => .node .phrase [.leaf .dash, rest.tree]
  | .stringAfter front last => .node .phrase [front.tree, last.tree]
  | .voidAfter front gap => .node .phrase (front.tree :: voidLeaves gap)
  | .substitutionAfter front inner => .node .phrase [front.tree, inner.tree]

def Strings.trees : Strings → List Tree
  | .one first => [first.tree]
  | .more first rest => first.tree :: rest.trees

def Quoted.tree : Quoted → Tree
  | .mk quote body =>
    .node .string [.node quote.rule (.leaf quote.token :: body.trees quote ++ [.leaf quote.token])]

def Body.trees (quote : Quote) : Body → List Tree
  | .done => []
  | .mark rest => .leaf quote.other.token :: rest.trees quote
  | .literal token rest => .node .literal [.leaf token.token] :: rest.trees quote
  | .space t rest => spaceLeaf t :: rest.trees quote
  | .substitution inner rest => inner.tree :: rest.trees quote

def Substitution.tree : Substitution → Tree
  | .void before after =>
    .node .subcommand
      (.leaf .backquote :: gapLeaves before ++ gapLeaves after ++ [.leaf .backquote])
  | .run before line after =>
    .node .subcommand
      (.leaf .backquote :: gapLeaves before ++ line.tree :: gapLeaves after ++ [.leaf .backquote])

def Redirect.tree : Redirect → Tree
  | .mk direction gap target =>
    .node .redirect (.leaf direction.token :: gapLeaves gap ++ [target.tree])

def Opening.trees : Opening → List Tree
  | .done => []
  | .space t rest => spaceLeaf t :: rest.trees
  | .redirect first rest => first.tree :: rest.trees

def Modifier.tree : Modifier → Tree
  | .flag name => .node .modifier [.node .flag [.leaf .dash, name.tree]]
  | .arg value => .node .modifier [.node .arg [value.tree]]

def Ending.trees : Ending → List Tree
  | .done => []
  | .redirect spaces first rest => spaces.map spaceLeaf ++ first.tree :: rest.trees
  | .modifier space first rest => spaceLeaf space :: first.tree :: rest.trees

def Command.tree : Command → Tree
  | .mk opening name ending =>
    .node .command (opening.trees ++ .node .name [name.tree] :: ending.trees)

def Pipe.tree : Pipe → Tree
  | .pair left before after right =>
    .node .pipe (left.tree :: jointLeaves .bar before after ++ [right.tree])
  | .more left before after right =>
    .node .pipe (left.tree :: jointLeaves .bar before after ++ [right.tree])

def Sequence.tree : Sequence → Tree
  | .commands left before after right =>
    .node .sequence (left.tree :: jointLeaves .semicolon before after ++ [right.tree])
  | .pipeCommand left before after right =>
    .node .sequence (left.tree :: jointLeaves .semicolon before after ++ [right.tree])
  | .pipes left before after right =>
    .node .sequence (left.tree :: jointLeaves .semicolon before after ++ [right.tree])
  | .commandPipe left before after right =>
    .node .sequence (left.tree :: jointLeaves .semicolon before after ++ [right.tree])
  | .more left before after right =>
    .node .sequence (left.tree :: jointLeaves .semicolon before after ++ [right.tree])

def CommandLine.tree : CommandLine → Tree
  | .command only => .node .commandLine [only.tree]
  | .pipe all => .node .commandLine [all.tree]
  | .sequence all => .node .commandLine [all.tree]

end

def Script.tree (script : Script) : Tree :=
  .node .start <|
    (match script.line with
      | none => []
      | some line => [line.tree])
    ++ script.trailing.map spaceLeaf ++ [.endOfLine]

end CommandShell.Line

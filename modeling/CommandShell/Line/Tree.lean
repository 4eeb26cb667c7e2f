import CommandShell.Line.Token

/-!
# Concrete trees

A concrete tree records which rule of the line grammar produced which tokens. It is what the
shell shows of a parse, and what command substitution walks over.
-/

namespace CommandShell

/-- The rules of the line grammar. -/
inductive Rule where
  | start
  | commandLine
  | command
  | pipe
  | sequence
  | modifier
  | flag
  | arg
  | name
  | redirect
  | subcommand
  | phrase
  | literal
  | string
  | doubleQuoted
  | singleQuoted
deriving DecidableEq, Repr

/-- A concrete tree: tokens, the end of the line, and rules over their parts. -/
inductive Tree where
  | leaf (token : Token)
  | endOfLine
  | node (rule : Rule) (children : List Tree)

namespace Tree

mutual

def tokens : Tree → List Token
  | leaf token => [token]
  | endOfLine => []
  | node _ children => tokensOf children

def tokensOf : List Tree → List Token
  | [] => []
  | t :: ts => t.tokens ++ tokensOf ts

end

def text (t : Tree) : Text := t.tokens.flatMap Token.text

/-- What a child of a node can be asked for: a rule, one of the two kinds of token that carry
text, or the end of the line. -/
inductive Label where
  | rule (rule : Rule)
  | space
  | chars
  | endOfLine
deriving DecidableEq, Repr

def hasLabel : Tree → Label → Bool
  | node r _, .rule r' => r = r'
  | leaf (.space _), .space => true
  | leaf (.chars _), .chars => true
  | endOfLine, .endOfLine => true
  | _, _ => false

def childrenWith (label : Label) : Tree → List Tree
  | node _ children => children.filter (·.hasLabel label)
  | _ => []

mutual

/-- The rule nodes of a tree, every node before the nodes below it. -/
def nodes : Tree → List (Rule × Tree)
  | node rule children => (rule, node rule children) :: nodesOf children
  | _ => []

def nodesOf : List Tree → List (Rule × Tree)
  | [] => []
  | t :: ts => t.nodes ++ nodesOf ts

end

end Tree

/-- How often a label can occur among the children of one node. -/
inductive Multiplicity where
  | once
  | many
deriving DecidableEq, Repr

/-- The labels that the children of a rule's nodes can carry. -/
def Rule.parts : Rule → List (Tree.Label × Multiplicity)
  | start => [(.endOfLine, .once), (.rule commandLine, .once), (.space, .many)]
  | commandLine => [(.rule command, .once), (.rule pipe, .once), (.rule sequence, .once)]
  | command =>
    [(.rule name, .once), (.rule redirect, .many), (.space, .many), (.rule modifier, .many)]
  | pipe => [(.rule pipe, .once), (.rule command, .many), (.space, .many)]
  | sequence =>
    [(.rule sequence, .once), (.rule command, .many), (.space, .many), (.rule pipe, .many)]
  | modifier => [(.rule redirect, .once), (.rule flag, .once), (.rule arg, .once)]
  | flag | arg | name => [(.rule phrase, .once)]
  | redirect => [(.rule phrase, .once), (.space, .once)]
  | subcommand => [(.rule commandLine, .once), (.space, .many)]
  | phrase =>
    [(.chars, .once), (.rule phrase, .once), (.space, .once), (.rule subcommand, .once),
      (.rule string, .many)]
  | literal => [(.chars, .once)]
  | string => [(.rule doubleQuoted, .once), (.rule singleQuoted, .once)]
  | doubleQuoted | singleQuoted =>
    [(.rule subcommand, .many), (.rule literal, .many), (.space, .many)]

end CommandShell

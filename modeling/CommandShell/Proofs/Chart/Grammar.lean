import CommandShell.Line.Phrases
import Mathlib

/-!
# The line grammar

The rules of the line grammar as data: for each rule its alternatives, and for each alternative
what the children of a node look like. A concrete tree follows the grammar if the children of
every node are an instance of one alternative of its rule.

`Forms` collects what is said about a list of trees read from some tokens, and has one lemma for
each way of putting such lists together.
-/

namespace CommandShell

namespace Grammar

/-- What a single child can be asked to be. -/
inductive Symbol where
  | space
  | chars
  | exactly (token : Token)
  | endOfLine
  | rule (rule : Rule)
deriving DecidableEq, Repr

/-- What a list of children can be asked to be. -/
inductive Expr where
  | symbol (symbol : Symbol)
  | seq (first second : Expr)
  | alt (first second : Expr)
  | opt (body : Expr)
  | star (body : Expr)
  | plus (body : Expr)
deriving DecidableEq, Repr

instance : Append Expr := ⟨.seq⟩

def space : Expr := .symbol .space

def chars : Expr := .symbol .chars

def exactly (token : Token) : Expr := .symbol (.exactly token)

def ref (rule : Rule) : Expr := .symbol (.rule rule)

def gap : Expr := .opt space

/-- A redirect before a command's name, with the blanks around it. -/
def openingItem : Expr := .star space ++ ref .redirect ++ .star space

/-- What can follow a command's name. -/
def endingItem : Expr := .alt (.star space ++ ref .redirect) (space ++ ref .modifier)

/-- A pair of backquotes around at most a blank. -/
def void : Expr := exactly .backquote ++ gap ++ exactly .backquote

/-- Two parts with a separator between them. -/
def joined (left : Rule) (separator : Token) (right : Rule) : Expr :=
  ref left ++ gap ++ exactly separator ++ gap ++ ref right

/-- What can stand between two quotes; `mark` is the quote of the other kind. -/
def bodyItem (mark : Token) : Expr :=
  .alt (exactly mark) (.alt (.plus (ref .literal)) (.alt (.plus space) (ref .subcommand)))

def quoted (quote mark : Token) : Expr := exactly quote ++ .star (bodyItem mark) ++ exactly quote

/-- Whether a tree is what a symbol asks for. -/
inductive Symbol.Fits : Symbol → Tree → Prop where
  | space (text : Text) : Fits .space (.leaf (.space text))
  | chars (text : Text) : Fits .chars (.leaf (.chars text))
  | exactly (token : Token) : Fits (.exactly token) (.leaf token)
  | endOfLine : Fits .endOfLine .endOfLine
  | rule (rule : Rule) (children : List Tree) : Fits (.rule rule) (.node rule children)

/-- Whether a list of trees is an instance of an expression. -/
inductive Expr.Matches : Expr → List Tree → Prop where
  | symbol {s : Symbol} {t : Tree} (fits : s.Fits t) : Matches (.symbol s) [t]
  | seq {a b : Expr} {xs ys : List Tree} (first : Matches a xs) (second : Matches b ys) :
      Matches (.seq a b) (xs ++ ys)
  | left {a b : Expr} {xs : List Tree} (first : Matches a xs) : Matches (.alt a b) xs
  | right {a b : Expr} {xs : List Tree} (second : Matches b xs) : Matches (.alt a b) xs
  | none {a : Expr} : Matches (.opt a) []
  | some {a : Expr} {xs : List Tree} (body : Matches a xs) : Matches (.opt a) xs
  | nil {a : Expr} : Matches (.star a) []
  | cons {a : Expr} {xs ys : List Tree} (first : Matches a xs) (later : Matches (.star a) ys) :
      Matches (.star a) (xs ++ ys)
  | plus {a : Expr} {xs ys : List Tree} (first : Matches a xs) (later : Matches (.star a) ys) :
      Matches (.plus a) (xs ++ ys)

end Grammar

open Grammar in
/-- The alternatives of a rule, in the order of the grammar. -/
def Rule.alternatives : Rule → List Expr
  | start => [.opt (ref commandLine) ++ .star space ++ .symbol .endOfLine]
  | commandLine => [.alt (ref command) (.alt (ref pipe) (ref sequence))]
  | command => [.star openingItem ++ ref name ++ .star endingItem]
  | pipe => [joined command .bar command, joined pipe .bar command]
  | sequence =>
    [joined command .semicolon command, joined sequence .semicolon command,
      joined pipe .semicolon command, joined pipe .semicolon pipe,
      joined command .semicolon pipe]
  | modifier => [ref redirect, ref flag, ref arg]
  | flag => [exactly .dash ++ ref phrase]
  | arg | name => [ref phrase]
  | redirect => [.alt (exactly .less) (exactly .greater) ++ gap ++ ref phrase]
  | subcommand =>
    [exactly .backquote ++ gap ++ .opt (ref commandLine) ++ gap ++ exactly .backquote]
  | phrase =>
    [ref phrase ++ ref string, chars, exactly .dash, void ++ ref phrase, ref phrase ++ void,
      ref subcommand ++ ref phrase, ref phrase ++ ref subcommand, ref subcommand,
      .plus (ref string), ref string ++ ref phrase, chars ++ ref phrase,
      exactly .dash ++ ref phrase]
  | literal =>
    [chars, exactly .dash, exactly .less, exactly .greater, exactly .semicolon, exactly .bar]
  | string => [.alt (ref doubleQuoted) (ref singleQuoted)]
  | doubleQuoted => [quoted .doubleQuote .singleQuote]
  | singleQuoted => [quoted .singleQuote .doubleQuote]

attribute [simp] Rule.alternatives

namespace Tree

/-- The children of every node are an instance of one alternative of its rule. -/
inductive Conforms : Tree → Prop where
  | leaf (token : Token) : Conforms (leaf token)
  | endOfLine : Conforms endOfLine
  | node {rule : Rule} {children : List Tree} (e : Grammar.Expr) (known : e ∈ rule.alternatives)
      (matched : e.Matches children) (below : ∀ t ∈ children, Conforms t) :
      Conforms (node rule children)

/-- What stands at the ends of a tree's branches. -/
inductive Terminal where
  | token (token : Token)
  | endOfLine
deriving DecidableEq, Repr

mutual

def terminals : Tree → List Terminal
  | leaf token => [.token token]
  | endOfLine => [.endOfLine]
  | node _ children => terminalsOf children

def terminalsOf : List Tree → List Terminal
  | [] => []
  | t :: ts => t.terminals ++ terminalsOf ts

end

@[simp] theorem terminalsOf_append (xs ys : List Tree) :
    terminalsOf (xs ++ ys) = terminalsOf xs ++ terminalsOf ys := by
  induction xs with
  | nil => rfl
  | cons t xs ih => simp [terminalsOf, ih]

attribute [simp] tokens tokensOf

@[simp] theorem tokensOf_append (xs ys : List Tree) :
    tokensOf (xs ++ ys) = tokensOf xs ++ tokensOf ys := by
  induction xs with
  | nil => rfl
  | cons t xs ih => simp [ih]

def Terminal.token? : Terminal → Option Token
  | token t => some t
  | endOfLine => none

mutual

theorem tokens_eq_filterMap (t : Tree) : t.tokens = t.terminals.filterMap Terminal.token? := by
  cases t with
  | leaf token => rfl
  | endOfLine => rfl
  | node rule children => exact tokensOf_eq_filterMap children

theorem tokensOf_eq_filterMap (ts : List Tree) :
    tokensOf ts = (terminalsOf ts).filterMap Terminal.token? := by
  cases ts with
  | nil => rfl
  | cons t ts =>
    rw [tokensOf, terminalsOf, List.filterMap_append, tokens_eq_filterMap t,
      tokensOf_eq_filterMap ts]

end

end Tree

namespace Grammar

open CommandShell.Tree (Terminal)

/-- A list of trees that is an instance of an expression, follows the grammar below, and has
`tokens` at the ends of its branches. -/
structure Forms (e : Expr) (trees : List Tree) (tokens : List Token) : Prop where
  isInstance : e.Matches trees
  conforms : ∀ t ∈ trees, t.Conforms
  terminals : Tree.terminalsOf trees = tokens.map .token

namespace Forms

variable {a b e : Expr} {xs ys : List Tree} {c d : List Token}

theorem tokensOf_eq (h : Forms e xs c) : Tree.tokensOf xs = c := by
  rw [Tree.tokensOf_eq_filterMap, h.terminals, List.filterMap_map]
  exact List.filterMap_some

theorem ne_nil {t : Tree} (h : Forms e [t] c) (ht : t.tokens ≠ []) : c ≠ [] := by
  rw [← h.tokensOf_eq]
  simpa using ht

theorem exactly (token : Token) : Forms (Grammar.exactly token) [.leaf token] [token] where
  isInstance := .symbol (.exactly token)
  conforms := by simp [Tree.Conforms.leaf]
  terminals := rfl

theorem space (text : Text) : Forms Grammar.space [.leaf (.space text)] [.space text] where
  isInstance := .symbol (.space text)
  conforms := by simp [Tree.Conforms.leaf]
  terminals := rfl

theorem chars (text : Text) : Forms Grammar.chars [.leaf (.chars text)] [.chars text] where
  isInstance := .symbol (.chars text)
  conforms := by simp [Tree.Conforms.leaf]
  terminals := rfl

theorem seq (ha : Forms a xs c) (hb : Forms b ys d) : Forms (a ++ b) (xs ++ ys) (c ++ d) where
  isInstance := .seq ha.isInstance hb.isInstance
  conforms := by
    intro t ht
    rcases List.mem_append.mp ht with h | h
    · exact ha.conforms t h
    · exact hb.conforms t h
  terminals := by
    rw [Tree.terminalsOf_append, ha.terminals, hb.terminals, List.map_append]

theorem split (h : Forms (a ++ b) xs c) :
    ∃ ys zs d e, xs = ys ++ zs ∧ c = d ++ e ∧ Forms a ys d ∧ Forms b zs e := by
  obtain ⟨hinstance, hconforms, hterminals⟩ := h
  cases hinstance with
  | @seq _ _ ys zs first second =>
    rw [Tree.terminalsOf_append] at hterminals
    obtain ⟨d, e, rfl, hd, he⟩ := List.map_eq_append_iff.mp hterminals.symm
    refine ⟨ys, zs, d, e, rfl, rfl, ⟨first, ?_, hd.symm⟩, ⟨second, ?_, he.symm⟩⟩
    · exact fun t ht => hconforms t (List.mem_append_left zs ht)
    · exact fun t ht => hconforms t (List.mem_append_right ys ht)

theorem left (h : Forms a xs c) : Forms (.alt a b) xs c where
  isInstance := .left h.isInstance
  conforms := h.conforms
  terminals := h.terminals

theorem right (h : Forms b xs c) : Forms (.alt a b) xs c where
  isInstance := .right h.isInstance
  conforms := h.conforms
  terminals := h.terminals

theorem optNone : Forms (.opt a) [] [] where
  isInstance := .none
  conforms := by simp
  terminals := rfl

theorem optSome (h : Forms a xs c) : Forms (.opt a) xs c where
  isInstance := .some h.isInstance
  conforms := h.conforms
  terminals := h.terminals

theorem starNil : Forms (.star a) [] [] where
  isInstance := .nil
  conforms := by simp
  terminals := rfl

theorem starCons (ha : Forms a xs c) (hs : Forms (.star a) ys d) :
    Forms (.star a) (xs ++ ys) (c ++ d) where
  isInstance := .cons ha.isInstance hs.isInstance
  conforms := (ha.seq hs).conforms
  terminals := (ha.seq hs).terminals

theorem starCons_seq (ha : Forms a xs c) (hs : Forms (.star a ++ b) ys d) :
    Forms (.star a ++ b) (xs ++ ys) (c ++ d) := by
  obtain ⟨ys, zs, d, e, rfl, rfl, hstar, hb⟩ := hs.split
  simpa using (ha.starCons hstar).seq hb

theorem plusCons (ha : Forms a xs c) (hs : Forms (.star a) ys d) :
    Forms (.plus a) (xs ++ ys) (c ++ d) where
  isInstance := .plus ha.isInstance hs.isInstance
  conforms := (ha.seq hs).conforms
  terminals := (ha.seq hs).terminals

theorem plusOne (ha : Forms a xs c) : Forms (.plus a) xs c := by
  simpa using ha.plusCons starNil

theorem star_of_plus (h : Forms (.plus a) xs c) : Forms (.star a) xs c where
  isInstance := by
    cases h.isInstance with
    | plus first later => exact .cons first later
  conforms := h.conforms
  terminals := h.terminals

theorem node (rule : Rule) (known : e ∈ rule.alternatives) (h : Forms e xs c) :
    Forms (ref rule) [.node rule xs] c where
  isInstance := .symbol (.rule rule xs)
  conforms := by
    intro t ht
    rw [List.mem_singleton.mp ht]
    exact .node e known h.isInstance h.conforms
  terminals := by
    simpa [Tree.terminalsOf, Tree.terminals] using h.terminals

end Forms

end Grammar

end CommandShell

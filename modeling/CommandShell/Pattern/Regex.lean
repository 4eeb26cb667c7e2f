import CommandShell.Pattern.CaseRule
import CommandShell.Text.Category
import CommandShell.Text.Digit
import CommandShell.Text.Space

/-!
# Regular expressions

Regular expressions with captures, lazy and possessive repetition, looking around and conditions.
What the flags of an expression mean is settled in its parts, so a part can be understood alone.
-/

namespace CommandShell

namespace Regex

/-- The classes of characters that have a name. -/
inductive Class where
  | digit
  | space
  | word
deriving DecidableEq, Repr

/-- Whether a character is in a class, or in its ASCII part. -/
def Class.has (c : Char) (asciiOnly : Bool) : Class → Bool
  | digit => if asciiOnly then c.isDigit else Digit.isDecimal c
  | space => if asciiOnly then c = ' ' || ('\t' ≤ c && c ≤ '\r') else Text.isSpace c
  | word => if asciiOnly then c.isAlphanum || c = '_' else Text.isWordChar c

/-- What may stand in a set. -/
inductive Item where
  | code (code : Nat)
  | range (first last : Nat)
  | cls (kind : Class) (negated : Bool)
deriving DecidableEq, Repr

/-- What a pattern can ask of one character. -/
inductive Test where
  /-- any character, or any but a line feed -/
  | any (lineFeeds : Bool)
  /-- this character, or any other -/
  | code (negated : Bool) (code : Nat) (rule : CaseRule)
  /-- a character in a set, or outside it -/
  | set (negated : Bool) (items : List Item) (rule : CaseRule) (asciiOnly : Bool)
deriving DecidableEq, Repr

/-- Whether an item stands for a character. In a comparison without case, a character beyond the
first 65536 stands for itself only in lower case. -/
def Item.has (c : Char) (rule : CaseRule) (asciiOnly : Bool) : Item → Bool
  | code n =>
    if rule = .full && n ≥ 0x10000 then rule.lower c.toNat = n else rule.same n c.toNat
  | range first last => rule.within first last c.toNat
  | cls kind negated => kind.has c asciiOnly != negated

def Test.passes (c : Char) : Test → Bool
  | any lineFeeds => lineFeeds || c ≠ '\n'
  | code negated n rule => rule.same n c.toNat != negated
  | set negated items rule asciiOnly => items.any (·.has c rule asciiOnly) != negated

/-- Places in a text that a pattern can ask for. -/
inductive Anchor where
  | textStart
  | textEnd
  /-- the end of the text, or the line feed that ends it -/
  | lastLineEnd
  | lineStart
  | lineEnd
  /-- between a word and what is none, or not there -/
  | boundary (asciiOnly : Bool) (negated : Bool)
deriving DecidableEq, Repr

/-- Which repetitions are tried first, and whether they are ever given back. -/
inductive Mode where
  | greedy
  | reluctant
  | possessive
deriving DecidableEq, Repr

end Regex

/-- A regular expression. -/
inductive Regex where
  | empty
  | one (test : Regex.Test)
  | anchor (anchor : Regex.Anchor)
  | seq (first second : Regex)
  | alt (first second : Regex)
  /-- from `least` to `most` repetitions, or any number above `least` -/
  | rep (mode : Regex.Mode) (least : Nat) (most : Option Nat) (body : Regex)
  | group (index : Nat) (body : Regex)
  /-- the body, without second thoughts once it has matched -/
  | atomic (body : Regex)
  /-- whether the body matches here, or ends here if it is that much wide -/
  | look (behind : Option Nat) (negated : Bool) (body : Regex)
  /-- what a group has captured, once more -/
  | again (index : Nat) (rule : CaseRule)
  /-- one of two expressions, by whether a group has captured anything -/
  | cond (index : Nat) (yes no : Regex)
deriving Inhabited

/-- A regular expression with the number of its groups and their names. -/
structure Pattern where
  regex : Regex
  groups : Nat
  names : List (Text × Nat)

end CommandShell

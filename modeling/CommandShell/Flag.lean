import CommandShell.Complaint
import CommandShell.Number.Decimal
import CommandShell.Text.Space

/-!
# Flags

A command declares the flags it knows, each with the type of its value. A declaration reads the
text that a user gives as the value, or takes a value as it is. The wildcard declaration stands
for every word with a dash, and never becomes a flag.
-/

namespace CommandShell

structure Flag where
  name : Text
  value : Value
  help : Text

/-- The types a flag's value can have. -/
inductive ValueType where
  | bool
  | text
  | int
  | float
  | texts
  | ints
  | floats
deriving DecidableEq, Repr

namespace ValueType

/-- The items of a list: what stands between commas, without the white space around it. -/
def items (s : Text) : List Text := (Text.splitAt ',' s).map Text.trim

/-- Reads a value. A truth value is true unless the text is empty. -/
def read? : ValueType → Text → Option Value
  | bool, s => some (.bool (!s.isEmpty))
  | text, s => some (.text s)
  | int, s => (Int.ofText? s).map .int
  | float, s => (Binary64.ofText? s).map .float
  | texts, s => some (.list ((items s).map .text))
  | ints, s => do
    let ns ← (items s).mapM Int.ofText?
    return .list (ns.map .int)
  | floats, s => do
    let xs ← (items s).mapM Binary64.ofText?
    return .list (xs.map .float)

/-- Whether a value is taken as it is. Truth values count as integers, and what is in a list is
not looked at. -/
def accepts : ValueType → Value → Bool
  | bool, .bool _ => true
  | text, .text _ => true
  | int, value => value.int?.isSome
  | float, .float _ => true
  | texts, _ | ints, _ | floats, _ => true
  | _, _ => false

end ValueType

inductive FlagSpec where
  | wildcard
  | named (name : Text) (type : ValueType) (help : Text)
deriving DecidableEq, Repr

namespace FlagSpec

def withValue : FlagSpec → Value → Except Complaint Flag
  | wildcard, _ => throw .wildcardBuilt
  | named _ _ _, .nothing => throw .missingArgument
  | named name type help, value =>
    if type.accepts value then return ⟨name, value, help⟩ else throw .flagKind

def ofText : FlagSpec → Option Text → Except Complaint Flag
  | _, none => throw .missingArgument
  | wildcard, some _ => throw .wildcardRead
  | named name type help, some s =>
    match type.read? s with
    | none => throw (.flagValue name s)
    | some value => (named name type help).withValue value

def name : FlagSpec → Except Complaint Text
  | wildcard => throw .wildcardRead
  | named name _ _ => return name

def type : FlagSpec → Except Complaint ValueType
  | wildcard => throw .wildcardRead
  | named _ type _ => return type

def help : FlagSpec → Except Complaint Text
  | wildcard => throw .wildcardRead
  | named _ _ help => return help

/-- Whether a word with a dash before it is meant by a declaration. -/
def answersTo (word : Text) : FlagSpec → Bool
  | wildcard => true
  | named name _ _ => name = word

end FlagSpec

end CommandShell

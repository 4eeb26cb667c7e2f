import CommandShell.Number.Shortest
import CommandShell.Text.Quotation

/-!
# Values

The value of a flag is decided by what the command asks for, and whoever builds a command
directly may give a flag any value at all, so values carry their own kind.
-/

namespace CommandShell

inductive Value where
  | nothing
  | bool (value : Bool)
  | int (value : Int)
  | float (value : Binary64)
  | text (value : Text)
  | list (items : List Value)
deriving Inhabited

namespace Value

mutual

/-- A value as it appears inside a list: texts are quoted. -/
def quoted : Value → Text
  | nothing => "None".toList
  | bool b => Text.ofBool b
  | int n => Text.ofInt n
  | float x => x.text
  | text t => t.quoted
  | list items => '[' :: quotedItems items ++ [']']

/-- The values of a list with commas between them. -/
def quotedItems : List Value → Text
  | [] => []
  | [item] => item.quoted
  | item :: items => item.quoted ++ ", ".toList ++ quotedItems items

end

/-- A value as it appears in a message: a text stands as it is. -/
def shown : Value → Text
  | text t => t
  | value => value.quoted

/-- Whether a value counts as an integer; the truth values do. -/
def int? : Value → Option Int
  | int n => some n
  | bool b => some (if b then 1 else 0)
  | _ => none

end Value

end CommandShell

import CommandShell.Complaint
import CommandShell.Line.Phrases

/-!
# What words mean

The text that a word of a line stands for. Outside quotes a backslash before a quote or another
backslash is dropped, and between quotes everything stands for itself. A void stands for the
blank inside it. A substitution stands for nothing yet: it has to be run first.
-/

namespace CommandShell.Line

/-- Drops the backslash before single quotes, then before double quotes, then before
backslashes. -/
def unescape (s : Text) : Text :=
  Text.replacePair '\\' '\\' '\\'
    (Text.replacePair '\\' '"' '"' (Text.replacePair '\\' '\'' '\'' s))

def gapText (gap : Option Text) : Text := gap.getD []

mutual

def Word.value : Word → Except Complaint Text
  | .chars t => return unescape t
  | .dash => return ['-']
  | .voidBefore gap rest => return gapText gap ++ (← rest.value)
  | .substitutionBefore _ _ => throw .substitutionLeft
  | .substitution _ => throw .substitutionLeft
  | .strings run => run.value
  | .stringBefore first rest => return (← first.value) ++ (← rest.value)
  | .charsBefore t rest => return unescape t ++ (← rest.value)
  | .dashBefore rest => return '-' :: (← rest.value)
  | .stringAfter front last => return (← front.value) ++ (← last.value)
  | .voidAfter front gap => return (← front.value) ++ gapText gap
  | .substitutionAfter front _ => do
    let _ ← front.value
    throw .substitutionLeft

def Strings.value : Strings → Except Complaint Text
  | .one first => first.value
  | .more first rest => return (← first.value) ++ (← rest.value)

def Quoted.value : Quoted → Except Complaint Text
  | .mk quote body => body.value quote

def Body.value (quote : Quote) : Body → Except Complaint Text
  | .done => return []
  | .mark rest => return quote.other.token.text ++ (← rest.value quote)
  | .literal token rest => return token.token.text ++ (← rest.value quote)
  | .space t rest => return t ++ (← rest.value quote)
  | .substitution _ _ => throw .substitutionLeft

end

def Word.text (word : Word) : Text := word.tree.text

def Opening.redirects : Opening → List Redirect
  | .done => []
  | .space _ rest => rest.redirects
  | .redirect first rest => first :: rest.redirects

def Ending.redirects : Ending → List Redirect
  | .done => []
  | .redirect _ first rest => first :: rest.redirects
  | .modifier _ _ rest => rest.redirects

def Ending.modifiers : Ending → List Modifier
  | .done => []
  | .redirect _ _ rest => rest.modifiers
  | .modifier _ first rest => first :: rest.modifiers

end CommandShell.Line

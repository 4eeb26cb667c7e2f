import CommandShell.Flag

/-!
# Specifications

What a command tells about itself: its name, the flags it knows and the text of its help page.
-/

namespace CommandShell

/-- What a command tells about itself. -/
structure Specification where
  name : Text
  flags : List FlagSpec
  usage : Text
  description : Text
deriving DecidableEq, Repr

namespace Specification

def helpFlag : FlagSpec := .named "h".toList .bool "Displays this help text".toList

/-- A specification in which the help flag comes after all others. -/
def ordinary (name : Text) (flags : List FlagSpec) (usage description : Text) : Specification :=
  { name, flags := flags ++ [helpFlag], usage, description }

def helpLine? : FlagSpec → Option Text
  | .wildcard => none
  | .named name _ help => some ("  -".toList ++ name ++ '\t' :: help)

def page (spec : Specification) : Text :=
  "\nUsage: ".toList ++ spec.name ++ ' ' :: spec.usage ++ '\n' :: spec.description ++
    "\n\n".toList ++ Text.join ['\n'] (spec.flags.filterMap helpLine?) ++ ['\n']

/-- The declaration that a word with a dash refers to: the first that answers to it. -/
def declaration? (spec : Specification) (word : Text) : Option FlagSpec :=
  spec.flags.find? (·.answersTo word)

end Specification

end CommandShell

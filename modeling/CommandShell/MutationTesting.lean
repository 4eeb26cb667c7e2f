import CommandShell.Text

/-!
# Mutation testing

Which files mutation testing leaves alone, and how it runs the tests.
-/

namespace CommandShell

namespace MutationTesting

/-- Parts of the names of files that are generated or are tests themselves. -/
def sparedNames : List Text :=
  ["ParserGrammarLexer".toList, "ParserGrammarListener".toList, "ParserGrammarParser".toList,
    "ParserGrammarVisitor".toList, "parser_test".toList]

def occursIn (part : Text) : Text → Bool
  | [] => part.isEmpty
  | c :: rest => part.isPrefixOf (c :: rest) || occursIn part rest

/-- Whether a file is left alone, unless that was decided before. -/
def isSpared (file : Text) (decided : Bool) : Bool :=
  decided || sparedNames.any fun name => occursIn name file

def testCommand : Text := "python -m nose2 test".toList

end MutationTesting

end CommandShell

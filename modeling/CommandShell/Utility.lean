import CommandShell.Specification

/-!
# Utilities

The fifteen commands that the shell knows, with their specifications.
-/

namespace CommandShell

/-- The commands of the shell. -/
inductive Utility where
  | cat
  | cd
  | cut
  | echo
  | exit
  | find
  | grep
  | head
  | ls
  | pwd
  | sed
  | sort
  | tail
  | uniq
  | wc
deriving DecidableEq, Repr

namespace Utility

def all : List Utility :=
  [cat, cd, cut, echo, exit, find, grep, head, ls, pwd, sed, sort, tail, uniq, wc]

def flag (name : String) (type : ValueType) (help : String) : FlagSpec :=
  .named name.toList type help.toList

def usual (name : String) (flags : List FlagSpec) (usage description : String) : Specification :=
  .ordinary name.toList flags usage.toList description.toList

/-- What each command tells about itself. `cut` takes every other word with a dash as an operand,
so its wildcard comes last. -/
def specification : Utility → Specification
  | cat => usual "cat" [] "[FILE]..." "Concatenate FILE(s) to standard output."
  | cd => usual "cd" [] "PATH" <|
    "Change the current working directory\n" ++
    "  PATH is a relative path to the target directory"
  | cut =>
    { name := "cut".toList
      flags := [flag "b" .texts "Number of bytes to extract", Specification.helpFlag, .wildcard]
      usage := "OPTIONS [FILE]".toList
      description := ("Cuts out sections from each line of a given file or " ++
        "stdin and prints the line to stdout.").toList }
  | echo => usual "echo" [.wildcard] "[ARG]..."
    "Prints all of [ARG] into the standrd output verbatim"
  | exit => usual "exit" [.wildcard] "" "Exits the shell"
  | find => usual "find" [flag "name" .text "search expression"] "EXPR, PATH"
    "Searches for the given EXPR in for files under PATH\n"
  | grep => usual "grep" [] "PATTERN [FILE]..." <|
    "Searches [FILE]... for lines containing a match to PATTERN\n" ++
    "  PATTERN is a regular expression in PCRE format.\n  FILE is the name of a file."
  | head => usual "head" [flag "n" .int "Number of lines to print"] "[OPTIONS] [FILE]"
    "Prints the first 10 lines of FILE if -n is not provided.\n"
  | ls => usual "ls" [] "[PATH]" "Prints all files in the directory"
  | pwd => usual "pwd" [] "" "Outputs the current working directory"
  | sed => usual "sed" [] "Expression [FILE]" <|
    "A limited sed that performs only s/ prefix and supports only the /g suffix. " ++
    "If no file is  specified, will use STDIN."
  | sort => usual "sort" [flag "r" .bool "reverse sort"] "[-r] [FILE]" <|
    "Sorts the lines in a file\n  [-r] sorts lines in reverse order\n" ++
    "  [FILE] is the file to sort"
  | tail => usual "tail" [flag "n" .int "Number of lines to print"] "[OPTIONS] [FILE]"
    "Prints the last 10 lines of FILE if -n is not provided.\n"
  | uniq => usual "uniq" [flag "i" .bool "ignore case"] "[-i] [FILE]..." <|
    "Prints the unique lines in [FILE]...\n" ++
    "  -i: ignore case when doing the comparison\n  FILE is the name of a file."
  | wc => usual "wc"
    [flag "l" .bool "Print the newline counts", flag "w" .bool "Print the word counts",
      flag "m" .bool "Print the byte counts"] "[OPTIONS] [FILE]"
    "Prints the newline, word, and byte counts for FILE.\n"

def name (utility : Utility) : Text := utility.specification.name

end Utility

end CommandShell

import CommandShell.Complaint

/-!
# Failures

An action of the shell fails either with a complaint, which the shell reports and survives, or with
a crash, which nothing in the shell handles.
-/

namespace CommandShell

/-- Failures that the shell does not handle. -/
inductive Crash where
  /-- a command name without characters -/
  | emptyName
  /-- a list of operands without the one that is needed -/
  | noOperand
  /-- a replacement names a group that the pattern does not have -/
  | unknownGroup
  /-- a replacement that cannot be read -/
  | badReplacement
  /-- a pattern that asks for two character sets at once -/
  | mixedCharacterSets
  /-- a pattern that asks for more repetitions than can be counted -/
  | hugeRepeat
  /-- a number with more digits than are read -/
  | longNumber
  /-- nothing was given where a list is needed -/
  | noList
  /-- a value that cannot be gone through item by item -/
  | notIterable
  /-- a value that is not a text where one is needed -/
  | notText
  /-- a redirect around something other than a command or a redirect -/
  | notRedirectable
  /-- a plan with a part missing -/
  | missingPart
  /-- a stream was used after it had been closed -/
  | closedStream
  /-- a stream that cannot do what was asked -/
  | unsupported
  /-- a path with a NUL character -/
  | nulInPath
  /-- bytes that are not UTF-8 -/
  | notUtf8
  /-- the user's input has ended -/
  | endOfInput
  /-- arguments of the program -/
  | argumentCount
  | unexpectedArgument (argument : Text)
  /-- a failed call -/
  | os (error : OsError)

/-- Why an action failed. -/
inductive Failure where
  | complaint (cause : Complaint)
  | crash (cause : Crash)

def Crash.message? : Crash → Option Text
  | .argumentCount => some "wrong number of command line arguments".toList
  | .unexpectedArgument argument =>
    some ("unexpected command line argument ".toList ++ argument)
  | _ => none

end CommandShell

import CommandShell.Files.Errno
import CommandShell.Report
import CommandShell.Value

/-!
# Complaints

Every way in which the shell itself refuses or gives up, as a cause. The wording of all of them is
in `Complaint.report`.
-/

namespace CommandShell

/-- What made the system refuse while a directory was shown: a failed call, or an output that
cannot be written to at all. -/
inductive ShowFailure where
  | os (error : OsError)
  | unwritable
deriving DecidableEq, Repr

def ShowFailure.text : ShowFailure → Text
  | .os error => error.text
  | .unwritable => "write".toList

/-- The causes of the shell's own errors. -/
inductive Complaint where
  /-- a command, plan or flag was given nothing where it needs something -/
  | missingArgument
  /-- a file operand could not be opened -/
  | unreadable (file : Text) (error : OsError)
  /-- neither a file nor anything to read on the input -/
  | noInput
  | catFlags
  | catNeedsFile
  | cdOneOption
  | cdNotFound
  | cdNotDirectory (path : Text)
  | cdFailed (error : OsError)
  | cutEmptyInput
  | cutManyLists
  | cutNoList
  | cutEmptyRange
  | cutPosition
  | cutNotNumber (text : Text)
  | cutManyDashes
  | cutDecreasing
  | cutBadEnds (first last : Text)
  | exit
  | findManyPaths
  | findNotFound
  | findManyFlags
  | findUnknownFlag
  | findPatternNotText
  | findFailed (error : OsError)
  | grepPattern (pattern : Text)
  | headNoInput
  | headCount (value : Value)
  | headUnknownFlag (name : Text)
  | lsManyPaths
  | lsFlags
  | lsFailed (path : Text) (cause : ShowFailure)
  | pwdFailed (cause : ShowFailure)
  | sedNoExpression
  | sedForm
  | sedParts
  | sedPattern
  | sortManyFlags
  | sortUnknownFlag
  | sortManyFiles
  | sortNoInput
  | sortNotFound (path : Text)
  | sortFailed (error : OsError)
  | tailNoInput
  | tailCount (value : Value)
  | tailUnknownFlag (name : Text)
  | uniqManyFlags
  | uniqUnknownFlag
  | uniqManyFiles
  | uniqNoInput
  | uniqNotFound (path : Text)
  | wcManyFlags
  | wcUnknownFlag
  | wcNoInput
  /-- a file of a redirect could not be opened -/
  | redirectFailed (error : OsError)
  /-- a redirect was run with a closed stream -/
  | redirectClosed
  | flagValue (name value : Text)
  | flagKind
  | wildcardRead
  | wildcardBuilt
  | badLine
  | noCommand
  | unknownCommand (name : Text)
  | unknownFlag (name : Text)
  | flagNeedsValue (name : Text)
  /-- a substitution was left in a line that should have none -/
  | substitutionLeft
  | unspecified
  | moduleWithoutName (name : Text)
  | moduleWithoutCommand (name : Text)

namespace Complaint

def fixed (kind : Report.Kind) (message : String) : Report := ⟨kind, message.toList⟩

def bare (kind : Report.Kind) : Report := ⟨kind, Report.noMessage⟩

def about (kind : Report.Kind) (words : String) (subject : Text) : Report :=
  ⟨kind, words.toList ++ subject⟩

def unreadableReport (file : Text) (error : OsError) : Report :=
  if error.errno = .noEntry then
    ⟨.fileNotFound, file ++ " file could not be found: ".toList ++ error.text⟩
  else if error.errno.isPermission then
    ⟨.command, "unauthorised access to file ".toList ++ file ++ ": ".toList ++ error.text⟩
  else ⟨.command, "OS Error opening ".toList ++ file ++ ": ".toList ++ error.text⟩

def cdReport (error : OsError) : Report :=
  if error.errno = .noEntry then fixed .internal "dir not found. missed checks?"
  else if error.errno = .notDirectory then fixed .internal "not a dir. missed checks?"
  else if error.errno.isPermission then
    fixed .command "process does not have permission to open the file"
  else fixed .internal "unknown OSError"

def findReport (error : OsError) : Report :=
  if error.errno = .noEntry then
    ⟨.fileNotFound, "File could not be found: ".toList ++ error.text ++ [' ']⟩
  else if error.errno.isPermission then about .command "Permission denied: " error.text
  else if error.errno = .notDirectory then
    about .command "Path specified was not a directory: " error.text
  else about .command "OS Error: " error.text

def lsReport (path : Text) (cause : ShowFailure) : Report :=
  let plain : Report := ⟨.command, path ++ " caused an OSError: ".toList ++ cause.text⟩
  match cause with
  | .unwritable => plain
  | .os error =>
    if error.errno = .noEntry then
      ⟨.fileNotFound, path ++ " is not a valid directory: ".toList ++ error.text⟩
    else if error.errno.isPermission then
      ⟨.command, path ++ " cannot be opened: ".toList ++ error.text⟩
    else if error.errno = .notDirectory then
      ⟨.notADirectory, path ++ " is not a directory; ".toList ++ error.text⟩
    else plain

def pwdReport (cause : ShowFailure) : Report :=
  let say (kind : Report.Kind) (reason : String) : Report :=
    ⟨kind, "Error: ".toList ++ cause.text ++ reason.toList⟩
  match cause with
  | .unwritable => say .command " (General OS error)"
  | .os error =>
    if error.errno = .noEntry then say .fileNotFound " (File not found)"
    else if error.errno = .notDirectory then say .notADirectory " (Not a directory)"
    else if error.errno.isPermission then say .command " (Permission denied)"
    else say .command " (General OS error)"

def redirectReport (error : OsError) : Report :=
  if error.errno = .noEntry then bare .fileNotFound
  else if error.errno.isPermission then fixed .redirect "unable to open one of the files"
  else if error.errno = .isDirectory then fixed .redirect "unexpected directory"
  else fixed .redirect "unknown error"

/-- The blanks that two messages of `head` and `tail` carry in their middle. -/
def wide (count : Nat) : Text := List.replicate count ' '

def report : Complaint → Report
  | missingArgument => fixed .internal "One or more arguments are None"
  | unreadable file error => unreadableReport file error
  | noInput => fixed .command "No input provided"
  | catFlags => bare .unknownFlag
  | catNeedsFile => fixed .command "cat requires a file passed as an option"
  | cdOneOption => fixed .command "only one option is accepted for cd"
  | cdNotFound => bare .fileNotFound
  | cdNotDirectory path => ⟨.notADirectory, path ++ " is not a directory".toList⟩
  | cdFailed error => cdReport error
  | cutEmptyInput => fixed .command "cut: no file provided and stdin is empty"
  | cutManyLists => fixed .unknownFlag "only one type of list may be specified"
  | cutNoList => fixed .unknownFlag "you must specify a list of bytes, characters or fields"
  | cutEmptyRange => fixed .unknownFlagValue "option requires an argument"
  | cutPosition => fixed .command "byte positions are numbered from 1"
  | cutNotNumber t =>
    ⟨.command, "can't convert ".toList ++ (Value.list [.text t]).shown ++ " to int".toList⟩
  | cutManyDashes => fixed .command "a range should only contain maximally one '-' for ranges"
  | cutDecreasing => fixed .command "invalid decreasing range"
  | cutBadEnds first last =>
    ⟨.command,
      "one of the two input into cut is unknown ".toList ++ first ++ ", ".toList ++ last⟩
  | exit => bare .exit
  | findManyPaths => fixed .command "Too many options supplied"
  | findNotFound => bare .fileNotFound
  | findManyFlags => fixed .unknownFlag "Command requires 1 flag"
  | findUnknownFlag => bare .internal
  | findPatternNotText => fixed .unknownFlagValue "Flag value has to be a string"
  | findFailed error => findReport error
  | grepPattern pattern => about .command "Invalid pattern: " pattern
  | headNoInput => bare .command
  | headCount value =>
    ⟨.internal, "Invalid number of lines ".toList ++ wide 48 ++ value.shown
      ++ ", should have ".toList ++ wide 48 ++ "been caught by flag ".toList ++ wide 48
      ++ "parser".toList⟩
  | headUnknownFlag name =>
    ⟨.internal, "Invalid flag ".toList ++ name ++ ", should ".toList ++ wide 44
      ++ "have been caught by flag parser".toList⟩
  | lsManyPaths => fixed .command "ls command only takes 0 or 1 options"
  | lsFlags => fixed .command "ls command does not have any flags"
  | lsFailed path cause => lsReport path cause
  | pwdFailed cause => pwdReport cause
  | sedNoExpression => fixed .command "Not enough arguments to command"
  | sedForm => fixed .command "Unsupported sed prefix"
  | sedParts => fixed .command "Invalid expression"
  | sedPattern => fixed .command "Invalid pattern"
  | sortManyFlags => fixed .command "sort only accepts one flag"
  | sortUnknownFlag =>
    fixed .internal "sort only accepts the -r flag. This should have been caught by the parser"
  | sortManyFiles => fixed .command "sort only accepts one file"
  | sortNoInput => fixed .command "sort needs a file or stdin"
  | sortNotFound path => ⟨.fileNotFound, path⟩
  | sortFailed error =>
    if error.errno.isPermission then
      fixed .command "process does not have permission to open the file"
    else fixed .command "error reading file"
  | tailNoInput => fixed .command "No file specified"
  | tailCount value =>
    ⟨.internal, "Invalid number of lines ".toList ++ wide 48 ++ value.shown⟩
  | tailUnknownFlag name =>
    ⟨.internal, "Invalid flag ".toList ++ name ++ ", should have ".toList ++ wide 38
      ++ "been caught by flag parser".toList⟩
  | uniqManyFlags => fixed .command "uniq only accepts one flag"
  | uniqUnknownFlag =>
    fixed .internal "uniq only accepts the -i flag. This should have been caught by the parser"
  | uniqManyFiles => fixed .command "uniq only accepts one file"
  | uniqNoInput => fixed .command "uniq needs a file or stdin"
  | uniqNotFound path => ⟨.fileNotFound, path⟩
  | wcManyFlags => fixed .command "Invalid number of flags"
  | wcUnknownFlag => fixed .command "Invalid Flag Name"
  | wcNoInput => bare .command
  | redirectFailed error => redirectReport error
  | redirectClosed => fixed .internal "one of the streams are closed"
  | flagValue name value =>
    ⟨.unknownFlagValue, "Invalid value for flag ".toList ++ name ++ ": ".toList ++ value⟩
  | flagKind =>
    fixed .internal <| "Flag value was not the correct type. "
      ++ "Something wrong with the parsing integration?"
  | wildcardRead =>
    fixed .internal <| "None of the attributes of the wildcard flag specification should"
      ++ " be accessed."
  | wildcardBuilt =>
    fixed .internal <| "WildCardFlagSpecification is not meant to be used to build"
      ++ " a flag. Implementers should pass this parameter as an option instead."
  | badLine => fixed .badLine "Syntax Error"
  | noCommand => fixed .noCommand "there is no command to parse at start"
  | unknownCommand name => about .unknownCommand "Unknown command " name
  | unknownFlag name => about .unknownFlag "Unknown flag " name
  | flagNeedsValue name =>
    ⟨.unknownFlagValue, "Flag ".toList ++ name ++ " requires a value".toList⟩
  | substitutionLeft =>
    fixed .internal "The command line must first go through the substitution visitor"
  | unspecified => fixed .internal "a specification should have been written for this cmd"
  | moduleWithoutName name => ⟨.internal, name ++ " doesnt have a command_name".toList⟩
  | moduleWithoutCommand name => ⟨.internal, name ++ " doesnt inherit BaseCommand".toList⟩

def message (complaint : Complaint) : Text := complaint.report.message

end Complaint

end CommandShell

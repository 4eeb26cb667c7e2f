import CommandShell.Text.Quotation

/-!
# Errors of the file system

What the operating system can answer instead of doing its work, and how such an answer reads.
-/

namespace CommandShell

/-- The reasons for which a call fails. -/
inductive Errno where
  | notPermitted
  | noEntry
  | inputOutput
  | accessDenied
  | notDirectory
  | isDirectory
  | tooManyOpen
  | nameTooLong
  | tooManyLinks
  | other (code : Nat)
deriving DecidableEq, Repr

namespace Errno

def code : Errno → Nat
  | notPermitted => 1
  | noEntry => 2
  | inputOutput => 5
  | accessDenied => 13
  | notDirectory => 20
  | isDirectory => 21
  | tooManyOpen => 24
  | nameTooLong => 36
  | tooManyLinks => 40
  | other code => code

def ofCode (code : Nat) : Errno :=
  match code with
  | 1 => notPermitted
  | 2 => noEntry
  | 5 => inputOutput
  | 13 => accessDenied
  | 20 => notDirectory
  | 21 => isDirectory
  | 24 => tooManyOpen
  | 36 => nameTooLong
  | 40 => tooManyLinks
  | code => other code

def text : Errno → Text
  | notPermitted => "Operation not permitted".toList
  | noEntry => "No such file or directory".toList
  | inputOutput => "Input/output error".toList
  | accessDenied => "Permission denied".toList
  | notDirectory => "Not a directory".toList
  | isDirectory => "Is a directory".toList
  | tooManyOpen => "Too many open files".toList
  | nameTooLong => "File name too long".toList
  | tooManyLinks => "Too many levels of symbolic links".toList
  | other code => "Unknown error ".toList ++ Text.ofNat code

def isPermission : Errno → Bool
  | notPermitted | accessDenied => true
  | _ => false

end Errno

/-- A failed call: the reason and the path that was asked for, if there was one. -/
structure OsError where
  errno : Errno
  path? : Option Text
deriving DecidableEq, Repr

def OsError.text (e : OsError) : Text :=
  "[Errno ".toList ++ Text.ofNat e.errno.code ++ "] ".toList ++ e.errno.text ++
    match e.path? with
    | some path => ": ".toList ++ path.quoted
    | none => []

end CommandShell

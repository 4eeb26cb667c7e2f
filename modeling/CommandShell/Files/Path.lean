import CommandShell.Files.Errno
import CommandShell.Files.Node

/-!
# Paths

A path is a text; its names stand between slashes. A path is followed name by name, and every
place on the way but the last must be a directory. A slash at the end asks for a directory.
-/

namespace CommandShell

namespace Path

/-- Puts a path after a directory: a path from the top stands alone. -/
def join (dir path : Text) : Text :=
  if path.head? = some '/' then path
  else if dir.isEmpty || dir.getLast? = some '/' then dir ++ path
  else dir ++ '/' :: path

/-- What stands before and after the last slash; the first part loses its slashes at the end,
unless there is nothing else. -/
def split (path : Text) : Text × Text :=
  let base := (path.reverse.takeWhile (· ≠ '/')).reverse
  let dir := path.take (path.length - base.length)
  let bare := Text.dropEndWhile (· = '/') dir
  (if bare.isEmpty then dir else bare, base)

def names (path : Text) : List Text := (Text.splitAt '/' path).filter (· ≠ [])

def endsInSlash (path : Text) : Bool := path.getLast? = some '/'

/-- The steps along a path: its names, and a stay in place after a slash at the end. -/
def steps (path : Text) : List Text :=
  if endsInSlash path then names path ++ [['.']] else names path

/-- The longest name, in bytes. -/
def maxName : Nat := 255

/-- One more than the longest path, in bytes. -/
def maxPath : Nat := 4096

def step (root : Node) (place : Location) (name : Text) : Except Errno Location :=
  match root.get? place with
  | none => throw .noEntry
  | some (.file _) => throw .notDirectory
  | some (.dir entries) =>
    if name = ['.'] then return place
    else if name = ['.', '.'] then return place.dropLast
    else if Text.byteLength name > maxName then throw .nameTooLong
    else if (Entries.get? name entries).isSome then return place ++ [name]
    else throw .noEntry

def follow (root : Node) (place : Location) (steps : List Text) : Except Errno Location :=
  steps.foldlM (step root) place

def start (cwd : Location) (path : Text) : Location :=
  if path.head? = some '/' then [] else cwd

def check (path : Text) : Except Errno Unit :=
  if path.isEmpty then throw .noEntry
  else if Text.byteLength path ≥ maxPath then throw .nameTooLong
  else return

def resolve (root : Node) (cwd : Location) (path : Text) : Except Errno Location := do
  check path
  follow root (start cwd path) (steps path)

/-- The place of a file to be written, which need not be there yet; its directory must. -/
def resolveNew (root : Node) (cwd : Location) (path : Text) : Except Errno Location := do
  check path
  let all := names path
  match all.getLast? with
  | none => throw .isDirectory
  | some name =>
    let place ← follow root (start cwd path) all.dropLast
    if name = ['.'] || name = ['.', '.'] then
      let _ ← step root place name
      throw .isDirectory
    else match root.get? place with
      | some (.dir _) =>
        if endsInSlash path then throw .isDirectory
        else if Text.byteLength name > maxName then throw .nameTooLong
        else return place ++ [name]
      | some (.file _) => throw .notDirectory
      | none => throw .noEntry

def ofLocation : Location → Text
  | [] => ['/']
  | place => place.flatMap fun name => '/' :: name

end Path

end CommandShell

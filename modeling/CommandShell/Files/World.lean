import CommandShell.Files.Path
import CommandShell.Text.Lines

/-!
# The world outside

What the shell works on: a tree of files, the working directory, and the calls that are bound to
fail. Calls take paths; what they answer instead of doing their work is a failure.
-/

namespace CommandShell

/-- The calls that can be made to fail. -/
inductive Call where
  | open
  | list
  | enter
  | workingDirectory
deriving DecidableEq, Repr

/-- A call that fails whenever it is made with this very path. -/
structure Fault where
  call : Call
  path : Text
  errno : Errno
deriving DecidableEq, Repr

/-- The tree of files, the working directory and the faults. -/
structure World where
  root : Node
  cwd : Location
  faults : List Fault
deriving Inhabited

/-- Why a call on a path failed: the system said so, or the path has a NUL character and the call
was never made. -/
inductive CallFailure where
  | os (error : OsError)
  | nul
deriving DecidableEq, Repr

namespace World

def fault? (w : World) (call : Call) (path : Text) : Option Errno :=
  (w.faults.find? fun fault => fault.call = call && fault.path = path).map (·.errno)

def onPath (w : World) (call : Call) (path : Text) (work : Except Errno α) :
    Except CallFailure α :=
  match w.fault? call path with
  | some errno => throw (.os ⟨errno, some path⟩)
  | none =>
    if path.contains '\x00' then throw .nul
    else match work with
      | .ok result => return result
      | .error errno => throw (.os ⟨errno, some path⟩)

def find (w : World) (path : Text) : Except Errno (Location × Node) := do
  let place ← Path.resolve w.root w.cwd path
  match w.root.get? place with
  | some node => return (place, node)
  | none => throw .noEntry

def find? (w : World) (path : Text) : Option Node :=
  if path.contains '\x00' then none
  else match w.find path with
    | .ok (_, node) => some node
    | .error _ => none

def has (w : World) (path : Text) : Bool := (w.find? path).isSome

def isDir (w : World) (path : Text) : Bool := (w.find? path).any (·.isDir)

def openToRead (w : World) (path : Text) : Except CallFailure Location :=
  w.onPath .open path do
    match ← w.find path with
    | (place, .file _) => return place
    | (_, .dir _) => throw .isDirectory

/-- Opens a file for writing: it is created, or emptied. -/
def openToWrite (w : World) (path : Text) : Except CallFailure (Location × World) :=
  w.onPath .open path do
    let place ← Path.resolveNew w.root w.cwd path
    match w.root.get? place with
    | some (.dir _) => throw .isDirectory
    | _ => return (place, { w with root := Node.put (.file .empty) place w.root })

/-- The names in a directory, in the code-point order in which it keeps them. -/
def list (w : World) (path : Text) : Except CallFailure (List Text) :=
  w.onPath .list path do
    match ← w.find path with
    | (_, .dir entries) => return entries.map (·.1)
    | (_, .file _) => throw .notDirectory

def enter (w : World) (path : Text) : Except CallFailure World :=
  w.onPath .enter path do
    match ← w.find path with
    | (place, .dir _) => return { w with cwd := place }
    | (_, .file _) => throw .notDirectory

def workingDirectory (w : World) : Except OsError Text :=
  match w.fault? .workingDirectory [] with
  | some errno => throw ⟨errno, none⟩
  | none => return Path.ofLocation w.cwd

def content (w : World) (place : Location) : ByteArray :=
  match w.root.get? place with
  | some (.file content) => content
  | _ => .empty

/-- Writes bytes over the beginning of the file at a place. -/
def overwrite (w : World) (place : Location) (bytes : ByteArray) : World :=
  let old := w.content place
  let new := bytes ++ old.extract bytes.size old.size
  { w with root := Node.put (.file new) place w.root }

end World

end CommandShell

import CommandShell.Text

/-!
# Trees of files

A directory holds entries with distinct names, kept in code-point order of the names. A place in
a tree is the list of names that leads to it from the top.
-/

namespace CommandShell

/-- A file or a directory. -/
inductive Node where
  | file (content : ByteArray)
  | dir (entries : List (Text × Node))
deriving Inhabited

abbrev Entries := List (Text × Node)

/-- The names that lead to a place from the top of a tree. -/
abbrev Location := List Text

namespace Entries

def get? (name : Text) (entries : Entries) : Option Node :=
  (entries.find? (·.1 = name)).map (·.2)

/-- Replaces or adds an entry, in its place by name. -/
def insert (name : Text) (node : Node) : Entries → Entries
  | [] => [(name, node)]
  | (other, found) :: later =>
    if other = name then (name, node) :: later
    else if Text.le other name then (other, found) :: insert name node later
    else (name, node) :: (other, found) :: later

end Entries

namespace Node

def empty : Node := dir []

def isDir : Node → Bool
  | dir _ => true
  | file _ => false

def child? (name : Text) : Node → Option Node
  | dir entries => Entries.get? name entries
  | file _ => none

def get? : Location → Node → Option Node
  | [], node => some node
  | name :: rest, node => (node.child? name).bind (get? rest)

/-- Puts a node at a place whose directory exists; elsewhere nothing changes. -/
def put (new : Node) : Location → Node → Node
  | [], _ => new
  | _ :: _, file content => file content
  | name :: rest, dir entries =>
    match Entries.get? name entries, rest with
    | some child, rest => dir (Entries.insert name (put new rest child) entries)
    | none, [] => dir (Entries.insert name new entries)
    | none, _ :: _ => dir entries

/-- Puts a node at a place, with the directories on the way to it. -/
def grow (new : Node) : Location → Node → Node
  | [], _ => new
  | _ :: _, file content => file content
  | name :: rest, dir entries =>
    dir (Entries.insert name (grow new rest ((Entries.get? name entries).getD empty)) entries)

/-- Puts a directory at a place unless one is there already. -/
def growDir (place : Location) (node : Node) : Node :=
  if (node.get? place).isSome then node else grow empty place node

mutual

def files : Node → List (Location × ByteArray)
  | file content => [([], content)]
  | dir entries => filesOf entries

def filesOf : List (Text × Node) → List (Location × ByteArray)
  | [] => []
  | (name, node) :: later =>
    (files node).map (fun (place, content) => (name :: place, content)) ++ filesOf later

end

end Node

end CommandShell

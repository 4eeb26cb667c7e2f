import CommandShell.Arguments
import CommandShell.Pattern.Wildcard

/-!
# `find`

Lists the files and directories below a directory whose paths fit a pattern. What is below a
directory comes before the directory itself. A `find` that is run again lists what it found
before once more.
-/

namespace CommandShell

/-- A `find` that is ready to run, with what it has found in earlier runs. -/
structure Find where
  path : Text
  pattern : Text
  found : List Text

namespace Find

def checkPath (w : World) : List Text → Checked Text
  | [] => return ['.']
  | [path] => if w.has path then return path else Checked.complain .findNotFound
  | _ => Checked.complain .findManyPaths

def checkPattern : List Flag → Checked Text
  | [] => return ['*']
  | [flag] =>
    if flag.name ≠ "name".toList then Checked.complain .findUnknownFlag
    else match flag.value with
      | .text pattern => return pattern
      | _ => Checked.complain .findPatternNotText
  | _ => Checked.complain .findManyFlags

/-- `find` takes one operand and one flag at most. -/
def check (w : World) (arguments : Arguments) : Checked Find := do
  let path ← checkPath w (← arguments.operands)
  let pattern ← checkPattern (← arguments.flags)
  let _ ← arguments.complete
  return { path, pattern, found := [] }

/-- What a search has found, and why it ended early. -/
structure Search where
  found : List Text
  failure : Option CallFailure

def Search.nothing : Search := ⟨[], none⟩

/-- One search after another, unless the first ended early. -/
def Search.andThen (first : Search) (second : Unit → Search) : Search :=
  match first.failure with
  | some _ => first
  | none =>
    let later := second ()
    ⟨first.found ++ later.found, later.failure⟩

mutual

def search (w : World) (pattern path : Text) : Node → Search
  | .file _ => .nothing
  | .dir entries =>
    match w.list path with
    | .error failure => ⟨[], some failure⟩
    | .ok _ => searchEntries w pattern path entries

def searchEntries (w : World) (pattern path : Text) : List (Text × Node) → Search
  | [] => .nothing
  | (name, node) :: later =>
    let item := Path.join path name
    let below := if w.isDir item then search w pattern item node else .nothing
    below.andThen fun _ =>
      let here := if Wildcard.fits (Path.join path pattern) item then [item] else []
      (Search.mk here none).andThen fun _ => searchEntries w pattern path later

end

def searchPath (w : World) (pattern path : Text) : Search :=
  match w.list path, w.find? path with
  | .error failure, _ => ⟨[], some failure⟩
  | .ok _, some node => search w pattern path node
  | .ok _, none => .nothing

/-- What a run lists: all that was found before, and what is found now. -/
def results (w : World) (find : Find) : Search :=
  let now := searchPath w find.pattern find.path
  ⟨find.found ++ now.found, now.failure⟩

/-- The `find` after a run; what was found is kept even if the search ended early. -/
def next (w : World) (find : Find) : Find := { find with found := (find.results w).found }

def run (find : Find) : Action Unit := do
  let results := find.results (← Action.world)
  match results.failure with
  | some (.os error) => Action.complain (.findFailed error)
  | some .nul => Action.crash .nulInPath
  | none =>
    if results.found.isEmpty then Action.write []
    else Action.writeEach (results.found.map (· ++ ['\n']))

end Find

end CommandShell

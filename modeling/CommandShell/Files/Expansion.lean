import CommandShell.Failure
import CommandShell.Files.World
import CommandShell.Pattern.Wildcard

/-!
# Path expansion

A path with wildcards stands for all paths in the tree that fit it. Names that begin with a dot
fit only patterns that do. The paths come in code-point order.
-/

namespace CommandShell

namespace Expansion

/-- Whether a name is left out of listings. -/
def isHidden (name : Text) : Bool := name.head? = some '.'

/-- The names in a directory; of a path that is none, there are none. -/
def entries (w : World) (path : Text) : Except Crash Entries :=
  let path := if path.isEmpty then ['.'] else path
  if path.contains '\x00' then throw .nulInPath
  else match w.find path with
    | .ok (_, .dir entries) => return entries
    | _ => return []

def fitting (w : World) (dir pattern : Text) (dirsOnly : Bool) : Except Crash (List Text) := do
  let entries ← entries w dir
  let names := (entries.filter fun (_, node) => !dirsOnly || node.isDir).map (·.1)
  let names := if isHidden pattern then names else names.filter (!isHidden ·)
  return names.filter (Wildcard.fits pattern)

/-- A name below a directory, if it is there; without a name, the directory itself. -/
def literal (w : World) (dir name : Text) : List Text :=
  if name.isEmpty then if w.isDir dir then [name] else []
  else if w.has (Path.join dir name) then [name] else []

/-- A path without wildcards, if it leads somewhere; with a slash at its end, to a directory. -/
def existing (w : World) (path : Text) : List Text :=
  let (dir, base) := Path.split path
  if if base.isEmpty then w.isDir dir else w.has path then [path] else []

/-- The paths below directories that fit the last name of a pattern. -/
def below (w : World) (dirs : List Text) (base : Text) (dirsOnly : Bool) :
    Except Crash (List Text) := do
  let found ← dirs.mapM fun dir => do
    let names ← if Wildcard.hasAny base then fitting w dir base dirsOnly
      else pure (literal w dir base)
    return names.map (Path.join dir)
  return found.flatten

/-- The paths that fit a pattern, in the order of the directories. -/
def matching (w : World) (pattern : Text) (dirsOnly : Bool) : Except Crash (List Text) :=
  let dir := (Path.split pattern).1
  let base := (Path.split pattern).2
  if !Wildcard.hasAny pattern then return existing w pattern
  else if dir.isEmpty then fitting w [] base dirsOnly
  else if dir.length < pattern.length ∧ Wildcard.hasAny dir then do
    below w (← matching w dir true) base dirsOnly
  else below w [dir] base dirsOnly
termination_by pattern.length
decreasing_by exact And.left ‹_ ∧ _›

/-- The paths that fit a pattern, in the order in which directories keep their names. -/
def paths (w : World) (pattern : Text) : Except Crash (List Text) := do
  let found ← matching w pattern false
  return found.mergeSort Text.le

end Expansion

end CommandShell

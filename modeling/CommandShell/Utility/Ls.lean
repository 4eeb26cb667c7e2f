import CommandShell.Arguments
import CommandShell.Files.Expansion

/-!
# `ls` and `pwd`

`ls` lists the names in a directory, and `pwd` the path of the working directory.
-/

namespace CommandShell

/-- An `ls` that is ready to run; it checks its arguments only then. -/
structure Ls where
  flags : List Flag
  paths : List Text

/-- Turns the crash of an output that cannot be written to into a complaint. -/
def Action.orUnwritable (work : Action Unit) (refusal : ShowFailure → Complaint) : Action Unit :=
  tryCatch work fun
    | .crash .unsupported => Action.complain (refusal .unwritable)
    | failure => throw failure

namespace Ls

/-- `ls` takes anything at first. -/
def check (arguments : Arguments) : Checked Ls := do
  let (flags, paths) ← arguments.complete
  return { flags, paths }

def directory : List Text → Action Text
  | [] => do
    match (← Action.world).workingDirectory with
    | .ok path => return path
    | .error error => Action.crash (.os error)
  | path :: _ => return path

/-- Writes the names in a directory, but for the hidden ones. -/
def writeNames (path : Text) : Action Unit := do
  let names ← Action.ofCall (fun error => .lsFailed path (.os error)) ((← Action.world).list path)
  Action.writeEach ((names.filter (!Expansion.isHidden ·)).map (· ++ ['\t']))

def run (ls : Ls) : Action Unit := do
  if ls.paths.length > 1 then Action.complain .lsManyPaths
  if !ls.flags.isEmpty then Action.complain .lsFlags
  let path ← directory ls.paths
  (writeNames path).orUnwritable (.lsFailed path)
  Action.write ['\n']

end Ls

namespace Pwd

def check (arguments : Arguments) : Checked Unit := do
  let _ ← arguments.complete

def run : Action Unit :=
  write.orUnwritable .pwdFailed
where
  /-- Writes the path of the working directory. -/
  write : Action Unit := do
    match (← Action.world).workingDirectory with
    | .ok path => Action.write (path ++ ['\n'])
    | .error error => Action.complain (.pwdFailed (.os error))

end Pwd

end CommandShell

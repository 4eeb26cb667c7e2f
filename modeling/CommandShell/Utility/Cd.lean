import CommandShell.Arguments

/-!
# `cd`

Changes the working directory. The directory is looked for before the command runs.
-/

namespace CommandShell

structure Cd where
  path : Text

namespace Cd

/-- `cd` takes one operand, which must be a directory. -/
def check (w : World) (arguments : Arguments) : Checked Cd := do
  match ← arguments.operands with
  | [path] =>
    if !w.has path then Checked.complain .cdNotFound
    if !w.isDir path then Checked.complain (.cdNotDirectory path)
    let _ ← arguments.complete
    return { path }
  | _ => Checked.complain .cdOneOption

def run (cd : Cd) : Action Unit := do
  let w ← Action.ofCall .cdFailed ((← Action.world).enter cd.path)
  modify fun scene => { scene with world := w }

end Cd

end CommandShell

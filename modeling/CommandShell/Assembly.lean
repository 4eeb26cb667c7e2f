import CommandShell.Job
import CommandShell.Plan

/-!
# Assembly

A plan becomes a job: redirects open their files, first the one to read and then the one to
write, and commands check their arguments. All parts are assembled before any of them runs.
-/

namespace CommandShell

/-- A step that works on the world and may fail; what it did before it failed stays done. -/
abbrev Shell := ExceptT Failure (StateM World)

namespace Shell

def complain (cause : Complaint) : Shell α := throw (.complaint cause)

def crash (cause : Crash) : Shell α := throw (.crash cause)

def ofChecked : Checked α → Shell α
  | .ok a => return a
  | .error failure => throw failure

def ofCall (complaint : OsError → Complaint) : Except CallFailure α → Shell α
  | .ok a => return a
  | .error (.os error) => complain (complaint error)
  | .error .nul => crash .nulInPath

end Shell

/-- Which of the two streams of a part are there. -/
structure Ports where
  input : Bool
  output : Bool
deriving DecidableEq, Repr

namespace Ports

def both : Ports := ⟨true, true⟩

def ofStreams (input output : Stream) : Ports := ⟨input.isConnected, output.isConnected⟩

end Ports

/-- Runs a job with an input, closes it, and gives what it has written. -/
def Job.outputWith (job : Job) (input : Stream) : Shell Text := do
  let outcome := job.runAndClose ⟨← get, input, .empty⟩
  set outcome.scene.world
  let _ ← Shell.ofChecked outcome.result
  return outcome.scene.output.text?.getD []

def Source.open? (path? : Option Text) : Shell (Option Source) := do
  match path? with
  | none => return none
  | some path =>
    return some (.start (← Shell.ofCall .redirectFailed ((← get).openToRead path)))

def Sink.open? (path? : Option Text) : Shell (Option Sink) := do
  match path? with
  | none => return none
  | some path =>
    let (place, w) ← Shell.ofCall .redirectFailed ((← get).openToWrite path)
    set w
    return some (.start place)

def Simple.assemble : Simple Utility → Shell Job
  | .command utility flags operands => do
    let arguments : Arguments := ⟨some flags, some operands, true⟩
    return .command (← Shell.ofChecked (Invocation.check utility arguments (← get)))
  | .redirect source sink child => do
    let source ← Source.open? source
    let sink ← Sink.open? sink
    return .redirect source sink .empty .empty (← child.assemble)

namespace Plan

/-- Connects a part to its streams. Commands and pipes refuse to be without one. -/
def connect (plan : Plan κ) (ports : Ports) : Shell Unit :=
  match plan with
  | simple _ | pipe _ _ =>
    if ports = .both then return else Shell.complain .missingArgument
  | tolerant _ | seq _ _ | forward _ _ => return

/-- Assembles a plan that has been connected. A tolerant part that cannot be assembled becomes
one that only says why. -/
def assemble : Plan Utility → Ports → Shell Job
  | simple command, _ => command.assemble
  | tolerant child, ports => do
    child.connect ports
    let job : Shell Job := return .tolerant (← child.assemble ports)
    tryCatch job fun
      | .complaint cause => return .forward cause.message 1
      | failure => throw failure
  | pipe left right, _ => do
    left.connect .both
    right.connect .both
    return .pipe (← left.assemble .both) (← right.assemble .both) .empty
  | seq left right, ports => do
    let later : Ports := { ports with input := true }
    left.connect ports
    right.connect later
    return .seq (← left.assemble ports) (← right.assemble later) .empty
  | forward text status, _ => return .forward text status

def build (plan : Plan Utility) (ports : Ports) : Shell Job := do
  plan.connect ports
  plan.assemble ports

/-- The input of a plan that was given none: a sequence has one that cannot be read, and all
others have an empty one. -/
def usualInput : Plan κ → Stream
  | seq _ _ => .bare false
  | _ => .empty

end Plan

end CommandShell

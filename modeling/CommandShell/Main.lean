import CommandShell.Session

/-!
# The program

Reads what the user types and writes the answers. The files live in a tree of the program's own,
which is empty when it starts.
-/

namespace CommandShell.Program

def startWorld : World := { root := .empty, cwd := [], faults := [] }

def write (output errors : Text) : IO Unit := do
  IO.print (String.ofList output)
  IO.eprint (String.ofList errors)
  (← IO.getStdout).flush

def failureText : Failure → Text
  | .complaint cause => cause.report.render
  | .crash cause => cause.message?.getD "the shell has crashed".toList

def finish : Session.Ending → IO UInt32
  | .finished => return 0
  | .exited status => return status.toUInt32
  | .failed failure => do
    write [] (failureText failure ++ ['\n'])
    return 1

partial def converse (input : IO.FS.Stream) (w : World) : IO UInt32 := do
  match Session.prompt w with
  | .error error => finish (.failed (.crash (.os error)))
  | .ok prompt =>
    write prompt []
    let line ← input.getLine
    if line.isEmpty then finish (.failed (.crash .endOfInput))
    else
      let (answer, w) := Session.respond w (.line (Text.withoutLineEnd line.toList))
      write answer.output answer.errors
      match answer.failure with
      | some failure => finish (Session.endingOf failure)
      | none => converse input w

def run : List String → IO UInt32
  | [] => do converse (← IO.getStdin) startWorld
  | arguments => do
    let (transcript, _) := Session.start (arguments.map String.toList) [] startWorld
    write transcript.output transcript.errors
    finish transcript.ending

end CommandShell.Program

def main (arguments : List String) : IO UInt32 := CommandShell.Program.run arguments

import CommandShell.Line.Substitution

/-!
# Sessions

A line is evaluated against an input. Its output counts only if it succeeds, and a complaint is
reported; a wish to leave, and a crash, are handed on. A session answers what a user does at the
prompt until it ends.
-/

namespace CommandShell

/-- What has been written, and the failure that nothing has handled. -/
structure Evaluation where
  output : Text
  errors : Text
  failure : Option Failure

namespace Evaluation

def outputOf (line input : Text) : Shell Text := do
  let plan ← Line.planOf Line.utilities line
  let job ← plan.build .both
  job.outputWith (.ofText input)

def reportLine (cause : Complaint) : Text := cause.report.render ++ ['\n']

/-- What is left of the result of a line once complaints have been reported. -/
def ofResult : Except Failure Text → Evaluation
  | .ok output => ⟨output, [], none⟩
  | .error (.complaint .exit) => ⟨[], [], some (.complaint .exit)⟩
  | .error (.complaint cause) => ⟨[], reportLine cause, none⟩
  | .error (.crash cause) => ⟨[], [], some (.crash cause)⟩

def evaluate (line input : Text) (w : World) : Evaluation × World :=
  let (result, w) := (outputOf line input).run.run w
  (ofResult result, w)

end Evaluation

namespace Session

/-- What a user does at the prompt: type a line, or interrupt. -/
inductive Typed where
  | line (text : Text)
  | interrupt

/-- How a session ends. -/
inductive Ending where
  | finished
  | exited (status : Nat)
  | failed (failure : Failure)

/-- What a session has written, and how it ended. -/
structure Transcript where
  output : Text
  errors : Text
  ending : Ending

def Transcript.after (output errors : Text) (t : Transcript) : Transcript :=
  { t with output := output ++ t.output, errors := errors ++ t.errors }

def prompt (w : World) : Except OsError Text :=
  w.workingDirectory.map (· ++ "> ".toList)

def respond (w : World) : Typed → Evaluation × World
  | .line text => Evaluation.evaluate text [] w
  | .interrupt => (⟨"^C\n".toList, [], none⟩, w)

def endingOf : Failure → Ending
  | .complaint .exit => .exited 0
  | failure => .failed failure

/-- Answers what a user does until they leave, something fails, or there is no more. -/
def interact (typed : List Typed) (w : World) : Transcript × World :=
  match prompt w with
  | .error error => (⟨[], [], .failed (.crash (.os error))⟩, w)
  | .ok prompt =>
    match typed with
    | [] => (⟨prompt, [], .failed (.crash .endOfInput)⟩, w)
    | first :: later =>
      let (answer, w) := respond w first
      let output := prompt ++ answer.output
      match answer.failure with
      | some failure => (⟨output, answer.errors, endingOf failure⟩, w)
      | none =>
        let (rest, w) := interact later w
        (rest.after output answer.errors, w)

/-- Evaluates a single line. Here a wish to leave is a failure like any other. -/
def once (line : Text) (w : World) : Transcript × World :=
  let (answer, w) := Evaluation.evaluate line [] w
  let ending := match answer.failure with
    | none => Ending.finished
    | some failure => .failed failure
  (⟨answer.output, answer.errors, ending⟩, w)

/-- Starts a session with the arguments of the program: a line after `-c`, or nothing, and then
the user is asked for lines. -/
def start (arguments : List Text) (typed : List Typed) (w : World) : Transcript × World :=
  match arguments with
  | [] => interact typed w
  | [option, line] =>
    if option = "-c".toList then once line w
    else (⟨[], [], .failed (.crash (.unexpectedArgument option))⟩, w)
  | _ => (⟨[], [], .failed (.crash .argumentCount)⟩, w)

end Session

end CommandShell

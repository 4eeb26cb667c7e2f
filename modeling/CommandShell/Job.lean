import CommandShell.Invocation

/-!
# Jobs

A job is a plan with its files open and its streams in place. It runs, possibly more than once,
and is closed in the end; what was written to a file appears in the file only then. A job carries
its inner streams with it, and works on an input and an output that belong to others. Two limits
are left out: all text waits for its file to be closed, also if a buffer of 8192 bytes would not
hold it, and jobs may be nested as deeply as one likes.
-/

namespace CommandShell

/-- A file open for reading. -/
structure Source where
  place : Location
  offset : Nat
  closed : Bool

/-- A file open for writing, with the text that waits to be written. -/
structure Sink where
  place : Location
  pending : Text
  closed : Bool

/-- A plan that is ready to run. -/
inductive Job where
  | command (invocation : Invocation)
  /-- a command with streams of its own, which are filled from `source` and emptied into `sink`,
  or from and into those of the job -/
  | redirect (source : Option Source) (sink : Option Sink) (input output : Stream) (child : Job)
  | tolerant (child : Job)
  /-- two jobs with a stream between them -/
  | pipe (left right : Job) (middle : Stream)
  /-- one job after another, which has an input of its own -/
  | seq (left right : Job) (input : Stream)
  | forward (text : Text) (status : Int)

/-- How a job ended, and what it and its surroundings are now. -/
structure Outcome (α : Type) where
  result : Except Failure α
  job : Job
  scene : Scene

namespace Source

def start (place : Location) : Source := ⟨place, 0, false⟩

def hasNoMore (source : Source) (w : World) : Bool := (w.content source.place).size ≤ source.offset

/-- Reads all that is left; if it cannot be decoded, it is gone all the same. -/
def read (source : Source) (w : World) : Except Crash Text × Source :=
  let bytes := w.content source.place
  let text := match Content.text? (bytes.extract source.offset bytes.size) with
    | some text => .ok text
    | none => .error .notUtf8
  (text, { source with offset := bytes.size })

end Source

namespace Sink

def start (place : Location) : Sink := ⟨place, [], false⟩

def write (sink : Sink) (text : Text) : Sink := { sink with pending := sink.pending ++ text }

/-- Closes a file: what waits is written over its beginning. -/
def close (sink : Sink) (w : World) : Sink × World :=
  if sink.closed then (sink, w)
  else ({ sink with closed := true }, w.overwrite sink.place (Content.ofText sink.pending))

end Sink

namespace Job

/-- Closes a stream; the result says whether that was possible. -/
def closeStream (stream : Stream) : Except Failure Unit × Stream :=
  match stream.close with
  | .ok closed => (.ok (), closed)
  | .error cause => (.error (.crash cause), stream)

def closeBoth (scene : Scene) : Except Failure Unit × Scene :=
  match closeStream scene.input with
  | (.error failure, _) => (.error failure, scene)
  | (.ok (), input) =>
    let (result, output) := closeStream scene.output
    (result, { scene with input, output })

def closeOutput (scene : Scene) : Except Failure Unit × Scene :=
  let (result, output) := closeStream scene.output
  (result, { scene with output })

/-- Closes what a redirect reads from: its file, or the input. -/
def closeSource (source : Option Source) (scene : Scene) :
    Except Failure Unit × Option Source × Scene :=
  match source with
  | some file => (.ok (), some { file with closed := true }, scene)
  | none =>
    let (result, input) := closeStream scene.input
    (result, none, { scene with input })

/-- Closes what a redirect writes to: its file, or the output. -/
def closeSink (sink : Option Sink) (scene : Scene) : Except Failure Unit × Option Sink × Scene :=
  match sink with
  | some file =>
    let (file, world) := file.close scene.world
    (.ok (), some file, { scene with world })
  | none =>
    let (result, output) := closeStream scene.output
    (result, none, { scene with output })

/-- Closes a job with all it uses. A redirect leaves what is inside it alone. -/
def close : Job → Scene → Outcome Unit
  | command invocation, scene =>
    let (result, scene) := closeBoth scene
    ⟨result, command invocation, scene⟩
  | redirect source sink input output child, scene =>
    let (first, source, scene) := closeSource source scene
    match first with
    | .error failure => ⟨.error failure, redirect source sink input output child, scene⟩
    | .ok () =>
      let (result, sink, scene) := closeSink sink scene
      ⟨result, redirect source sink input output child, scene⟩
  | tolerant child, scene =>
    let inner := child.close scene
    match inner.result with
    | .error failure => ⟨.error failure, tolerant inner.job, inner.scene⟩
    | .ok () =>
      let (result, scene) := closeOutput inner.scene
      ⟨result, tolerant inner.job, scene⟩
  | pipe left right middle, scene =>
    let first := left.close { scene with output := middle }
    let scene := { first.scene with output := scene.output }
    let middle := first.scene.output
    match first.result with
    | .error failure => ⟨.error failure, pipe first.job right middle, scene⟩
    | .ok () =>
      let second := right.close { scene with input := middle }
      ⟨second.result, pipe first.job second.job second.scene.input,
        { second.scene with input := scene.input }⟩
  | seq left right input, scene =>
    let first := left.close scene
    match first.result with
    | .error failure => ⟨.error failure, seq first.job right input, first.scene⟩
    | .ok () =>
      let second := right.close { first.scene with input }
      ⟨second.result, seq first.job second.job second.scene.input,
        { second.scene with input := first.scene.input }⟩
  | forward text status, scene =>
    let (result, scene) := closeOutput scene
    ⟨result, forward text status, scene⟩

def anyClosed (source : Option Source) (sink : Option Sink) (input output : Stream)
    (scene : Scene) : Bool :=
  (match source with
    | some file => file.closed
    | none => scene.input.isClosed) ||
  (match sink with
    | some file => file.closed
    | none => scene.output.isClosed) || input.isClosed || output.isClosed

def sourceIsEmpty (source : Option Source) (scene : Scene) : Except Crash Bool :=
  match source with
  | some file => return file.hasNoMore scene.world
  | none => scene.input.hasNoMore

def readSource (source : Option Source) (scene : Scene) :
    Except Crash Text × Option Source × Scene :=
  match source with
  | some file =>
    let (text, file) := file.read scene.world
    (text, some file, scene)
  | none =>
    match scene.input.read with
    | .ok (text, input) => (.ok text, none, { scene with input })
    | .error cause => (.error cause, none, scene)

/-- Writes a text at the position of a stream and stays there. -/
def place (text : Text) (stream : Stream) : Except Crash Stream := do
  let position ← stream.tell
  (← stream.write text).seek position

def fill (source : Option Source) (input : Stream) (scene : Scene) :
    Except Crash Stream × Option Source × Scene :=
  match sourceIsEmpty source scene with
  | .error cause => (.error cause, source, scene)
  | .ok true => (.ok input, source, scene)
  | .ok false =>
    let (text, source, scene) := readSource source scene
    (text.bind (place · input), source, scene)

/-- Writes a text to the file of a redirect, or to the output. -/
def writeSink (text : Text) (sink : Option Sink) (scene : Scene) :
    Except Crash (Option Sink × Scene) :=
  match sink with
  | some file => return (some (file.write text), scene)
  | none => return (none, { scene with output := ← scene.output.write text })

/-- Empties the output of a redirect from a position on. -/
def drain (output : Stream) (position : Nat) (sink : Option Sink) (scene : Scene) :
    Except Crash (Stream × Option Sink × Scene) := do
  let output ← output.seek position
  if ← output.hasNoMore then return (output, sink, scene)
  else
    let (text, output) ← output.read
    let (sink, scene) ← writeSink text sink scene
    return (output, sink, scene)

/-- Passes on what the command of a redirect has written, unless it failed. -/
def passOn (inner : Outcome Int) (position : Nat) (sink : Option Sink) (scene : Scene) :
    Except Failure Int × Stream × Option Sink × Scene :=
  match inner.result with
  | .error failure => (.error failure, inner.scene.output, sink, scene)
  | .ok status =>
    match drain inner.scene.output position sink scene with
    | .error cause => (.error (.crash cause), inner.scene.output, sink, scene)
    | .ok (output, sink, scene) => (.ok status, output, sink, scene)

/-- What a redirect does once its command has run: it passes on the output and closes the
command. -/
def finish (source : Option Source) (sink : Option Sink) (position : Nat) (scene : Scene)
    (inner : Outcome Int) : Outcome Int :=
  let scene := { scene with world := inner.scene.world }
  let (result, output, sink, scene) := passOn inner position sink scene
  let closed := inner.job.close ⟨scene.world, inner.scene.input, output⟩
  { result := closed.result.bind fun () => result
    job := redirect source sink closed.scene.input closed.scene.output closed.job
    scene := { scene with world := closed.scene.world } }

def run : Job → Scene → Outcome Int
  | command invocation, scene =>
    let (result, after) := invocation.run.run scene
    ⟨result.map fun _ => 0, command (invocation.next scene.world), after⟩
  | redirect source sink input output child, scene =>
    if anyClosed source sink input output scene then
      ⟨.error (.complaint .redirectClosed), redirect source sink input output child, scene⟩
    else
      let (filled, source, scene) := fill source input scene
      match filled, output.tell with
      | .error cause, _ | _, .error cause =>
        ⟨.error (.crash cause), redirect source sink input output child, scene⟩
      | .ok input, .ok position =>
        finish source sink position scene (child.run ⟨scene.world, input, output⟩)
  | tolerant child, scene =>
    let inner := child.run scene
    match inner.result with
    | .error (.complaint cause) =>
      match inner.scene.output.write (cause.message ++ ['\n']) with
      | .error cause => ⟨.error (.crash cause), tolerant inner.job, inner.scene⟩
      | .ok output => ⟨.ok 1, tolerant inner.job, { inner.scene with output }⟩
    | result => ⟨result, tolerant inner.job, inner.scene⟩
  | pipe left right middle, scene =>
    let first := left.run { scene with output := middle }
    let scene := { first.scene with output := scene.output }
    let middle := first.scene.output
    match first.result, middle.seek 0 with
    | .error failure, _ => ⟨.error failure, pipe first.job right middle, scene⟩
    | .ok _, .error cause => ⟨.error (.crash cause), pipe first.job right middle, scene⟩
    | .ok _, .ok middle =>
      let second := right.run { scene with input := middle }
      ⟨second.result.map fun _ => 0, pipe first.job second.job second.scene.input,
        { second.scene with input := scene.input }⟩
  | seq left right input, scene =>
    let first := left.run scene
    match first.result with
    | .error failure => ⟨.error failure, seq first.job right input, first.scene⟩
    | .ok _ =>
      let second := right.run { first.scene with input }
      ⟨second.result.map fun _ => 0, seq first.job second.job second.scene.input,
        { second.scene with input := first.scene.input }⟩
  | forward text status, scene =>
    match scene.output.write (text ++ ['\n']) with
    | .error cause => ⟨.error (.crash cause), forward text status, scene⟩
    | .ok output => ⟨.ok status, forward text status, { scene with output }⟩

/-- Runs a job and closes it, whether it succeeds or not. -/
def runAndClose (job : Job) (scene : Scene) : Outcome Int :=
  let ran := job.run scene
  let closed := ran.job.close ran.scene
  { closed with result := closed.result.bind fun () => ran.result }

end Job

end CommandShell

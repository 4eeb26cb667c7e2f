import CommandShell.Assembly
import CommandShell.Proofs.Utility.Actions

/-!
# What jobs leave alone

Like the commands in it, a job writes the same whatever stream it writes to. Closing a job does not
depend on its output at all. A job without `cd` and without files to write leaves the world as it
is.
-/

namespace CommandShell

namespace Job

/-- Whether the inner streams of a job have not been used yet. -/
def Fresh : Job → Prop
  | command _ => True
  | redirect _ _ input output child => input = .empty ∧ output = .empty ∧ child.Fresh
  | tolerant child => child.Fresh
  | pipe left right middle => left.Fresh ∧ right.Fresh ∧ middle = .empty
  | seq left right input => left.Fresh ∧ right.Fresh ∧ input = .empty
  | forward _ _ => True

/-- Whether the streams between the parts of a job are there. -/
def Connected : Job → Prop
  | command _ => True
  | redirect _ _ _ _ _ => True
  | tolerant child => child.Connected
  | pipe left right middle => left.Connected ∧ right.Connected ∧ middle.isConnected = true
  | seq left right input => left.Connected ∧ right.Connected ∧ input.isConnected = true
  | forward _ _ => True

def writes : Job → Bool
  | command _ => false
  | redirect _ sink _ _ child => sink.isSome || child.writes
  | tolerant child => child.writes
  | pipe left right _ => left.writes || right.writes
  | seq left right _ => left.writes || right.writes
  | forward _ _ => false

def moves : Job → Bool
  | command invocation => invocation.moves
  | redirect _ _ _ _ child => child.moves
  | tolerant child => child.moves
  | pipe left right _ => left.moves || right.moves
  | seq left right _ => left.moves || right.moves
  | forward _ _ => false

variable {job : Job} {output : Stream}

theorem Fresh.connected (h : job.Fresh) : job.Connected := by
  induction job with
  | command invocation => trivial
  | redirect source sink input output child ih => trivial
  | tolerant child ih => exact ih h
  | pipe left right middle ihl ihr | seq left right input ihl ihr =>
    exact ⟨ihl h.1, ihr h.2.1, h.2.2 ▸ rfl⟩
  | forward text status => trivial

/-! ## Closing -/

/-- A stream once it has been closed, if it can be. -/
def closed : Stream → Stream
  | .memory text position _ => .memory text position true
  | .bare _ => .bare true
  | .missing => .missing

@[simp] theorem isConnected_closed (stream : Stream) :
    (closed stream).isConnected = stream.isConnected := by
  cases stream <;> rfl

@[simp] theorem text?_closed (stream : Stream) : (closed stream).text? = stream.text? := by
  cases stream <;> rfl

theorem closeStream_of_isConnected {stream : Stream} (h : stream.isConnected = true) :
    closeStream stream = (.ok (), closed stream) := by
  cases stream with
  | memory text position closed => rfl
  | bare closed => rfl
  | missing => cases h

/-- The world once a job has been closed: what waits for its files has been written. -/
def closing : Job → World → World
  | command _, w => w
  | redirect _ none _ _ _, w => w
  | redirect _ (some file) _ _ _, w => (file.close w).2
  | tolerant child, w => child.closing w
  | pipe left right _, w => right.closing (left.closing w)
  | seq left right _, w => right.closing (left.closing w)
  | forward _ _, w => w

/-- Closing succeeds, and all that others see of it is `closing`. -/
theorem close_eq (hjob : job.Connected) (scene : Scene) (hinput : scene.input.isConnected = true)
    (houtput : scene.output.isConnected = true) :
    (job.close scene).result = .ok () ∧
      (job.close scene).scene.world = job.closing scene.world ∧
      (job.close scene).scene.input.isConnected = true ∧
      (job.close scene).scene.output.isConnected = true ∧
      (job.close scene).scene.output.text? = scene.output.text? := by
  induction job generalizing scene with
  | command invocation =>
    simp [close, closeBoth, closeStream_of_isConnected hinput,
      closeStream_of_isConnected houtput, closing, hinput, houtput]
  | redirect source sink input output child ih =>
    cases source <;> cases sink <;>
      simp [close, closeSource, closeSink, closeStream_of_isConnected hinput,
        closeStream_of_isConnected houtput, closing, hinput, houtput]
  | tolerant child ih =>
    obtain ⟨hresult, hworld, hin, hout, htext⟩ := ih hjob scene hinput houtput
    simp [close, hresult, closeOutput, closeStream_of_isConnected hout, closing, hworld, hin,
      hout, htext]
  | pipe left right middle ihl ihr =>
    obtain ⟨hresult, hworld, hin, hout, -⟩ :=
      ihl hjob.1 { scene with output := middle } hinput hjob.2.2
    obtain ⟨hresult', hworld', -, hout', htext'⟩ :=
      ihr hjob.2.1 ⟨(left.close { scene with output := middle }).scene.world,
        (left.close { scene with output := middle }).scene.output, scene.output⟩ hout houtput
    simp only [close, hresult]
    exact ⟨hresult', by rw [hworld', hworld]; rfl, hin, hout', htext'⟩
  | seq left right input ihl ihr =>
    obtain ⟨hresult, hworld, hin, hout, htext⟩ := ihl hjob.1 scene hinput houtput
    obtain ⟨hresult', hworld', -, hout', htext'⟩ :=
      ihr hjob.2.1 ⟨(left.close scene).scene.world, input, (left.close scene).scene.output⟩ hjob.2.2 hout
    simp only [close, hresult]
    exact ⟨hresult', by rw [hworld', hworld]; rfl, hin, hout', htext'.trans htext⟩
  | forward text status =>
    simp [close, closeOutput, closeStream_of_isConnected houtput, closing, hinput, houtput]

theorem closing_of_writes (h : job.writes = false) (w : World) : job.closing w = w := by
  induction job generalizing w with
  | command invocation => rfl
  | redirect source sink input output child ih =>
    cases sink with
    | none => rfl
    | some file => cases h
  | tolerant child ih => exact ih h w
  | pipe left right middle ihl ihr | seq left right input ihl ihr =>
    rw [writes, Bool.or_eq_false_iff] at h
    rw [closing, ihl h.1, ihr h.2]
  | forward text status => rfl

/-! ## Running -/

/-- How a job runs, whatever stream it writes to. -/
structure Runs (job : Job) (w : World) (input : Stream) (result : Except Failure Int) (job' : Job)
    (w' : World) (input' : Stream) (added : Text) : Prop where
  run_pour : ∀ output, output.isWritable = true →
    job.run ⟨w, input, output⟩ = ⟨result, job', ⟨w', input', output.pour added⟩⟩
  keeps : input.Keeps input'
  connected : job'.Connected
  closing_eq : job.writes = false → ∀ w, job'.closing w = w
  world_eq : job.writes = false → job.moves = false → w' = w

section Runs

variable {job job' : Job} {w w' : World} {input input' : Stream} {added : Text}
  {result : Except Failure Int} (h : job.Runs w input result job' w' input' added)
include h

theorem Runs.isOpen : input.isOpen = true → input'.isOpen = true := h.keeps.isOpen

/-- Where the output has been written from beginning to end, a job adds to that end. -/
theorem Runs.run_eq (text : Text) : job.run ⟨w, input, .ended text⟩ =
    ⟨result, job', ⟨w', input', .ended (text ++ added)⟩⟩ := by
  rw [h.run_pour _ (Stream.isWritable_ended text), Stream.pour_ended]

theorem Runs.eq_of_run {job'' : Job} {w'' : World} {input'' : Stream}
    {result' : Except Failure Int} {added' : Text}
    (hrun : ∀ output, output.isWritable = true →
      job.run ⟨w, input, output⟩ = ⟨result', job'', ⟨w'', input'', output.pour added'⟩⟩) :
    result = result' ∧ job' = job'' ∧ w' = w'' ∧ added = added' := by
  have hsame := (h.run_eq []).symm.trans (hrun (.ended []) rfl)
  rw [Stream.pour_ended] at hsame
  simp only [Outcome.mk.injEq, Scene.mk.injEq, Stream.ended, Stream.memory.injEq] at hsame
  exact ⟨hsame.1, hsame.2.1, hsame.2.2.1, hsame.2.2.2.2.1⟩

end Runs

/-- A job writes to its output and leaves its input open. -/
def Appends (job : Job) : Prop :=
  ∀ w input, ∃ result job' w' input' added, job.Runs w input result job' w' input' added

theorem isConnected_of_isOpen {stream : Stream} (h : stream.isOpen = true) :
    stream.isConnected = true := by
  cases stream with
  | memory text position closed => rfl
  | bare closed => rfl
  | missing => cases h

theorem drain_ended (new : Text) (sink : Option Sink) (w : World) (input : Stream)
    (houtput : output.isWritable = true) :
    drain (.ended new) 0 sink ⟨w, input, output⟩ =
      .ok (.ended new, sink.map (·.write new),
        ⟨w, input, output.pour (if sink.isSome then [] else new)⟩) := by
  cases new with
  | nil => cases sink <;> simp [drain, Stream.ended, Stream.seek, Stream.hasNoMore, bind, Except.bind, pure, Except.pure, Sink.write]
  | cons c new =>
    cases sink <;> simp [drain, writeSink, Stream.write_of_isWritable houtput, Stream.ended, Stream.seek, Stream.hasNoMore, Stream.read, bind, Except.bind, pure, Except.pure]

@[simp] theorem place_empty (text : Text) : place text .empty = .ok (.ofText text) := by
  cases text with
  | nil => rfl
  | cons c text =>
    simp [place, Stream.empty, Stream.ofText, Stream.tell, Stream.write, Stream.overwrite,
      Stream.seek, bind, Except.bind, pure, Except.pure]

theorem fill_empty (source : Option Source) (w : World) (input : Stream) :
    ∃ (filled : Except Crash Text) (source' : Option Source) (input' : Stream),
      input.Keeps input' ∧
      ∀ output, fill source .empty ⟨w, input, output⟩ =
        (filled.map .ofText, source', ⟨w, input', output⟩) := by
  unfold fill
  cases source with
  | some file =>
    by_cases hmore : file.hasNoMore w = true
    · exact ⟨.ok [], some file, input, .refl input, fun output => by
        simp [sourceIsEmpty, hmore, pure, Except.pure]; rfl⟩
    · refine ⟨(file.read w).1, some (file.read w).2, input, .refl input, fun output => ?_⟩
      cases hread : (file.read w).1 <;>
        simp [sourceIsEmpty, hmore, readSource, hread, pure, Except.pure, Except.bind, Except.map]
  | none =>
    cases hmore : input.hasNoMore with
    | error cause =>
      exact ⟨.error cause, none, input, .refl input, fun output => by
        simp [sourceIsEmpty, hmore, Except.map]⟩
    | ok done =>
      cases done with
      | true => exact ⟨.ok [], none, input, .refl input, fun output => by
        simp [sourceIsEmpty, hmore]; rfl⟩
      | false =>
        cases hread : input.read with
        | error cause =>
          exact ⟨.error cause, none, input, .refl input, fun output => by
            simp [sourceIsEmpty, hmore, readSource, hread, Except.bind, Except.map]⟩
        | ok x =>
          refine ⟨.ok x.1, none, x.2, .of_isOpen (Stream.moves_read.isOpen hread) input,
            fun output => ?_⟩
          simp [sourceIsEmpty, hmore, readSource, hread, Except.bind, Except.map]

theorem run_command (invocation : Invocation) (scene : Scene) :
    (command invocation).run scene = ⟨(invocation.run.on scene).1.map fun _ => 0,
      command (invocation.next scene.world), (invocation.run.on scene).2⟩ := rfl

theorem appends_command (invocation : Invocation) : (command invocation).Appends := by
  intro w input
  obtain ⟨result, w', input', added, hkeeps, hon⟩ := invocation.appends_run w input
  refine ⟨result.map fun _ => 0, command (invocation.next w), w', input', added,
    ⟨fun output houtput => ?_, hkeeps, trivial, fun _ _ => rfl, fun _ hmoves => ?_⟩⟩
  · rw [run_command, hon output houtput]
  · obtain ⟨_, _, _, _, hsteady⟩ := Invocation.steady_run hmoves w input
    have h := (hon .empty rfl).symm.trans (hsteady .empty rfl)
    simp only [Prod.mk.injEq, Scene.mk.injEq] at h
    exact h.2.1

theorem anyClosed_of_isOpen {source : Option Source} {sink : Option Sink} {input : Stream}
    (hsource : ∀ file ∈ source, file.closed = false) (hsink : ∀ file ∈ sink, file.closed = false)
    (hinput : input.isOpen = true) (houtput : output.isWritable = true) (w : World) :
    anyClosed source sink .empty .empty ⟨w, input, output⟩ = false := by
  have hin : input.isClosed = false := by
    simpa using (Bool.and_eq_true_iff.1 hinput).2
  have hout : output.isClosed = false := by
    simpa using (Bool.and_eq_true_iff.1 (Stream.isOpen_of_isWritable houtput)).2
  have hempty : Stream.empty.isClosed = false := rfl
  cases source <;> cases sink <;> simp_all [anyClosed]

theorem anyClosed_of_isWritable (source : Option Source) (sink : Option Sink) (w : World)
    (input : Stream) (houtput : output.isWritable = true) :
    anyClosed source sink .empty .empty ⟨w, input, output⟩ =
      anyClosed source sink .empty .empty ⟨w, input, .empty⟩ := by
  obtain ⟨text, position, rfl⟩ := Stream.exists_memory_of_isWritable houtput
  cases sink <;> rfl

section Finish

variable {child : Job} (hchild : child.Connected) {inner : Stream}
  (hinner : inner.isConnected = true) (source : Option Source) (sink : Option Sink)
  (w w' : World) (input : Stream) (new : Text)
include hchild hinner

theorem finish_error (failure : Failure) : ∃ stream stream' child', ∀ output,
    finish source sink 0 ⟨w, input, output⟩ ⟨.error failure, child, ⟨w', inner, .ended new⟩⟩ =
      ⟨.error failure, redirect source sink stream stream' child',
        ⟨child.closing w', input, output⟩⟩ := by
  obtain ⟨hresult, hworld, -, -, -⟩ := close_eq hchild ⟨w', inner, .ended new⟩ hinner rfl
  generalize hclosed : child.close ⟨w', inner, .ended new⟩ = closed at hresult hworld
  refine ⟨closed.scene.input, closed.scene.output, closed.job, fun output => ?_⟩
  simp only [finish, passOn, hclosed, hresult, hworld, Except.bind]

/-- What a redirect does once its command has run and has left what it wrote in its output. -/
theorem finish_ok (status : Int) : ∃ stream stream' child', ∀ output,
    output.isWritable = true →
      finish source sink 0 ⟨w, input, output⟩ ⟨.ok status, child, ⟨w', inner, .ended new⟩⟩ =
        ⟨.ok status, redirect source (sink.map (·.write new)) stream stream' child',
          ⟨child.closing w', input, output.pour (if sink.isSome then [] else new)⟩⟩ := by
  obtain ⟨hresult, hworld, -, -, -⟩ := close_eq hchild ⟨w', inner, .ended new⟩ hinner rfl
  generalize hclosed : child.close ⟨w', inner, .ended new⟩ = closed at hresult hworld
  refine ⟨closed.scene.input, closed.scene.output, closed.job, fun output houtput => ?_⟩
  simp only [finish, passOn, drain_ended new sink w' input houtput, hclosed, hresult, hworld,
    Except.bind]

/-- A redirect ends as its command does, and goes on with the same file. -/
theorem finish_ended (result : Except Failure Int) :
    ∃ sink' stream stream' child' added,
      sink'.map (fun file => (file.place, file.closed)) =
        sink.map (fun file => (file.place, file.closed)) ∧
      ∀ output, output.isWritable = true →
        finish source sink 0 ⟨w, input, output⟩ ⟨result, child, ⟨w', inner, .ended new⟩⟩ =
          ⟨result, redirect source sink' stream stream' child',
            ⟨child.closing w', input, output.pour added⟩⟩ := by
  cases result with
  | error failure =>
    obtain ⟨stream, stream', child', h⟩ :=
      finish_error hchild hinner source sink w w' input new failure
    refine ⟨sink, stream, stream', child', [], rfl, fun output _ => ?_⟩
    rw [h, Stream.pour_nil]
  | ok status =>
    obtain ⟨stream, stream', child', h⟩ :=
      finish_ok hchild hinner source sink w w' input new status
    refine ⟨sink.map (·.write new), stream, stream', child', _, ?_, h⟩
    rw [Option.map_map]
    rfl

end Finish

theorem closing_redirect {source : Option Source} {sink : Option Sink} {input : Stream}
    {child : Job} (h : sink.isSome = false) (w : World) :
    (redirect source sink input output child).closing w = w := by
  cases sink with
  | none => rfl
  | some file => cases h

theorem Appends.redirect {child : Job} (hchild : child.Appends) (source : Option Source)
    (sink : Option Sink) : (redirect source sink .empty .empty child).Appends := by
  intro w input
  have hstays : ∀ source', (Job.redirect source sink .empty .empty child).writes = false →
      ∀ w, (Job.redirect source' sink .empty .empty child).closing w = w := fun _ h w =>
    closing_redirect (Bool.or_eq_false_iff.1 h).1 w
  by_cases hclosed : anyClosed source sink .empty .empty ⟨w, input, .empty⟩ = true
  · refine ⟨.error (.complaint .redirectClosed), .redirect source sink .empty .empty child, w,
      input, [], ⟨fun output houtput => ?_, .refl input, trivial, hstays source, fun _ _ => rfl⟩⟩
    rw [run, anyClosed_of_isWritable _ _ _ _ houtput, if_pos hclosed, Stream.pour_nil]
  · obtain ⟨filled, source', input', hkeeps, hfill⟩ := fill_empty source w input
    cases filled with
    | error cause =>
      refine ⟨.error (.crash cause), .redirect source' sink .empty .empty child, w, input', [],
        ⟨fun output houtput => ?_, hkeeps, trivial, hstays source', fun _ _ => rfl⟩⟩
      rw [run, anyClosed_of_isWritable _ _ _ _ houtput, if_neg hclosed, hfill, Stream.pour_nil]
      rfl
    | ok held =>
      obtain ⟨result, child', w', inner, new, h⟩ := hchild w (.ofText held)
      have hinner := isConnected_of_isOpen (h.isOpen rfl)
      obtain ⟨sink', stream, stream', child'', added, hsink, hfinish⟩ :=
        finish_ended h.connected hinner source' sink w w' input' new result
      refine ⟨result, .redirect source' sink' stream stream' child'', child'.closing w', input',
        added, ⟨fun output houtput => ?_, hkeeps, trivial, fun hwrites => ?_,
          fun hwrites hmoves => ?_⟩⟩
      · have hrun : child.run ⟨w, .ofText held, .empty⟩ =
            ⟨result, child', ⟨w', inner, .ended new⟩⟩ := h.run_eq []
        rw [run, anyClosed_of_isWritable _ _ _ _ houtput, if_neg hclosed, hfill,
          ← hfinish output houtput, ← hrun]
        rfl
      · have hnone := congrArg Option.isSome hsink
        rw [Option.isSome_map, Option.isSome_map] at hnone
        exact closing_redirect (hnone.trans (Bool.or_eq_false_iff.1 hwrites).1)
      · obtain ⟨-, hwrites⟩ := Bool.or_eq_false_iff.1 hwrites
        rw [h.closing_eq hwrites, h.world_eq hwrites hmoves]

theorem Appends.tolerant {child : Job} (hchild : child.Appends) : (tolerant child).Appends := by
  intro w input
  obtain ⟨result, child', w', input', added, h⟩ := hchild w input
  rcases result with (cause | cause) | status
  · refine ⟨.ok 1, .tolerant child', w', input', added ++ (cause.message ++ ['\n']),
      ⟨fun output houtput => ?_, h.keeps, h.connected, h.closing_eq, h.world_eq⟩⟩
    simp only [run, h.run_pour output houtput,
      Stream.write_of_isWritable (Stream.isWritable_pour houtput added), Stream.pour_pour houtput]
  · refine ⟨.error (.crash cause), .tolerant child', w', input', added,
      ⟨fun output houtput => ?_, h.keeps, h.connected, h.closing_eq, h.world_eq⟩⟩
    simp only [run, h.run_pour output houtput]
  · refine ⟨.ok status, .tolerant child', w', input', added,
      ⟨fun output houtput => ?_, h.keeps, h.connected, h.closing_eq, h.world_eq⟩⟩
    simp only [run, h.run_pour output houtput]

theorem appends_forward (text : Text) (status : Int) : (forward text status).Appends := by
  intro w input
  refine ⟨.ok status, .forward text status, w, input, text ++ ['\n'],
    ⟨fun output houtput => ?_, .refl input, trivial, fun _ _ => rfl, fun _ _ => rfl⟩⟩
  simp only [run, Stream.write_of_isWritable houtput]

section Pairs

variable {left left' right right' : Job} {w w' w'' : World}

theorem closing_pair (hl : left.writes = false → ∀ w, left'.closing w = w)
    (hr : right.writes = false → ∀ w, right'.closing w = w)
    (h : (left.writes || right.writes) = false) (w : World) :
    right'.closing (left'.closing w) = w := by
  obtain ⟨hwl, hwr⟩ := Bool.or_eq_false_iff.1 h
  rw [hl hwl, hr hwr]

theorem world_pair (hl : left.writes = false → left.moves = false → w' = w)
    (hr : right.writes = false → right.moves = false → w'' = w')
    (hwrites : (left.writes || right.writes) = false)
    (hmoves : (left.moves || right.moves) = false) : w'' = w := by
  obtain ⟨hwl, hwr⟩ := Bool.or_eq_false_iff.1 hwrites
  obtain ⟨hml, hmr⟩ := Bool.or_eq_false_iff.1 hmoves
  rw [hr hwr hmr, hl hwl hml]

theorem Appends.pipe (hleft : left.Appends) (hright : right.Appends)
    (hconnected : right.Connected) : (pipe left right .empty).Appends := by
  intro w input
  obtain ⟨result, left', w', input', new, hl⟩ := hleft w input
  have hrun : left.run ⟨w, input, .empty⟩ = ⟨result, left', ⟨w', input', .ended new⟩⟩ :=
    hl.run_eq []
  cases result with
  | error failure =>
    refine ⟨.error failure, .pipe left' right (.ended new), w', input', [], ⟨fun output _ => ?_,
      hl.keeps, ⟨hl.connected, hconnected, rfl⟩, closing_pair hl.closing_eq closing_of_writes,
      world_pair hl.world_eq fun _ _ => rfl⟩⟩
    simp only [run, hrun, Stream.pour_nil]
  | ok status =>
    obtain ⟨result, right', w'', middle, added, hr⟩ := hright w' (.ofText new)
    refine ⟨result.map fun _ => 0, .pipe left' right' middle, w'', input', added,
      ⟨fun output houtput => ?_, hl.keeps,
        ⟨hl.connected, hr.connected, isConnected_of_isOpen (hr.isOpen rfl)⟩,
        closing_pair hl.closing_eq hr.closing_eq, world_pair hl.world_eq hr.world_eq⟩⟩
    have hseek : (Stream.ended new).seek 0 = .ok (.ofText new) := rfl
    simp only [run, hrun, hseek, hr.run_pour output houtput]

theorem Appends.seq (hleft : left.Appends) (hright : right.Appends)
    (hconnected : right.Connected) : (seq left right .empty).Appends := by
  intro w input
  obtain ⟨result, left', w', input', new, hl⟩ := hleft w input
  cases result with
  | error failure =>
    refine ⟨.error failure, .seq left' right .empty, w', input', new,
      ⟨fun output houtput => ?_, hl.keeps, ⟨hl.connected, hconnected, rfl⟩,
        closing_pair hl.closing_eq closing_of_writes, world_pair hl.world_eq fun _ _ => rfl⟩⟩
    simp only [run, hl.run_pour output houtput]
  | ok status =>
    obtain ⟨result, right', w'', inner, added, hr⟩ := hright w' .empty
    refine ⟨result.map fun _ => 0, .seq left' right' inner, w'', input', new ++ added,
      ⟨fun output houtput => ?_, hl.keeps,
        ⟨hl.connected, hr.connected, isConnected_of_isOpen (hr.isOpen rfl)⟩,
        closing_pair hl.closing_eq hr.closing_eq, world_pair hl.world_eq hr.world_eq⟩⟩
    simp only [run, hl.run_pour output houtput,
      hr.run_pour _ (Stream.isWritable_pour houtput new), Stream.pour_pour houtput]

end Pairs

theorem Fresh.appends (h : job.Fresh) : job.Appends := by
  induction job with
  | command invocation => exact appends_command invocation
  | redirect source sink input output child ih =>
    obtain ⟨rfl, rfl, hchild⟩ := h
    exact (ih hchild).redirect source sink
  | tolerant child ih => exact (ih h).tolerant
  | pipe left right middle ihl ihr =>
    obtain ⟨hl, hr, rfl⟩ := h
    exact (ihl hl).pipe (ihr hr) hr.connected
  | seq left right input ihl ihr =>
    obtain ⟨hl, hr, rfl⟩ := h
    exact (ihl hl).seq (ihr hr) hr.connected
  | forward text status => exact appends_forward text status

end Job

end CommandShell

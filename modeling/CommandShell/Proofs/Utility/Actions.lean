import CommandShell.Invocation
import CommandShell.Proofs.Files.Worlds

/-!
# What commands are made of

What a command writes does not depend on the stream it writes to, and its input stays open.
Complaints are either about what the user has asked for or about the shell itself, and a running
command has only complaints of the first kind. All commands but `cd` leave the world as it is.
These facts are closed under the few steps that commands are made of, so it is said once for each
command of which steps it is made.
-/

namespace CommandShell

open List

namespace Stream

/-- A stream that has been written from beginning to end. -/
def ended (text : Text) : Stream := memory text text.length false

def isOpen (stream : Stream) : Bool := stream.isConnected && !stream.isClosed

@[simp] theorem write_ended (text new : Text) : (ended text).write new = .ok
    (ended (text ++ new)) := by
  unfold ended write
  cases new with
  | nil => simp [pure, Except.pure]
  | cons c new =>
    simp [overwrite, pure, Except.pure, drop_eq_nil_of_le]

def isWritable : Stream → Bool
  | memory _ _ closed => !closed
  | _ => false

/-- What a stream becomes when a text is written to it, if that is possible. -/
def pour (new : Text) (stream : Stream) : Stream := (stream.write new).toOption.getD stream

@[simp] theorem isWritable_ended (text : Text) : (ended text).isWritable = true := rfl

@[simp] theorem pour_ended (text new : Text) : (ended text).pour new = ended (text ++ new) := by
  rw [pour, write_ended]
  rfl

@[simp] theorem pour_nil (stream : Stream) : stream.pour [] = stream := by
  cases stream with
  | memory text position closed => cases closed <;> rfl
  | bare closed => rfl
  | missing => rfl

section Writable

variable {stream : Stream} (h : stream.isWritable = true)
include h

theorem exists_memory_of_isWritable : ∃ text position, stream = memory text position false := by
  cases stream with
  | memory text position closed =>
    cases closed with
    | false => exact ⟨text, position, rfl⟩
    | true => cases h
  | bare closed => cases h
  | missing => cases h

theorem isOpen_of_isWritable : stream.isOpen = true := by
  obtain ⟨text, position, rfl⟩ := exists_memory_of_isWritable h
  rfl

theorem write_of_isWritable (new : Text) : stream.write new = .ok (stream.pour new) := by
  obtain ⟨text, position, rfl⟩ := exists_memory_of_isWritable h
  cases new <;> rfl

theorem isWritable_pour (new : Text) : (stream.pour new).isWritable = true := by
  obtain ⟨text, position, rfl⟩ := exists_memory_of_isWritable h
  cases new <;> rfl

end Writable

private theorem length_take_append_replicate (old : Text) (position : Nat) (c : Char) :
    (old.take position ++ List.replicate (position - old.length) c).length = position := by
  rw [length_append, length_take, length_replicate]
  omega

private theorem overwrite_overwrite (old : Text) (position : Nat) (first second : Text) :
    overwrite (overwrite old position first) (position + first.length) second =
      overwrite old position (first ++ second) := by
  have hfront := length_take_append_replicate old position '\x00'
  unfold overwrite
  generalize old.take position ++ List.replicate (position - old.length) '\x00' = front at hfront ⊢
  have hlength : (front ++ first).length = position + first.length := by
    rw [length_append, hfront]
  have htake : (front ++ first ++ old.drop (position + first.length)).take
      (position + first.length) = front ++ first := take_left' hlength
  have hgap : position + first.length -
      (front ++ first ++ old.drop (position + first.length)).length = 0 := by
    rw [length_append, hlength]
    omega
  have hdrop : (front ++ first ++ old.drop (position + first.length)).drop
      (position + first.length + second.length) =
        old.drop (position + (first ++ second).length) := by
    rw [← drop_drop, drop_left' hlength, drop_drop, length_append,
      Nat.add_assoc]
  rw [htake, hgap, hdrop]
  simp

variable {stream stream' : Stream}

theorem pour_pour (h : stream.isWritable = true) (first second : Text) :
    (stream.pour first).pour second = stream.pour (first ++ second) := by
  obtain ⟨text, position, rfl⟩ := exists_memory_of_isWritable h
  cases first with
  | nil => rw [pour_nil, nil_append]
  | cons c first =>
    cases second with
    | nil => rw [pour_nil, append_nil]
    | cons d second =>
      change memory (overwrite (overwrite text position (c :: first))
        (position + (c :: first).length) (d :: second)) _ false = memory _ _ false
      rw [overwrite_overwrite, length_append, Nat.add_assoc]

theorem pour_injective (h : stream.isWritable = true) {s t : Text}
    (hpour : stream.pour s = stream.pour t) : s = t := by
  obtain ⟨text, position, rfl⟩ := exists_memory_of_isWritable h
  have hmemory : ∀ new, ∃ held, (memory text position false).pour new =
      memory held (position + new.length) false ∧
        (new ≠ [] → held = overwrite text position new) := by
    intro new
    cases new with
    | nil => exact ⟨text, pour_nil _, fun hne => absurd rfl hne⟩
    | cons c rest => exact ⟨_, rfl, fun _ => rfl⟩
  obtain ⟨first, hfirst, hs⟩ := hmemory s
  obtain ⟨second, hsecond, ht⟩ := hmemory t
  rw [hfirst, hsecond] at hpour
  obtain ⟨hheld, hposition, -⟩ := Stream.memory.inj hpour
  have hlength : s.length = t.length := by omega
  by_cases hne : s = []
  · subst hne
    exact (length_eq_zero_iff.1 hlength.symm).symm
  · have hne' : t ≠ [] := fun hnil => hne (length_eq_zero_iff.1 (by rw [hlength, hnil]; rfl))
    rw [hs hne, ht hne', overwrite, overwrite, hlength] at hheld
    exact append_cancel_left (append_cancel_right hheld)

theorem writeAll_of_isWritable (h : stream.isWritable = true) (texts : List Text) :
    stream.writeAll texts = .ok (stream.pour texts.flatten) := by
  have hfold : texts.foldlM (fun stream text => stream.write text) stream =
      .ok (stream.pour texts.flatten) := by
    induction texts generalizing stream with
    | nil => rw [flatten_nil, pour_nil]; rfl
    | cons new texts ih =>
      rw [foldlM_cons, write_of_isWritable h, flatten_cons, ← pour_pour h]
      exact ih (isWritable_pour h new)
  obtain ⟨text, position, rfl⟩ := exists_memory_of_isWritable h
  exact hfold

@[simp] theorem writeAll_ended (text : Text) (texts : List Text) :
    (ended text).writeAll texts = .ok (ended (text ++ texts.flatten)) := by
  rw [writeAll_of_isWritable (isWritable_ended text), pour_ended]

/-- A step that moves in a text that is open, and that cannot be taken in any other stream. -/
structure Moves {α : Type} (use : Stream → Except Crash (α × Stream)) : Prop where
  opened : ∀ text position, ∃ a position',
    use (memory text position false) = .ok (a, memory text position' false)
  closed : ∀ text position, use (memory text position true) = .error .closedStream
  unreadable : ∀ closed, use (bare closed) = .error .unsupported
  absent : use missing = .error .missingPart

theorem moves_read : Moves read :=
  ⟨fun _ _ => ⟨_, _, rfl⟩, fun _ _ => rfl, fun _ => rfl, rfl⟩

theorem moves_seekEnd : Moves seekEnd :=
  ⟨fun _ _ => ⟨_, _, rfl⟩, fun _ _ => rfl, fun _ => rfl, rfl⟩

theorem moves_seekStart : Moves fun stream => return ((), ← stream.seek 0) :=
  ⟨fun _ _ => ⟨_, _, rfl⟩, fun _ _ => rfl, fun _ => rfl, rfl⟩

theorem Moves.isWritable {α : Type} {use : Stream → Except Crash (α × Stream)} (h : Moves use)
    {a : α} (huse : use stream = .ok (a, stream')) : stream'.isWritable = true := by
  rcases stream with ⟨text, position, _ | _⟩ | closed | _
  · obtain ⟨b, position', hmemory⟩ := h.opened text position
    cases hmemory.symm.trans huse
    rfl
  · cases (h.closed text position).symm.trans huse
  · cases (h.unreadable closed).symm.trans huse
  · cases h.absent.symm.trans huse

theorem Moves.isOpen {α : Type} {use : Stream → Except Crash (α × Stream)} (h : Moves use) {a : α}
    (huse : use stream = .ok (a, stream')) : stream'.isOpen = true :=
  isOpen_of_isWritable (h.isWritable huse)

/-- A stream that was there is still there, and one that was open is still open. -/
structure Keeps (before after : Stream) : Prop where
  isOpen : before.isOpen = true → after.isOpen = true
  isConnected : before.isConnected = true → after.isConnected = true

theorem Keeps.refl (stream : Stream) : stream.Keeps stream := ⟨id, id⟩

theorem Keeps.trans {first second third : Stream} (h : first.Keeps second)
    (h' : second.Keeps third) : first.Keeps third :=
  ⟨h'.isOpen ∘ h.isOpen, h'.isConnected ∘ h.isConnected⟩

theorem Keeps.of_isOpen {after : Stream} (h : after.isOpen = true) (before : Stream) :
    before.Keeps after :=
  ⟨fun _ => h, fun _ => (Bool.and_eq_true_iff.1 h).1⟩

theorem keeps_skip (stream : Stream) (count : Nat) : stream.Keeps (stream.skip count) := by
  cases stream <;> exact ⟨id, id⟩

end Stream

namespace Action

variable {α β σ : Type}

def on (action : Action α) (scene : Scene) : Except Failure α × Scene := action.run.run scene

@[simp] theorem on_pure (a : α) (scene : Scene) : (pure a : Action α).on scene =
    (.ok a, scene) := rfl

@[simp] theorem on_get (scene : Scene) : (get : Action Scene).on scene = (.ok scene, scene) := rfl

@[simp] theorem on_modify (f : Scene → Scene) (scene : Scene) :
    (modify f : Action PUnit).on scene = (.ok ⟨⟩, f scene) := rfl

theorem on_bind (action : Action α) (next : α → Action β) (scene : Scene) :
    (action >>= next).on scene =
      match action.on scene with
      | (.ok a, scene) => (next a).on scene
      | (.error failure, scene) => (.error failure, scene) := by
  unfold on
  rw [ExceptT.run_bind, StateT.run_bind]
  rcases action.run.run scene with ⟨_ | _, _⟩ <;> rfl

theorem on_tryCatch (action : Action α) (handle : Failure → Action α) (scene : Scene) :
    (tryCatch action handle).on scene =
      match action.on scene with
      | (.ok a, scene) => (.ok a, scene)
      | (.error failure, scene) => (handle failure).on scene := by
  unfold on
  rw [ExceptT.run_tryCatch, StateT.run_bind]
  rcases action.run.run scene with ⟨_ | _, _⟩ <;> rfl
def callFailure (complaint : OsError → Complaint) : CallFailure → Failure
  | .os error => .complaint (complaint error)
  | .nul => .crash .nulInPath

theorem on_ofCall (complaint : OsError → Complaint) (x : Except CallFailure α) (scene : Scene) :
    (ofCall complaint x).on scene = (x.mapError (callFailure complaint), scene) := by
  rcases x with (_ | _) | _ <;> rfl

@[simp] theorem on_world (scene : Scene) : world.on scene = (.ok scene.world, scene) := rfl
@[simp] theorem on_ofExcept (x : Except Crash α) (scene : Scene) :
    (ofExcept x).on scene = (x.mapError .crash, scene) := by
  cases x <;> rfl

theorem on_onInput (use : Stream → Except Crash (α × Stream)) (scene : Scene) :
    (onInput use).on scene =
      match use scene.input with
      | .ok (a, input) => (.ok a, { scene with input })
      | .error cause => (.error (.crash cause), scene) := by
  unfold onInput
  rw [on_bind, on_get]
  dsimp only
  rw [on_bind, on_ofExcept]
  cases use scene.input <;> rfl

@[simp] theorem on_ofInput (look : Stream → Except Crash α) (scene : Scene) :
    (ofInput look).on scene = ((look scene.input).mapError .crash, scene) := by
  unfold ofInput
  rw [on_bind, on_get]
  exact on_ofExcept _ scene

theorem on_onOutput (use : Stream → Except Crash Stream) (scene : Scene) :
    (onOutput use).on scene =
      match use scene.output with
      | .ok output => (.ok (), { scene with output })
      | .error cause => (.error (.crash cause), scene) := by
  unfold onOutput
  rw [on_bind, on_get]
  dsimp only
  rw [on_bind, on_ofExcept]
  cases use scene.output <;> rfl
/-- An action writes to its output and leaves its input open. What it does depends neither on the
stream it writes to nor, but for its input, on anything outside the world. -/
def Appends (action : Action α) : Prop :=
  ∀ w input, ∃ result w' input' added, input.Keeps input' ∧
    ∀ output, output.isWritable = true →
      action.on ⟨w, input, output⟩ = (result, ⟨w', input', output.pour added⟩)

/-- An action that only writes to its output and moves in its input. -/
def Steady (action : Action α) : Prop :=
  ∀ w input, ∃ result input' added, input.Keeps input' ∧
    ∀ output, output.isWritable = true →
      action.on ⟨w, input, output⟩ = (result, ⟨w, input', output.pour added⟩)

theorem Steady.appends {action : Action α} (h : action.Steady) : action.Appends := by
  intro w input
  obtain ⟨result, input', added, hkeeps, hon⟩ := h w input
  exact ⟨result, w, input', added, hkeeps, hon⟩

theorem Steady.of_still {action : Action α} (result : World → Except Failure α)
    (h : ∀ scene, action.on scene = (result scene.world, scene)) : action.Steady := by
  intro w input
  exact ⟨result w, input, [], .refl input, fun output _ => by rw [h, Stream.pour_nil]⟩

theorem steady_pure (a : α) : (pure a : Action α).Steady :=
  .of_still (fun _ => .ok a) fun _ => rfl

theorem steady_throw (failure : Failure) : (throw failure : Action α).Steady :=
  .of_still (fun _ => .error failure) fun _ => rfl

theorem steady_world : world.Steady :=
  .of_still .ok fun _ => rfl

theorem Steady.bind {action : Action α} {next : α → Action β} (h : action.Steady)
    (hnext : ∀ a, (next a).Steady) : (action >>= next).Steady := by
  intro w input
  obtain ⟨result, input', added, hkeeps, hon⟩ := h w input
  cases result with
  | error failure =>
    refine ⟨.error failure, input', added, hkeeps, fun output houtput => ?_⟩
    rw [on_bind, hon output houtput]
  | ok a =>
    obtain ⟨result', input'', added', hkeeps', hon'⟩ := hnext a w input'
    refine ⟨result', input'', added ++ added', hkeeps.trans hkeeps', fun output houtput => ?_⟩
    rw [on_bind, hon output houtput, ← Stream.pour_pour houtput]
    exact hon' _ (Stream.isWritable_pour houtput added)

theorem Steady.tryCatch {action : Action α} {handle : Failure → Action α} (h : action.Steady)
    (hhandle : ∀ failure, (handle failure).Steady) :
    (MonadExcept.tryCatch action handle).Steady := by
  intro w input
  obtain ⟨result, input', added, hkeeps, hon⟩ := h w input
  cases result with
  | ok a =>
    refine ⟨.ok a, input', added, hkeeps, fun output houtput => ?_⟩
    rw [on_tryCatch, hon output houtput]
  | error failure =>
    obtain ⟨result', input'', added', hkeeps', hon'⟩ := hhandle failure w input'
    refine ⟨result', input'', added ++ added', hkeeps.trans hkeeps', fun output houtput => ?_⟩
    rw [on_tryCatch, hon output houtput, ← Stream.pour_pour houtput]
    exact hon' _ (Stream.isWritable_pour houtput added)
theorem steady_onInput {use : Stream → Except Crash (α × Stream)}
    (h : ∀ input a input', use input = .ok (a, input') → input'.isOpen = true) :
    (onInput use).Steady := by
  intro w input
  cases huse : use input with
  | error cause =>
    refine ⟨.error (.crash cause), input, [], .refl input, fun output _ => ?_⟩
    rw [on_onInput, huse, Stream.pour_nil]
  | ok x =>
    refine ⟨.ok x.1, x.2, [], .of_isOpen (h input x.1 x.2 huse) input, fun output _ => ?_⟩
    rw [on_onInput, huse, Stream.pour_nil]

theorem steady_ofInput (look : Stream → Except Crash α) : (ofInput look).Steady := by
  intro w input
  refine ⟨(look input).mapError .crash, input, [], .refl input, fun output _ => ?_⟩
  rw [on_ofInput, Stream.pour_nil]

theorem steady_skip (count : Nat) :
    (modify fun scene => { scene with input := scene.input.skip count } : Action PUnit).Steady := by
  intro w input
  refine ⟨.ok ⟨⟩, input.skip count, [], input.keeps_skip count, fun output _ => ?_⟩
  rw [on_modify, Stream.pour_nil]

theorem steady_write (s : Text) : (write s).Steady := by
  intro w input
  refine ⟨.ok (), input, s, .refl input, fun output houtput => ?_⟩
  unfold write
  rw [on_onOutput, Stream.write_of_isWritable houtput]

theorem steady_writeAll (texts : List Text) : (writeAll texts).Steady := by
  intro w input
  refine ⟨.ok (), input, texts.flatten, .refl input, fun output houtput => ?_⟩
  unfold writeAll
  rw [on_onOutput, Stream.writeAll_of_isWritable houtput]
end Action

/-! ## Usual complaints -/

/-- The kinds of errors that a user can bring about: those of the line, of a command and of a
redirect, and the wish to leave. -/
def Report.Kind.isUsual : Report.Kind → Bool
  | internal | general => false
  | _ => true

/-- Whether a complaint is about what the user has asked for. -/
def Complaint.isUsual (cause : Complaint) : Bool := cause.report.kind.isUsual

namespace Complaint

@[simp] theorem isUsual_unreadable (file : Text) (error : OsError) :
    (unreadable file error).isUsual = true := by
  change (unreadableReport file error).kind.isUsual = true
  unfold unreadableReport
  split_ifs <;> rfl

@[simp] theorem isUsual_findFailed (error : OsError) : (findFailed error).isUsual = true := by
  change (findReport error).kind.isUsual = true
  unfold findReport
  split_ifs <;> rfl

@[simp] theorem isUsual_lsFailed (path : Text) (cause : ShowFailure) :
    (lsFailed path cause).isUsual = true := by
  change (lsReport path cause).kind.isUsual = true
  unfold lsReport
  cases cause with
  | unwritable => rfl
  | os error =>
    dsimp only
    split_ifs <;> rfl

@[simp] theorem isUsual_pwdFailed (cause : ShowFailure) : (pwdFailed cause).isUsual = true := by
  change (pwdReport cause).kind.isUsual = true
  unfold pwdReport
  cases cause with
  | unwritable => rfl
  | os error =>
    dsimp only
    split_ifs <;> rfl

@[simp] theorem isUsual_sortFailed (error : OsError) : (sortFailed error).isUsual = true := by
  unfold isUsual
  rw [report]
  split_ifs <;> rfl

@[simp] theorem isUsual_redirectFailed (error : OsError) :
    (redirectFailed error).isUsual = true := by
  change (redirectReport error).kind.isUsual = true
  unfold redirectReport
  split_ifs <;> rfl

end Complaint

/-! ## What commands are made of -/

/-- A stream that is open. If it cannot be read, then crashing because of that is allowed. -/
def Stream.Usable (P : Crash → Prop) : Stream → Prop
  | memory _ _ closed => closed = false
  | bare closed => closed = false ∧ P .unsupported
  | missing => False

/-- The terms on which an action is taken: whether it may listen, in which worlds it is taken, and
which crashes are allowed. -/
structure Terms where
  listens : Prop
  finds : World → Prop
  allows : Crash → Prop

namespace Terms

/-- Any world will do and any crash is allowed. -/
def free (listens : Prop) : Terms := ⟨listens, fun _ => True, fun _ => True⟩

/-- What can go wrong with a file operand is allowed. -/
structure Opens (t : Terms) (path : Text) : Prop where
  nul : '\x00' ∈ path → t.allows .nulInPath
  text : ∀ w, t.finds w → ∀ place, Content.text? (w.content place) = none → t.allows .notUtf8

/-- What can go wrong with the working directory is allowed. -/
structure Stays (t : Terms) : Prop where
  nul : ∀ w, t.finds w → ∀ path, w.workingDirectory = .ok path → '\x00' ∈ path →
    t.allows .nulInPath
  os : ∀ w, t.finds w → ∀ error, w.workingDirectory = .error error → t.allows (.os error)

theorem free_opens {listens : Prop} {path : Text} : (free listens).Opens path :=
  ⟨fun _ => trivial, fun _ _ _ _ => trivial⟩

theorem free_stays {listens : Prop} : (free listens).Stays :=
  ⟨fun _ _ _ _ _ => trivial, fun _ _ _ _ => trivial⟩

end Terms

namespace Action

variable {α β σ : Type}

/-- The actions made of the steps of which commands are made. They leave the world alone, have only
usual complaints, crash only as is allowed, and look at their input only if they may listen. -/
inductive Made (t : Terms) : {α : Type} → Action α → Prop
  | result {α : Type} (a : α) : Made t (pure a : Action α)
  | crash {α : Type} {cause : Crash} (allowed : t.allows cause) : Made t (crash cause : Action α)
  | complain {α : Type} {cause : Complaint} (usual : cause.isUsual = true) :
      Made t (complain cause : Action α)
  | reading {α : Type} {next : World → Action α} :
      (∀ w, t.finds w → Made t (next w)) → Made t (world >>= next)
  | write (s : Text) : Made t (write s)
  | writeAll (texts : List Text) : Made t (writeAll texts)
  | look {α : Type} (h : t.listens) {look : Stream → Except Crash α}
      (allowed : ∀ input : Stream, input.Usable t.allows → ∀ cause, look input = .error cause →
        t.allows cause) : Made t (ofInput look)
  | use {α : Type} (h : t.listens) {use : Stream → Except Crash (α × Stream)}
      (moves : Stream.Moves use) : Made t (onInput use)
  | skip (h : t.listens) (count : Nat) :
      Made t (modify fun scene => { scene with input := scene.input.skip count })
  | andThen {α β : Type} {action : Action α} {next : α → Action β} :
      Made t action → (∀ a, Made t (next a)) → Made t (action >>= next)
  | orUnwritable {work : Action Unit} {refusal : ShowFailure → Complaint}
      (usual : (refusal .unwritable).isUsual = true) :
      Made t work → Made t (work.orUnwritable refusal)

namespace Made

variable {t : Terms} {path : Text}

theorem guarded {p : Prop} {_ : Decidable p} {action : Action Unit} {next : Unit → Action α}
    (h : Made t action) (hnext : Made t (next ())) :
    Made t (if p then action >>= next else next ()) := by
  split
  · exact h.andThen fun _ => hnext
  · exact hnext

theorem forM {f : α → Action Unit} {xs : List α} (h : ∀ a ∈ xs, Made t (f a)) :
    Made t (xs.forM f) := by
  induction xs with
  | nil => exact .result ()
  | cons a xs ih =>
    rw [forall_mem_cons] at h
    exact h.1.andThen fun _ => ih h.2

theorem foldlM {f : σ → α → Action σ} (h : ∀ s a, Made t (f s a)) (xs : List α) (s : σ) :
    Made t (xs.foldlM f s) := by
  induction xs generalizing s with
  | nil => exact .result s
  | cons a xs ih => exact (h s a).andThen ih

theorem mapM {f : α → Action β} {xs : List α} (h : ∀ a ∈ xs, Made t (f a)) :
    Made t (xs.mapM f) := by
  induction xs with
  | nil => exact .result []
  | cons a xs ih =>
    rw [forall_mem_cons] at h
    rw [mapM_cons]
    exact h.1.andThen fun b => (ih h.2).andThen fun bs => .result (b :: bs)

theorem ofExcept {x : Except Crash α} (h : ∀ cause, x = .error cause → t.allows cause) :
    Made t (ofExcept x) := by
  cases x with
  | ok a => exact .result a
  | error cause => exact .crash (h cause rfl)

theorem ofCall {complaint : OsError → Complaint} (h : ∀ error, (complaint error).isUsual = true)
    {x : Except CallFailure α} (hnul : x = .error .nul → t.allows .nulInPath) :
    Made t (ofCall complaint x) := by
  rcases x with (error | _) | a
  · exact .complain (h error)
  · exact .crash (hnul rfl)
  · exact .result a

theorem writeEach (texts : List Text) : Made t (writeEach texts) := forM fun s _ => .write s

theorem decode {bytes : ByteArray} (h : Content.text? bytes = none → t.allows .notUtf8) :
    Made t (decode bytes) := by
  unfold Action.decode
  split
  · exact .result _
  · next hnone => exact .crash (h hnone)

/-- What is done with the bytes of a file, which need not hold text only if that is allowed. -/
theorem opening (h : t.Opens path) {next : ByteArray → Action α}
    (hnext : ∀ bytes, (Content.text? bytes = none → t.allows .notUtf8) → Made t (next bytes)) :
    Made t (openFile path >>= next) := by
  unfold openFile
  simp only [bind_assoc, pure_bind]
  refine .reading fun w hw => (ofCall (Complaint.isUsual_unreadable path) fun hcall => ?_).andThen
    fun place => hnext _ (h.text w hw place)
  exact h.nul (World.onPath_eq_nul hcall)

theorem readFile (h : t.Opens path) : Made t (readFile path) := opening h fun _ => decode

theorem readFileLines (h : t.Opens path) : Made t (readFileLines path) :=
  (readFile h).andThen fun _ => .result _

theorem foldFileLines (h : t.Opens path) (start : σ) {work : σ → Text → Action σ}
    (hwork : ∀ s line, Made t (work s line)) : Made t (foldFileLines path start work) := by
  refine opening h fun bytes hbytes => (foldlM hwork _ start).andThen fun state => ?_
  cases htext : Content.text? bytes with
  | some s => exact .result state
  | none => exact guarded (.crash (hbytes htext)) (.result state)

section Input

variable (h : t.listens)
include h

theorem inputIsExhausted : Made t inputIsExhausted := by
  refine .look h fun input hinput cause hlook => ?_
  rcases input with ⟨text, position, closed⟩ | closed | _
  · cases hinput
    cases hlook
  · cases hlook
  · cases hinput

theorem pendingLines : Made t (ofInput (·.pendingLines)) := by
  refine .look h fun input hinput cause hlook => ?_
  rcases input with ⟨text, position, closed⟩ | closed | _
  · cases hinput
    cases hlook
  · obtain ⟨rfl, hallowed⟩ := hinput
    cases hlook
    exact hallowed
  · cases hinput

theorem readInputLines : Made t readInputLines :=
  (pendingLines h).andThen fun lines =>
    (skip h lines.flatten.length).andThen fun _ => .result lines

theorem foldInputLines (start : σ) {work : σ → Text → Action σ}
    (hwork : ∀ s line, Made t (work s line)) : Made t (foldInputLines start work) :=
  (pendingLines h).andThen fun lines =>
    foldlM (fun s line => (skip h line.length).andThen fun _ => hwork s line) lines start

theorem rewindInput {refusal : Complaint} (husual : refusal.isUsual = true) :
    Made t (rewindInput refusal) :=
  (use h Stream.moves_seekEnd).andThen fun _ =>
    guarded (.complain husual) (use h Stream.moves_seekStart)

theorem refusing {refusal : Complaint} (husual : refusal.isUsual = true)
    {next : Unit → Action α} (hnext : Made t (next ())) :
    Made t (Action.inputIsExhausted >>= fun exhausted =>
      if exhausted then Action.complain refusal >>= next else next ()) :=
  (inputIsExhausted h).andThen fun _ => guarded (.complain husual) hnext

end Input

end Made

end Action

open CommandShell.Action

section Commands

variable {t : Terms}

theorem Cat.made_run {cat : Cat} (h : t.listens) (hfiles : ∀ file ∈ cat.files, t.Opens file) :
    Made t cat.run := by
  apply (Made.inputIsExhausted h).andThen
  intro exhausted
  split
  · exact (Made.use h Stream.moves_read).andThen .write
  · split
    · exact .complain rfl
    · exact .forM fun file hfile => (Made.readFile (hfiles file hfile)).andThen .write

private theorem Range.isUsual_ofText {s : Text} {columns : Int} {cause : Complaint}
    (h : Range.ofText s columns = .error cause) : cause.isUsual = true := by
  have hend : ∀ a b side cause, readEnd a b side = .error cause → cause.isUsual = true := by
    intro a b side cause h
    unfold readEnd at h
    split_ifs at h
    · cases h
    · split at h <;> cases h
      rfl
  unfold ofText at h
  split_ifs at h
  · cases h
    rfl
  · split at h
    · unfold ofColumn at h
      split at h
      · cases h
        rfl
      · split_ifs at h <;> cases h
        rfl
    · next a b _ =>
        unfold ofEnds at h
        cases hfirst : readEnd a b a with
        | error cause =>
          rw [hfirst] at h
          cases h
          exact hend _ _ _ _ hfirst
        | ok first? =>
          cases hlast : readEnd a b b with
          | error cause =>
            rw [hfirst, hlast] at h
            cases h
            exact hend _ _ _ _ hlast
          | ok last? =>
            simp only [hfirst, hlast, bind, Except.bind] at h
            split_ifs at h <;> cases h <;> rfl
    · cases h
      rfl

theorem Cut.made_run {cut : Cut} (h : cut.files = [] → t.listens)
    (hfiles : ∀ file ∈ cut.files, t.Opens file)
    (hitems : ∀ items, cut.ranges = .list items →
      (∃ texts : List Text, items = texts.map .text) ∨ t.allows .notText)
    (hother : (∀ items, cut.ranges ≠ .list items) → (∀ s, cut.ranges ≠ .text s) →
      t.allows .notIterable) : Made t cut.run := by
  have hlines : Made t cut.readLines := by
    unfold readLines
    split
    · next hnil => exact .refusing (h hnil) rfl (.readInputLines (h hnil))
    · next file later hcons =>
        exact .readFileLines (hfiles file (hcons ▸ mem_cons_self))
  have hrange : ∀ columns value, ((∃ s, value = .text s) ∨ t.allows .notText) →
      Made t (readRange columns value) := by
    intro columns value hvalue
    unfold readRange
    split
    · split
      · exact .result _
      · next hrange => exact .complain (Range.isUsual_ofText hrange)
    · next hne => exact .crash (hvalue.resolve_left fun ⟨s, hs⟩ => hne s hs)
  have hranges : ∀ columns, Made t (readRanges columns cut.ranges) := by
    intro columns
    unfold readRanges
    split
    · next items hlist =>
        refine .mapM fun item hitem => hrange columns item ((hitems items hlist).imp_left ?_)
        rintro ⟨texts, rfl⟩
        obtain ⟨s, -, hs⟩ := mem_map.mp hitem
        exact ⟨s, hs.symm⟩
    · refine .mapM fun item hitem => hrange columns item (.inl ?_)
      obtain ⟨c, -, hc⟩ := mem_map.mp hitem
      exact ⟨[c], hc.symm⟩
    · next hlist htext => exact .crash (hother hlist htext)
  have hwrite : ∀ lines, Made t (writeLines lines) := by
    intro lines
    apply (Made.writeAll _).andThen
    intro _
    split
    · exact .write _
    · exact .result ()
  exact hlines.andThen fun _ => (hranges _).andThen fun _ => hwrite _

theorem Find.made_run {find : Find}
    (hnul : ∀ w, (find.results w).failure = some .nul → t.allows .nulInPath) :
    Made t find.run := by
  refine .reading fun w _ => ?_
  dsimp only
  split
  · exact .complain (Complaint.isUsual_findFailed _)
  · next hfailure => exact .crash (hnul w hfailure)
  · split
    · exact .write []
    · exact .writeEach _

theorem Grep.made_run {grep : Grep} (h : grep.files = [] → t.listens)
    (hfiles : ∀ file ∈ grep.files, t.Opens file) : Made t grep.run := by
  unfold run
  split
  · next hnil =>
      have hlistens := h (List.isEmpty_iff.mp hnil)
      exact .refusing hlistens rfl ((Made.readInputLines hlistens).andThen fun _ => .writeAll _)
  · exact .forM fun file hfile =>
      (Made.readFileLines (hfiles file hfile)).andThen fun _ => .writeEach _

theorem Action.made_selected {files : List Text} (h : files.length ≠ 1 → t.listens)
    (hfiles : ∀ file ∈ files, t.Opens file) {refusal : Complaint}
    (husual : refusal.isUsual = true) (select : List Text → List Text) :
    Made t (do writeEach (select (← fileOrInputLines files refusal))) := by
  have hlines : Made t (fileOrInputLines files refusal) := by
    rcases files with _ | ⟨file, _ | ⟨second, later⟩⟩
    · exact .refusing (h (by simp)) husual (.readInputLines (h (by simp)))
    · exact .readFileLines (hfiles file mem_cons_self)
    · exact .refusing (h (by simp)) husual (.readFileLines (hfiles file mem_cons_self))
  exact hlines.andThen fun _ => .writeEach _

private theorem Ls.made_directory (hstays : t.Stays) {paths : List Text}
    (hpaths : ∀ path ∈ paths, '\x00' ∈ path → t.allows .nulInPath) {next : Text → Action Unit}
    (hnext : ∀ path, ('\x00' ∈ path → t.allows .nulInPath) → Made t (next path)) :
    Made t (directory paths >>= next) := by
  cases paths with
  | nil =>
    rw [directory, bind_assoc]
    refine .reading fun w hw => ?_
    cases hpath : w.workingDirectory with
    | ok path => exact hnext path (hstays.nul w hw path hpath)
    | error error => exact .crash (hstays.os w hw error hpath)
  | cons path later => exact hnext path (hpaths path mem_cons_self)

theorem Ls.made_run {ls : Ls} (hstays : t.Stays)
    (hpaths : ∀ path ∈ ls.paths, '\x00' ∈ path → t.allows .nulInPath) : Made t ls.run := by
  have hnames : ∀ path, ('\x00' ∈ path → t.allows .nulInPath) → Made t (writeNames path) :=
    fun path hpath => .reading fun _ _ => (Made.ofCall (fun _ => Complaint.isUsual_lsFailed path _)
      fun hcall => hpath (World.onPath_eq_nul hcall)).andThen fun _ => .writeEach _
  unfold run
  apply Made.guarded (.complain rfl)
  apply Made.guarded (.complain rfl)
  refine made_directory hstays hpaths fun path hpath => ?_
  exact (Made.orUnwritable (Complaint.isUsual_lsFailed path _) (hnames path hpath)).andThen
    fun _ => .write _

theorem Pwd.made_run : Made t Pwd.run := by
  refine .orUnwritable (Complaint.isUsual_pwdFailed _) (.reading fun w _ => ?_)
  split
  · exact .write _
  · exact .complain (Complaint.isUsual_pwdFailed _)

theorem Sed.made_run {sed : Sed} (h : sed.files = [] → t.listens)
    (hfiles : ∀ file ∈ sed.files, t.Opens file)
    (htemplate : ∀ cause, Regex.Template.ofText sed.pattern sed.replacement = .error cause →
      t.allows cause) : Made t sed.run := by
  have hedit : ∀ line, Made t (sed.edit line) := fun line =>
    (Made.ofExcept htemplate).andThen fun _ => .write _
  unfold run
  split
  · next hnil =>
      exact .refusing (h hnil) rfl (.foldInputLines (h hnil) () fun _ line => hedit line)
  · next file later hcons =>
      exact .foldFileLines (hfiles file (hcons ▸ mem_cons_self)) () fun _ line => hedit line

theorem Sorting.made_run {sort : Sorting} (h : sort.file? = none → t.listens)
    (hfile : ∀ file ∈ sort.file?, t.Opens file) : Made t sort.run := by
  unfold run
  split
  · next path hpath =>
      have hopens := hfile path hpath
      have hlines : Made t (readFileLines path) := .reading fun w hw =>
        .guarded (.complain rfl) <|
          (Made.ofCall Complaint.isUsual_sortFailed fun hcall =>
            hopens.nul (World.onPath_eq_nul hcall)).andThen fun place =>
              (Made.decode (hopens.text w hw place)).andThen fun _ => .result _
      exact hlines.andThen fun _ => .writeEach _
  · next hnone =>
      exact (Made.rewindInput (h hnone) rfl).andThen fun _ =>
        (Made.readInputLines (h hnone)).andThen fun _ => .writeEach _

theorem Uniq.made_run {uniq : Uniq} (h : uniq.file? = none → t.listens)
    (hfile : ∀ file ∈ uniq.file?, t.Opens file) : Made t uniq.run := by
  have hvisit : ∀ previous line, Made t (uniq.visit previous line) := by
    intro previous line
    unfold visit
    exact .guarded (.write _) (.result _)
  unfold run
  split
  · next path hpath =>
      exact .reading fun _ _ => .guarded (.complain rfl) <|
        (Made.foldFileLines (hfile path hpath) [] hvisit).andThen fun _ => .result ()
  · next hnone =>
      exact (Made.rewindInput (h hnone) rfl).andThen fun _ =>
        (Made.foldInputLines (h hnone) [] hvisit).andThen fun _ => .result ()

theorem Wc.made_run {wc : Wc} (h : wc.files = [] → t.listens)
    (hfiles : ∀ file ∈ wc.files, t.Opens file) : Made t wc.run := by
  unfold run
  split
  · next hnil =>
      have hlistens := h (List.isEmpty_iff.mp hnil)
      exact .refusing hlistens rfl ((Made.readInputLines hlistens).andThen fun _ => .write _)
  · exact (Made.mapM fun file hfile => .readFile (hfiles file hfile)).andThen fun _ =>
      (Made.write _).andThen fun _ => .write _

end Commands

namespace Invocation

def moves : Invocation → Bool
  | cd _ => true
  | _ => false
def listens : Invocation → Bool
  | cat _ => true
  | cut c => c.files.isEmpty
  | grep c => c.files.isEmpty
  | head c => c.files.length ≠ 1
  | sed c => c.files.isEmpty
  | sort c => c.file?.isNone
  | tail c => c.files.length ≠ 1
  | uniq c => c.file?.isNone
  | wc c => c.files.isEmpty
  | _ => false

/-- Every command but `cd` is made of steps that leave the world alone. -/
theorem made_run {invocation : Invocation} (hmoves : invocation.moves = false) {listens : Prop}
    (h : invocation.listens = true → listens) : Made (.free listens) invocation.run := by
  have hopens : ∀ path, (Terms.free listens).Opens path := fun _ => Terms.free_opens
  cases invocation with
  | cat c => exact Cat.made_run (h rfl) fun file _ => hopens file
  | cd c => cases hmoves
  | cut c =>
    exact Cut.made_run (fun hnil => h (List.isEmpty_iff.mpr hnil)) (fun file _ => hopens file)
      (fun _ _ => .inr trivial) fun _ _ => trivial
  | echo c => exact .write _
  | exit => exact .complain rfl
  | find c => exact Find.made_run fun _ _ => trivial
  | grep c =>
    exact Grep.made_run (fun hnil => h (List.isEmpty_iff.mpr hnil)) fun file _ => hopens file
  | head c =>
    exact made_selected (fun hne => h (decide_eq_true hne)) (fun file _ => hopens file) rfl _
  | ls c => exact Ls.made_run Terms.free_stays fun _ _ _ => trivial
  | pwd => exact Pwd.made_run
  | sed c =>
    exact Sed.made_run (fun hnil => h (List.isEmpty_iff.mpr hnil)) (fun file _ => hopens file)
      fun _ _ => trivial
  | sort c =>
    exact Sorting.made_run (fun hnone => h (Option.isNone_iff_eq_none.mpr hnone))
      fun file _ => hopens file
  | tail c =>
    exact made_selected (fun hne => h (decide_eq_true hne)) (fun file _ => hopens file) rfl _
  | uniq c =>
    exact Uniq.made_run (fun hnone => h (Option.isNone_iff_eq_none.mpr hnone))
      fun file _ => hopens file
  | wc c => exact Wc.made_run (fun hnil => h (List.isEmpty_iff.mpr hnil)) fun file _ => hopens file

end Invocation

/-! ## What all commands have in common -/

namespace Action

variable {α β : Type} {listens : Prop}

theorem Made.steady {action : Action α} (h : Made (.free listens) action) : action.Steady := by
  induction h with
  | result a => exact steady_pure a
  | crash _ | complain _ => exact steady_throw _
  | reading _ ih => exact steady_world.bind fun w => ih w trivial
  | write s => exact steady_write s
  | writeAll texts => exact steady_writeAll texts
  | look _ _ => exact steady_ofInput _
  | use _ moves => exact steady_onInput fun _ _ _ => moves.isOpen
  | skip _ count => exact steady_skip count
  | andThen _ _ ih ihnext => exact ih.bind ihnext
  | orUnwritable _ _ ih => exact ih.tryCatch fun failure => by split <;> exact steady_throw _

/-- An action that leaves the world alone and has only usual complaints. -/
def Modest (action : Action α) : Prop :=
  ∀ scene, (action.on scene).2.world = scene.world ∧
    ∀ cause, (action.on scene).1 = .error (.complaint cause) → cause.isUsual = true

theorem Modest.bind {action : Action α} {next : α → Action β} (h : action.Modest)
    (hnext : ∀ a, (next a).Modest) : (action >>= next).Modest := by
  intro scene
  obtain ⟨hworld, hcauses⟩ := h scene
  rw [on_bind]
  rcases hon : action.on scene with ⟨failure | a, after⟩ <;> rw [hon] at hworld hcauses
  · refine ⟨hworld, fun cause hcause => hcauses cause ?_⟩
    cases hcause
    rfl
  · obtain ⟨hworld', hcauses'⟩ := hnext a after
    exact ⟨hworld'.trans hworld, hcauses'⟩

theorem Modest.tryCatch {action : Action α} {handle : Failure → Action α} (h : action.Modest)
    (hhandle : ∀ failure, (∀ cause, failure = .complaint cause → cause.isUsual = true) →
      (handle failure).Modest) : (MonadExcept.tryCatch action handle).Modest := by
  intro scene
  obtain ⟨hworld, hcauses⟩ := h scene
  rw [on_tryCatch]
  rcases hon : action.on scene with ⟨failure | a, after⟩ <;> rw [hon] at hworld hcauses
  · obtain ⟨hworld', hcauses'⟩ := hhandle failure
      (fun cause hcause => hcauses cause (congrArg Except.error hcause)) after
    exact ⟨hworld'.trans hworld, hcauses'⟩
  · exact ⟨hworld, nofun⟩

private theorem modest_onOutput (use : Stream → Except Crash Stream) : (onOutput use).Modest := by
  intro scene
  rw [on_onOutput]
  cases use scene.output <;> exact ⟨rfl, nofun⟩

theorem Made.modest {action : Action α} (h : Made (.free listens) action) : action.Modest := by
  induction h with
  | result _ | crash _ => exact fun _ => ⟨rfl, nofun⟩
  | complain usual => exact fun _ => ⟨rfl, fun _ h => by cases h; exact usual⟩
  | reading _ ih => exact fun scene => ih scene.world trivial scene
  | write s | writeAll texts => exact modest_onOutput _
  | @look _ _ look _ =>
    intro scene
    rw [on_ofInput]
    cases look scene.input <;> exact ⟨rfl, nofun⟩
  | @use _ _ use _ =>
    intro scene
    rw [on_onInput]
    cases use scene.input <;> exact ⟨rfl, nofun⟩
  | skip _ count => exact fun _ => ⟨rfl, nofun⟩
  | andThen _ _ ih ihnext => exact ih.bind ihnext
  | orUnwritable usual _ ih =>
    refine ih.tryCatch fun failure hfailure scene => ?_
    split
    · exact ⟨rfl, fun _ h => by cases h; exact usual⟩
    · exact ⟨rfl, fun cause h => hfailure cause (by cases h; rfl)⟩

end Action

theorem Cd.on_run (cd : Cd) (scene : Scene) :
    cd.run.on scene =
      match scene.world.enter cd.path with
      | .ok w => (.ok (), { scene with world := w })
      | .error failure => (.error (callFailure .cdFailed failure), scene) := by
  unfold run
  rw [on_bind, on_world]
  dsimp only
  rw [on_bind, on_ofCall]
  cases scene.world.enter cd.path <;> rfl
namespace Invocation

theorem steady_run {invocation : Invocation} (h : invocation.moves = false) :
    invocation.run.Steady := (made_run h fun _ => trivial).steady

/-- Every command but `cd` leaves the world alone and has only usual complaints. -/
theorem modest_run {invocation : Invocation} (h : invocation.moves = false) :
    invocation.run.Modest := (made_run h fun _ => trivial).modest

theorem appends_run (invocation : Invocation) : invocation.run.Appends := by
  cases hmoves : invocation.moves with
  | false => exact (steady_run hmoves).appends
  | true =>
    cases invocation with
    | cd c =>
      intro w input
      cases henter : w.enter c.path with
      | error failure =>
        refine ⟨.error (callFailure .cdFailed failure), w, input, [], .refl input,
          fun output _ => ?_⟩
        change c.run.on _ = _
        simp only [Cd.on_run, henter, Stream.pour_nil]
      | ok w' =>
        refine ⟨.ok (), w', input, [], .refl input, fun output _ => ?_⟩
        change c.run.on _ = _
        simp only [Cd.on_run, henter, Stream.pour_nil]
    | _ => cases hmoves

end Invocation

end CommandShell

import CommandShell.Proofs.Utility.Actions

/-!
# Reading and printing

What many actions come to: they take a text from the input or from a file, and then write another
one and do nothing else. The text of a file is the same as on an input once it has been read, so
what follows does not depend on where it came from.
-/

namespace CommandShell

def World.read? (w : World) (path : Text) : Option Text :=
  match w.openToRead path with
  | .ok place => Content.text? (w.content place)
  | .error _ => none

/-- The texts of files, one after the other, if all of them can be read. -/
def World.joined? (w : World) : List Text → Option Text
  | [] => some []
  | file :: later => do return (← w.read? file) ++ (← w.joined? later)

theorem Text.lines_ne_nil {text : Text} (h : text ≠ []) : Text.lines text ≠ [] := by
  intro hlines
  have hflatten := Text.flatten_lines text
  rw [hlines] at hflatten
  exact h hflatten.symm

namespace Action

variable {α β σ : Type}

/-- An action that writes a text and does nothing else, but for moving in the input. -/
def Prints (action : Action α) (a : α) (added : Text) : Prop :=
  ∀ w input, ∃ input', ∀ output, output.isWritable = true →
    action.on ⟨w, input, output⟩ = (.ok a, ⟨w, input', output.pour added⟩)

theorem prints_pure (a : α) : (pure a : Action α).Prints a [] := fun w input =>
  ⟨input, fun output _ => by rw [Stream.pour_nil]; rfl⟩

theorem prints_skip (count : Nat) :
    Prints (modify fun scene => { scene with input := scene.input.skip count }) ⟨⟩ [] :=
  fun w input => ⟨input.skip count, fun output _ => by rw [Stream.pour_nil]; rfl⟩

theorem Prints.bind {action : Action α} {next : α → Action β} {a : α} {b : β} {first second : Text}
    (h : action.Prints a first) (hnext : (next a).Prints b second) :
    (action >>= next).Prints b (first ++ second) := by
  intro w input
  obtain ⟨input', hon⟩ := h w input
  obtain ⟨input'', hon'⟩ := hnext w input'
  refine ⟨input'', fun output houtput => ?_⟩
  rw [on_bind, hon output houtput]
  dsimp only
  rw [hon' _ (Stream.isWritable_pour houtput first), Stream.pour_pour houtput]

theorem Prints.bind_pure {action : Action α} {a : α} {added : Text} (h : action.Prints a added)
    (b : β) : (action >>= fun _ => pure b).Prints b added := by
  have hbind : (action >>= fun _ => pure b).Prints b (added ++ []) := h.bind (prints_pure b)
  rwa [List.append_nil] at hbind

theorem prints_write (s : Text) : (write s).Prints () s := fun w input =>
  ⟨input, fun output houtput => by
    rw [write, on_onOutput, Stream.write_of_isWritable houtput]⟩

theorem prints_writeAll (texts : List Text) : (writeAll texts).Prints () texts.flatten :=
  fun w input => ⟨input, fun output houtput => by
    rw [writeAll, on_onOutput, Stream.writeAll_of_isWritable houtput]⟩

theorem prints_writeEach (texts : List Text) : (writeEach texts).Prints () texts.flatten := by
  induction texts with
  | nil => exact prints_pure ()
  | cons first later ih => exact (prints_write first).bind ih

/-- An action that fails and does nothing else, but for moving in the input. -/
def Fails (action : Action α) (failure : Failure) : Prop :=
  ∀ w input, ∃ input', ∀ output,
    action.on ⟨w, input, output⟩ = (.error failure, ⟨w, input', output⟩)

theorem fails_throw (failure : Failure) : (throw failure : Action α).Fails failure :=
  fun _ input => ⟨input, fun _ => rfl⟩

theorem Fails.bind {action : Action α} {failure : Failure} (h : action.Fails failure)
    (next : α → Action β) : (action >>= next).Fails failure := by
  intro w input
  obtain ⟨input', hon⟩ := h w input
  refine ⟨input', fun output => ?_⟩
  rw [on_bind, hon output]

theorem fails_skip {action : Action α} {failure : Failure} (h : action.Fails failure)
    (count : Nat) :
    Fails (do
      modify fun scene => { scene with input := scene.input.skip count }
      action) failure := fun w input => h w (input.skip count)

/-- What is written in the course of a fold. -/
def printedAlong (next : σ → α → σ) (added : σ → α → Text) : σ → List α → Text
  | _, [] => []
  | s, a :: later => added s a ++ printedAlong next added (next s a) later

theorem prints_foldlM {work : σ → α → Action σ} {next : σ → α → σ} {added : σ → α → Text}
    (h : ∀ s a, (work s a).Prints (next s a) (added s a)) (s : σ) (items : List α) :
    (items.foldlM work s).Prints (items.foldl next s) (printedAlong next added s items) := by
  induction items generalizing s with
  | nil => exact prints_pure s
  | cons a later ih => exact (h s a).bind (ih (next s a))

/-- An action that leaves all as it is, but for moving in the input. -/
def Reads (action : Action α) (w : World) (input : Stream) (a : α) (input' : Stream) : Prop :=
  ∀ output, action.on ⟨w, input, output⟩ = (.ok a, ⟨w, input', output⟩)

/-- An action that writes a text, or fails before it has written anything. -/
def Writes (action : Action Unit) (w : World) (input : Stream) (x : Except Failure Text) : Prop :=
  ∃ input', ∀ output, output.isWritable = true → action.on ⟨w, input, output⟩ =
    (x.map fun _ => (), ⟨w, input', output.pour (x.toOption.getD [])⟩)

section Writes

variable {w : World} {input input' input'' : Stream} {a : α}

theorem Prints.writes {action : Action Unit} {added : Text} (h : action.Prints () added) (w : World)
    (input : Stream) : action.Writes w input (.ok added) := h w input

theorem Fails.writes {action : Action Unit} {failure : Failure} (h : action.Fails failure)
    (w : World) (input : Stream) : action.Writes w input (.error failure) := by
  obtain ⟨input', hon⟩ := h w input
  refine ⟨input', fun output _ => ?_⟩
  rw [hon output, Except.toOption, Option.getD_none, Stream.pour_nil]
  rfl

theorem Writes.congr {action action' : Action Unit} {x : Except Failure Text}
    (h : action'.Writes w input x)
    (hon : ∀ output, action.on ⟨w, input, output⟩ = action'.on ⟨w, input, output⟩) :
    action.Writes w input x := by
  obtain ⟨input', hwrites⟩ := h
  refine ⟨input', fun output houtput => ?_⟩
  rw [hon output, hwrites output houtput]

theorem Reads.bind {action : Action α} {next : α → Action β} {b : β}
    (h : action.Reads w input a input') (hnext : (next a).Reads w input' b input'') :
    (action >>= next).Reads w input b input'' := by
  intro output
  rw [on_bind, h output]
  exact hnext output

theorem Reads.writes_bind {action : Action α} {next : α → Action Unit} {x : Except Failure Text}
    (h : action.Reads w input a input') (hnext : (next a).Writes w input' x) :
    (action >>= next).Writes w input x := by
  obtain ⟨input'', hon⟩ := hnext
  refine ⟨input'', fun output houtput => ?_⟩
  rw [on_bind, h output]
  exact hon output houtput

theorem Writes.append {action next : Action Unit} {first second : Text}
    (h : action.Writes w input (.ok first)) (hnext : ∀ input, next.Writes w input (.ok second)) :
    (action >>= fun _ => next).Writes w input (.ok (first ++ second)) := by
  obtain ⟨input', hon⟩ := h
  obtain ⟨input'', hon'⟩ := hnext input'
  refine ⟨input'', fun output houtput => ?_⟩
  rw [on_bind, hon output houtput]
  change next.on ⟨w, input', output.pour first⟩ = _
  rw [hon' _ (Stream.isWritable_pour houtput first)]
  exact congrArg (fun stream => (Except.ok (), Scene.mk w input'' stream))
    (Stream.pour_pour houtput first second)

theorem reads_pure (a : α) : (pure a : Action α).Reads w input a input := fun _ => rfl

end Writes

/-! ## A text on the input -/

section Input

variable {w : World} {text : Text} (hne : text ≠ [])

theorem reads_readInput : readInput.Reads w (.ofText text) text (.ended text) := by
  intro output
  rw [readInput, on_onInput]
  simp [Stream.ofText, Stream.read, pure, Except.pure, Stream.ended]

theorem reads_pendingLines :
    (ofInput (·.pendingLines)).Reads w (.ofText text) (Text.lines text) (.ofText text) := by
  intro output
  rw [on_ofInput]
  rfl

theorem reads_readInputLines :
    readInputLines.Reads w (.ofText text) (Text.lines text) (.ended text) := by
  refine reads_pendingLines.bind (fun output => ?_)
  rw [on_bind, on_modify, Text.flatten_lines]
  simp [Stream.ofText, Stream.skip, Stream.ended]

include hne

theorem reads_inputIsExhausted :
    inputIsExhausted.Reads w (.ofText text) false (.ofText text) := by
  intro output
  rw [inputIsExhausted, on_ofInput]
  change (Except.mapError Failure.crash (.ok (decide (text.length = 0))), _) = _
  rw [decide_eq_false (by simpa using hne)]
  rfl

theorem reads_fileOrInputLines (refusal : Complaint) :
    (fileOrInputLines [] refusal).Reads w (.ofText text) (Text.lines text) (.ended text) :=
  (reads_inputIsExhausted hne).bind reads_readInputLines

theorem reads_rewindInput (refusal : Complaint) :
    (rewindInput refusal).Reads w (.ofText text) () (.ofText text) := by
  have hend : (onInput (·.seekEnd)).Reads w (.ofText text) text.length (.ended text) := by
    intro output
    rw [on_onInput]
    rfl
  refine hend.bind ?_
  rw [if_neg (by simpa using hne)]
  intro output
  rw [on_onInput]
  rfl

end Input

/-! ## A text in a file -/

section File

variable {w : World} {path text : Text} (h : w.read? path = some text)
include h

theorem exists_place : ∃ place, w.openToRead path = .ok place ∧
    Content.text? (w.content place) = some text := by
  unfold World.read? at h
  cases hopen : w.openToRead path with
  | error failure =>
    rw [hopen] at h
    cases h
  | ok place =>
    rw [hopen] at h
    exact ⟨place, rfl, h⟩

theorem reads_openFile (input : Stream) : ∃ bytes, Content.text? bytes = some text ∧
    (openFile path).Reads w input bytes input := by
  obtain ⟨place, hopen, htext⟩ := exists_place h
  refine ⟨w.content place, htext, fun output => ?_⟩
  rw [openFile, on_bind, on_world]
  dsimp only
  rw [on_bind, on_ofCall, hopen]
  rfl

theorem reads_readFile (input : Stream) : (readFile path).Reads w input text input := by
  obtain ⟨bytes, htext, hopen⟩ := reads_openFile h input
  refine hopen.bind ?_
  unfold decode
  rw [htext]
  exact reads_pure text

theorem reads_readFileLines (input : Stream) :
    (readFileLines path).Reads w input (Text.lines text) input :=
  (reads_readFile h input).bind (reads_pure _)

theorem writes_selected (refusal : Complaint) (select : List Text → List Text) (input : Stream) :
    (do writeEach (select (← fileOrInputLines [path] refusal))).Writes w input
      (.ok (select (Text.lines text)).flatten) :=
  (reads_readFileLines h input).writes_bind ((prints_writeEach _).writes _ _)

theorem on_foldFileLines (start : σ) (work : σ → Text → Action σ) (input output : Stream) :
    (foldFileLines path start work).on ⟨w, input, output⟩ =
      ((Text.lines text).foldlM work start).on ⟨w, input, output⟩ := by
  obtain ⟨bytes, htext, hopen⟩ := reads_openFile h input
  have hlines : Content.lines bytes = (Text.lines text, false) := by
    rw [Content.lines, htext]
  rw [foldFileLines, on_bind, hopen output]
  simp only [hlines, Bool.false_eq_true, if_false, bind_pure]

end File

theorem on_readFile_of_none {w : World} {path : Text} (h : w.read? path = none) :
    ∃ failure, ∀ input output,
      (readFile path).on ⟨w, input, output⟩ = (.error failure, ⟨w, input, output⟩) := by
  unfold World.read? at h
  cases hopen : w.openToRead path with
  | error failure =>
    refine ⟨callFailure (.unreadable path) failure, fun input output => ?_⟩
    rw [readFile, openFile, on_bind, on_bind, on_world]
    dsimp only
    rw [on_bind, on_ofCall, hopen]
    rfl
  | ok place =>
    rw [hopen] at h
    refine ⟨.crash .notUtf8, fun input output => ?_⟩
    rw [readFile, openFile, on_bind, on_bind, on_world]
    dsimp only
    rw [on_bind, on_ofCall, hopen]
    simp only [Except.mapError, on_pure, decode, h]
    rfl

end Action

end CommandShell

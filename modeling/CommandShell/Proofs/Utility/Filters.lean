import CommandShell.Proofs.Plan.Redirects
import CommandShell.Proofs.Utility.Printing

/-!
# Commands as functions of a text

Some commands turn a text into another one. They take the text from a file or from the input, by
ways of their own for each, and what they write is the same for both; only `wc` ends its counts in
a line feed if they are those of files. So a command that is given a file does what it does without
one inside an input redirect from that file.
-/

namespace CommandShell

variable {file text : Text} {input : Stream} {w : World} {x : Except Failure Text}
  {files : List Text}

namespace Action

variable {α σ : Type}

/-- An input and a file with the same text in it lead to the same, but for what is written in the
end. -/
def Alike (w : World) (text trailer : Text) (fed named : Action Unit) : Prop :=
  ∃ x, fed.Writes w (.ofText text) x ∧ named.Writes w .empty (x.map (· ++ trailer))

theorem Alike.of_writes {fed named : Action Unit} (hfed : fed.Writes w (.ofText text) x)
    (hnamed : named.Writes w .empty x) : Alike w text [] fed named := by
  refine ⟨x, hfed, ?_⟩
  cases x with
  | error failure => exact hnamed
  | ok added =>
    change named.Writes w .empty (.ok (added ++ []))
    rwa [List.append_nil]

/-- Work on lines that always succeeds, or fails at once. -/
inductive Uniform (work : σ → α → Action σ) : Prop
  | prints (next : σ → α → σ) (added : σ → α → Text)
      (h : ∀ s a, (work s a).Prints (next s a) (added s a))
  | fails (failure : Failure) (h : ∀ s a, (work s a).Fails failure)

theorem writes_foldInputLines {work : σ → Text → Action σ} {next : σ → Text → σ}
    {added : σ → Text → Text} (h : ∀ s line, (work s line).Prints (next s line) (added s line))
    (start : σ) (w : World) (text : Text) :
    (foldInputLines start work >>= fun _ => pure ()).Writes w (.ofText text)
      (.ok (printedAlong next added start (Text.lines text))) := by
  have hskip : ∀ s line, Prints (do
      modify fun scene => { scene with input := scene.input.skip line.length }
      work s line) (next s line) (added s line) := fun s line =>
    (prints_skip line.length).bind (h s line)
  unfold foldInputLines
  rw [bind_assoc]
  exact reads_pendingLines.writes_bind (((prints_foldlM hskip start _).bind_pure ()).writes _ _)

theorem writes_foldFileLines_of_writes {work : σ → Text → Action σ} {start : σ}
    (hfile : w.read? file = some text)
    (h : ((Text.lines text).foldlM work start >>= fun _ => pure ()).Writes w input x) :
    (foldFileLines file start work >>= fun _ => pure ()).Writes w input x := by
  refine h.congr fun output => ?_
  rw [on_bind, on_bind, on_foldFileLines hfile]

theorem writes_foldFileLines {work : σ → Text → Action σ} {next : σ → Text → σ}
    {added : σ → Text → Text} (h : ∀ s line, (work s line).Prints (next s line) (added s line))
    (start : σ) (hfile : w.read? file = some text) (input : Stream) :
    (foldFileLines file start work >>= fun _ => pure ()).Writes w input
      (.ok (printedAlong next added start (Text.lines text))) :=
  writes_foldFileLines_of_writes hfile (((prints_foldlM h start _).bind_pure ()).writes _ _)

theorem alike_foldLines {work : σ → Text → Action σ} (hwork : Uniform work) (start : σ)
    (hfile : w.read? file = some text) (hne : text ≠ []) :
    Alike w text [] (foldInputLines start work >>= fun _ => pure ())
      (foldFileLines file start work >>= fun _ => pure ()) := by
  cases hwork with
  | prints next added h =>
    exact .of_writes (writes_foldInputLines h start w text)
      (writes_foldFileLines h start hfile .empty)
  | fails failure h =>
    -- The first line is where it fails, and there is one.
    obtain ⟨first, later, hlines⟩ := List.exists_cons_of_ne_nil (Text.lines_ne_nil hne)
    refine .of_writes (x := .error failure) ?_ (writes_foldFileLines_of_writes hfile ?_)
    · unfold foldInputLines
      rw [bind_assoc]
      refine reads_pendingLines.writes_bind ?_
      rw [hlines, List.foldlM_cons, bind_assoc]
      exact ((fails_skip (h start first) first.length).bind _).writes _ _
    · rw [hlines, List.foldlM_cons, bind_assoc]
      exact ((h start first).bind _).writes _ _

end Action

/-! ## Commands -/

open CommandShell.Action

theorem World.has_of_read? {path : Text} (h : w.read? path = some text) : w.has path = true := by
  obtain ⟨place, hopen, -⟩ := exists_place h
  obtain ⟨-, hnul, -⟩ := World.onPath_eq_ok.1 hopen
  obtain ⟨content, hfind⟩ := World.openToRead_eq_ok hopen
  unfold has find?
  rw [if_neg (by simpa using hnul), hfind]
  rfl

theorem Cut.on_readRanges (columns : Int) (value : Value) :
    ∃ x, ∀ scene, (readRanges columns value).on scene = (x, scene) := by
  have hrange : ∀ value, ∃ x, ∀ scene, (readRange columns value).on scene = (x, scene) := by
    intro value
    unfold readRange
    split
    · split <;> exact ⟨_, fun _ => rfl⟩
    · exact ⟨_, fun _ => rfl⟩
  have hranges : ∀ values : List Value, ∃ x, ∀ scene,
      (values.mapM (readRange columns)).on scene = (x, scene) := by
    intro values
    induction values with
    | nil => exact ⟨_, fun _ => rfl⟩
    | cons value later ih =>
      obtain ⟨x, hx⟩ := hrange value
      obtain ⟨y, hy⟩ := ih
      refine ⟨x >>= fun range => y.map (range :: ·), fun scene => ?_⟩
      rw [List.mapM_cons, on_bind, hx]
      cases x with
      | error failure => rfl
      | ok range =>
        dsimp only
        rw [on_bind, hy]
        cases y <;> rfl
  unfold readRanges
  split
  · exact hranges _
  · exact hranges _
  · exact ⟨_, fun _ => rfl⟩

theorem Cut.prints_writeLines (lines : List Text) :
    (writeLines lines).Prints () (Text.join ['\n'] lines) := by
  have hjoin : ∀ (front : List Text) (last : Text),
      (front.map (· ++ ['\n'])).flatten ++ last = Text.join ['\n'] (front ++ [last]) := by
    intro front last
    induction front with
    | nil => rfl
    | cons first later ih =>
      rw [List.map_cons, List.flatten_cons, List.append_assoc, ih]
      cases later <;> rfl
  unfold writeLines
  rcases List.eq_nil_or_concat' lines with rfl | ⟨front, last, rfl⟩
  · exact (prints_writeAll []).bind_pure ()
  · rw [List.dropLast_concat, List.getLast?_concat, ← hjoin]
    exact (prints_writeAll _).bind (prints_write last)

/-- The text that a command is offered: that of its first file, or else the text on its input, if
it is not empty. -/
inductive World.Offers (w : World) : List Text → Stream → Text → Prop
  | file {file text : Text} {input : Stream} (h : w.read? file = some text) (others : List Text)
      (hinput : input.isConnected = true) : w.Offers (file :: others) input text
  | input {text : Text} (h : text ≠ []) : w.Offers [] (.ofText text) text

theorem World.Offers.isConnected (h : w.Offers files input text) : input.isConnected = true := by
  cases h with
  | file _ _ hinput => exact hinput
  | input _ => rfl

section Offers

variable {w : World} {files : List Text} {input : Stream} {text : Text}

theorem Cut.reads_readLines (h : w.Offers files input text) (ranges : Value) :
    ∃ input', (readLines ⟨ranges, files⟩).Reads w input (Text.lines text) input' := by
  cases h with
  | file hfile others _ => exact ⟨input, reads_readFileLines hfile _⟩
  | input hne => exact ⟨_, (reads_inputIsExhausted hne).bind reads_readInputLines⟩

theorem Sorting.writes_run {file? : Option Text} (h : w.Offers file?.toList input text)
    (reverse : Bool) : (Sorting.run ⟨reverse, file?⟩).Writes w input
      (.ok (order reverse (Text.lines text)).flatten) := by
  cases file? with
  | none =>
    cases h with
    | input hne =>
      exact (reads_rewindInput hne _).writes_bind <|
        reads_readInputLines.writes_bind ((prints_writeEach _).writes _ _)
  | some file =>
    cases h with
    | file hfile _ _ =>
      obtain ⟨place, hopen, htext⟩ := exists_place hfile
      have hread : (readFileLines file).Reads w input (Text.lines text) input := by
        intro output
        rw [readFileLines, on_bind, on_world]
        simp only [World.has_of_read? hfile, Bool.not_true, Bool.false_eq_true, if_false]
        rw [on_bind, on_ofCall, hopen]
        simp only [Except.mapError, decode, htext]
        rfl
      exact hread.writes_bind ((prints_writeEach _).writes _ _)

/-- What `uniq` writes for a line that comes after another one. -/
def Uniq.added (ignoreCase : Bool) (previous line : Text) : Text :=
  if key ignoreCase (Text.trim line) ≠ key ignoreCase previous then Text.trim line ++ ['\n'] else []

theorem Uniq.prints_visit (uniq : Uniq) (previous line : Text) :
    (uniq.visit previous line).Prints (Text.trim line) (added uniq.ignoreCase previous line) := by
  unfold visit added
  dsimp only
  split_ifs
  · exact (prints_write _).bind_pure _
  · exact prints_pure _

theorem Uniq.writes_run {file? : Option Text} (h : w.Offers file?.toList input text)
    (ignoreCase : Bool) : (Uniq.run ⟨ignoreCase, file?⟩).Writes w input
      (.ok (printedAlong (fun _ line => Text.trim line) (added ignoreCase) []
        (Text.lines text))) := by
  cases file? with
  | none =>
    cases h with
    | input hne =>
      exact (reads_rewindInput hne _).writes_bind
        (writes_foldInputLines (prints_visit ⟨ignoreCase, none⟩) [] w text)
  | some file =>
    cases h with
    | file hfile _ _ =>
      have hworld : Action.world.Reads w input w input := fun _ => rfl
      refine hworld.writes_bind ?_
      rw [World.has_of_read? hfile]
      exact writes_foldFileLines (prints_visit ⟨ignoreCase, some file⟩) [] hfile input

end Offers

namespace Cat

/-- An input that is not empty is copied, whatever files there are. -/
theorem writes_run_input (files : List Text) (hne : text ≠ []) :
    (Cat.run ⟨files⟩).Writes w (.ofText text) (.ok text) :=
  (reads_inputIsExhausted hne).writes_bind <|
    reads_readInput.writes_bind ((prints_write text).writes _ _)

def copy (file : Text) : Action Unit := do write (← readFile file)

theorem on_run_files (hfiles : files ≠ []) (w : World) (output : Stream) :
    (Cat.run ⟨files⟩).on ⟨w, .empty, output⟩ = (files.forM copy).on ⟨w, .empty, output⟩ := by
  have hempty : inputIsExhausted.Reads w .empty true .empty := fun _ => rfl
  rw [run, on_bind, hempty output]
  simp only [Bool.not_true, Bool.false_eq_true, if_false]
  rw [if_neg (by simpa using hfiles)]
  rfl

theorem writes_copy (h : w.joined? files = some text) (input : Stream) :
    (files.forM copy).Writes w input (.ok text) := by
  induction files generalizing text input with
  | nil =>
    cases h
    exact (prints_pure ()).writes _ _
  | cons file later ih =>
    obtain ⟨first, hfirst, hlater⟩ := Option.bind_eq_some_iff.1 h
    obtain ⟨rest, hrest, hjoined⟩ := Option.bind_eq_some_iff.1 hlater
    obtain rfl : first ++ rest = text := Option.some.inj hjoined
    have hcopy : (copy file).Writes w input (.ok first) :=
      (reads_readFile hfirst input).writes_bind ((prints_write first).writes _ _)
    exact hcopy.append (ih hrest)

theorem exists_error_copy (h : w.joined? files = none) (input : Stream) {output : Stream}
    (houtput : output.isWritable = true) :
    ∃ failure after, (files.forM copy).on ⟨w, input, output⟩ = (.error failure, after) := by
  induction files generalizing input output with
  | nil => cases h
  | cons file later ih =>
    change ∃ failure after, (copy file >>= fun _ => later.forM copy).on _ = _
    rw [on_bind]
    cases hfirst : w.read? file with
    | none =>
      obtain ⟨failure, hfail⟩ := on_readFile_of_none hfirst
      refine ⟨failure, ⟨w, input, output⟩, ?_⟩
      rw [copy, on_bind, hfail]
    | some first =>
      have hlater : w.joined? later = none := by
        cases hlater : w.joined? later with
        | none => rfl
        | some rest =>
          rw [World.joined?, hfirst, hlater] at h
          cases h
      obtain ⟨input', hcopy⟩ : (copy file).Writes w input (.ok first) :=
        (reads_readFile hfirst input).writes_bind ((prints_write first).writes _ _)
      rw [hcopy output houtput]
      exact ih hlater input' (Stream.isWritable_pour houtput _)

end Cat

private theorem Wc.reads_files {w : World} {files texts : List Text}
    (h : List.Forall₂ (fun file text => w.read? file = some text) files texts) (input : Stream) :
    (files.mapM readFile).Reads w input texts input := by
  induction h with
  | nil => exact reads_pure []
  | @cons file text files texts hfile _ ih =>
    rw [List.mapM_cons]
    exact (reads_readFile hfile input).bind (ih.bind (reads_pure (text :: texts)))

theorem Wc.writes_run_files {w : World} {files texts : List Text} (hne : files ≠ [])
    (h : List.Forall₂ (fun file text => w.read? file = some text) files texts)
    (measure? : Option Measure) (input : Stream) : (Wc.run ⟨measure?, files⟩).Writes w input
      (.ok ((Counts.ofLines (Text.lines texts.flatten)).render measure? ++ ['\n'])) := by
  obtain ⟨file, later, rfl⟩ := List.exists_cons_of_ne_nil hne
  exact (reads_files h input).writes_bind
    (((prints_write _).bind (prints_write ['\n'])).writes _ _)

section Commands

variable {w : World} {file text : Text} (hfile : w.read? file = some text) (hne : text ≠ [])
include hfile hne

theorem Cat.alike : Alike w text [] (Cat.run ⟨[]⟩) (Cat.run ⟨[file]⟩) := by
  have hjoined : w.joined? [file] = some text := by
    rw [World.joined?, hfile]
    exact congrArg some (List.append_nil text)
  exact .of_writes (writes_run_input [] hne) <|
    (writes_copy hjoined .empty).congr (on_run_files (List.cons_ne_nil _ _) w)

theorem Cut.alike (ranges : Value) :
    Alike w text [] (Cut.run ⟨ranges, []⟩) (Cut.run ⟨ranges, [file]⟩) := by
  set lines := (Text.lines text).map Text.withoutLineEnd with hlines
  obtain ⟨x, hx⟩ := on_readRanges (columns lines) ranges
  have hrest : ∃ y, ∀ input, (readRanges (columns lines) ranges >>= fun ranges =>
      writeLines (lines.map (slices (Range.merge ranges)))).Writes w input y := by
    cases x with
    | error failure =>
      refine ⟨.error failure, fun input => ⟨input, fun output _ => ?_⟩⟩
      rw [on_bind, hx, Except.toOption, Option.getD_none, Stream.pour_nil]
      rfl
    | ok ranges' =>
      exact ⟨_, fun input => Reads.writes_bind (fun output => hx _)
        ((prints_writeLines (lines.map (slices (Range.merge ranges')))).writes _ _)⟩
  obtain ⟨y, hy⟩ := hrest
  obtain ⟨_, hfed⟩ := reads_readLines (.input hne : w.Offers _ _ _) ranges
  obtain ⟨_, hnamed⟩ := reads_readLines (.file hfile [] rfl : w.Offers _ .empty _) ranges
  exact .of_writes (hfed.writes_bind (hy _)) (hnamed.writes_bind (hy _))

theorem Grep.alike (pattern : Pattern) :
    Alike w text [] (Grep.run ⟨pattern, []⟩) (Grep.run ⟨pattern, [file]⟩) := by
  apply Alike.of_writes (x := .ok ((Text.lines text).filter (Grep.selects ⟨pattern, []⟩)).flatten)
  · exact (reads_inputIsExhausted hne).writes_bind <|
      reads_readInputLines.writes_bind ((prints_writeAll _).writes _ _)
  · have hline : Grep.lineOf ⟨pattern, [file]⟩ file = id := rfl
    change Action.Writes (forM [file] _ : Action Unit) w .empty _
    rw [List.forM_cons, List.forM_nil, bind_pure_unit, hline]
    refine (reads_readFileLines hfile _).writes_bind ?_
    rw [List.map_id]
    exact (prints_writeEach _).writes _ _

theorem alike_selected (refusal : Complaint) (select : List Text → List Text) :
    Alike w text [] (do writeEach (select (← fileOrInputLines [] refusal)))
      (do writeEach (select (← fileOrInputLines [file] refusal))) :=
  .of_writes ((reads_fileOrInputLines hne refusal).writes_bind ((prints_writeEach _).writes _ _))
    (writes_selected hfile refusal select .empty)

theorem Head.alike (count : Int) :
    Alike w text [] (Head.run ⟨count, []⟩) (Head.run ⟨count, [file]⟩) :=
  alike_selected hfile hne .headNoInput (select count)

theorem Sed.alike (pattern : Pattern) (replacement : Text) (everywhere : Bool) :
    Alike w text [] (Sed.run ⟨pattern, replacement, everywhere, []⟩)
      (Sed.run ⟨pattern, replacement, everywhere, [file]⟩) := by
  have hedit : Uniform fun (_ : Unit) line =>
      edit ⟨pattern, replacement, everywhere, []⟩ line := by
    unfold edit
    cases Regex.Template.ofText pattern replacement with
    | error cause => exact .fails (.crash cause) fun _ _ => (fails_throw _).bind _
    | ok template =>
      exact .prints (fun _ _ => ()) _ fun _ line => (prints_pure template).bind (prints_write _)
  obtain ⟨x, hfed, hnamed⟩ := alike_foldLines hedit () hfile hne
  rw [bind_pure_unit] at hfed hnamed
  exact ⟨x, (reads_inputIsExhausted hne).writes_bind hfed, hnamed⟩

theorem Sorting.alike (reverse : Bool) :
    Alike w text [] (Sorting.run ⟨reverse, none⟩) (Sorting.run ⟨reverse, some file⟩) :=
  .of_writes (writes_run (.input hne) reverse) (writes_run (.file hfile [] rfl) reverse)

theorem Tail.alike (count : Int) :
    Alike w text [] (Tail.run ⟨count, []⟩) (Tail.run ⟨count, [file]⟩) :=
  alike_selected hfile hne .tailNoInput (select count)

theorem Wc.alike (measure? : Option Measure) :
    Alike w text ['\n'] (Wc.run ⟨measure?, []⟩) (Wc.run ⟨measure?, [file]⟩) := by
  refine ⟨.ok ((Counts.ofLines (Text.lines text)).render measure?), ?_, ?_⟩
  · exact (reads_inputIsExhausted hne).writes_bind <|
      reads_readInputLines.writes_bind ((prints_write _).writes _ _)
  · have hwrites := writes_run_files (List.cons_ne_nil file []) (.cons hfile .nil) measure? .empty
    rwa [List.flatten_singleton] at hwrites

theorem Uniq.alike (ignoreCase : Bool) :
    Alike w text [] (Uniq.run ⟨ignoreCase, none⟩) (Uniq.run ⟨ignoreCase, some file⟩) :=
  .of_writes (writes_run (.input hne) ignoreCase) (writes_run (.file hfile [] rfl) ignoreCase)

end Commands

/-! ## The file that a command is given -/

namespace Utility

/-- Whether a command that turns a text into another one has all its operands but a file. -/
def lacksFile : Utility → List Text → Bool
  | cat, [] | cut, [] | head, [] | sort, [] | tail, [] | uniq, [] | wc, [] => true
  | grep, [_] | sed, [_] => true
  | _, _ => false

/-- What a command writes after all else if it is given files. -/
def trailer : Utility → Text
  | wc => ['\n']
  | _ => []

end Utility

private theorem Sed.ofExpression_eq (expression : Text) (files : List Text) :
    ofExpression expression files =
      (ofExpression expression []).map fun sed => { sed with files } := by
  unfold ofExpression
  split
  · split_ifs
    · rfl
    · split
      · split <;> rfl
      · rfl
  · rfl

/-- A file is accepted wherever it is lacking, and then does as well as an input. -/
theorem Invocation.check_file {utility : Utility} {operands : List Text}
    (h : utility.lacksFile operands = true) (flags : List Flag) (file : Text) (w : World) :
    match check utility ⟨some flags, some operands, true⟩ w with
    | .error failure =>
      check utility ⟨some flags, some (operands ++ [file]), true⟩ w = .error failure
    | .ok fed => ∃ named,
      check utility ⟨some flags, some (operands ++ [file]), true⟩ w = .ok named ∧
      ∀ text, w.read? file = some text → text ≠ [] →
        Alike w text utility.trailer fed.run named.run := by
  rcases operands with _ | ⟨first, _ | ⟨second, later⟩⟩ <;> cases utility <;> try cases h
  case nil.cat =>
    cases flags with
    | nil => exact ⟨_, rfl, fun text => Cat.alike⟩
    | cons flag later => rfl
  case nil.cut =>
    rcases flags with _ | ⟨flag, _ | ⟨second, later⟩⟩
    · rfl
    · exact ⟨_, rfl, fun text hfile hne => Cut.alike hfile hne flag.value⟩
    · rfl
  case nil.head =>
    dsimp only [check, Head.check, Arguments.flags, Arguments.complete, bind, Except.bind, pure,
      Except.pure, List.nil_append]
    cases Head.countFrom usualLineCount flags with
    | error failure => rfl
    | ok count => exact ⟨_, rfl, fun text hfile hne => Head.alike hfile hne count⟩
  case nil.sort =>
    rw [check, check, Sorting.check_eq, Sorting.check_eq]
    by_cases hmany : flags.length > 1
    · simp only [if_pos hmany]
      rfl
    by_cases hother : flags.any (·.name ≠ Sorting.reverseFlag) = true
    · simp only [if_neg hmany, if_pos hother]
      rfl
    · simp only [if_neg hmany, if_neg hother]
      exact ⟨_, rfl, fun text hfile hne => Sorting.alike hfile hne _⟩
  case nil.tail =>
    dsimp only [check, Tail.check, Arguments.flags, Arguments.complete, bind, Except.bind, pure,
      Except.pure, List.nil_append]
    cases Tail.countOf flags with
    | error failure => rfl
    | ok count => exact ⟨_, rfl, fun text hfile hne => Tail.alike hfile hne count⟩
  case nil.uniq =>
    rw [check, check, Uniq.check_eq, Uniq.check_eq]
    by_cases hmany : flags.length > 1
    · simp only [if_pos hmany]
      rfl
    by_cases hother : flags.any (·.name ≠ Uniq.ignoreCaseFlag) = true
    · simp only [if_neg hmany, if_pos hother]
      rfl
    · simp only [if_neg hmany, if_neg hother]
      exact ⟨_, rfl, fun text hfile hne => Uniq.alike hfile hne _⟩
  case nil.wc =>
    dsimp only [check, Wc.check, Arguments.flags, Arguments.complete, bind, Except.bind, pure,
      Except.pure, List.nil_append]
    cases Wc.checkFlags flags with
    | error failure => rfl
    | ok measure? => exact ⟨_, rfl, fun text hfile hne => Wc.alike hfile hne measure?⟩
  case cons.nil.grep =>
    dsimp only [check, Grep.check, Arguments.operands, Arguments.complete, bind, Except.bind, pure,
      Except.pure, List.nil_append, List.cons_append]
    rcases Pattern.ofText first with (_ | cause) | pattern
    · rfl
    · rfl
    · exact ⟨_, rfl, fun text hfile hne => Grep.alike hfile hne pattern⟩
  case cons.nil.sed =>
    change match sed <$> Sed.ofExpression first [] with
      | .error failure => sed <$> Sed.ofExpression first [file] = .error failure
      | .ok fed => ∃ named, sed <$> Sed.ofExpression first [file] = .ok named ∧ ∀ text, _ → _ → _
    rw [Sed.ofExpression_eq first [file]]
    cases hsed : Sed.ofExpression first [] with
    | error failure => rfl
    | ok fed =>
      refine ⟨_, rfl, fun text hfile hne => ?_⟩
      have hfiles := Sed.files_of_ofExpression hsed
      obtain ⟨pattern, replacement, everywhere, files⟩ := fed
      obtain rfl : files = [] := hfiles
      exact Sed.alike hfile hne pattern replacement everywhere

/-! ## The effect of a command on a text -/

open Redirection Shell

namespace Plan

section Command

variable {utility : Utility} {flags : List Flag} {operands : List Text} {w : World}
  {input output : Stream} (hinput : input.isConnected = true) (houtput : output.isWritable = true)
include hinput houtput

theorem effect_of_refused {failure : Failure}
    (hcheck : Invocation.check utility ⟨some flags, some operands, true⟩ w = .error failure) :
    (simple (.command utility flags operands)).effect ⟨w, input, output⟩ =
      ⟨.error failure, ⟨w, input, output⟩, w⟩ := by
  apply effect_of_error hinput houtput
  change (Simple.command utility flags operands).assemble.on w = _
  rw [Simple.on_assemble_command, hcheck]
  rfl

theorem effect_of_accepted {invocation : Invocation}
    (hcheck : Invocation.check utility ⟨some flags, some operands, true⟩ w = .ok invocation) :
    (simple (.command utility flags operands)).effect ⟨w, input, output⟩ =
      let ran := invocation.run.on ⟨w, input, output⟩
      ⟨ran.1.map fun _ => 0, ran.2, ran.2.world⟩ := by
  have hassemble : ((simple (.command utility flags operands)).assemble .both).on w =
      (.ok (.command invocation), w) := by
    change (Simple.command utility flags operands).assemble.on w = _
    rw [Simple.on_assemble_command, hcheck]
    rfl
  exact @effect_of_ok _ _ ⟨w, input, output⟩ w hinput houtput hassemble

theorem effect_of_writes {invocation : Invocation}
    (hcheck : Invocation.check utility ⟨some flags, some operands, true⟩ w = .ok invocation)
    (hwrites : invocation.run.Writes w input x) :
    ∃ input', (simple (.command utility flags operands)).effect ⟨w, input, output⟩ =
      ⟨x.map fun _ => 0, ⟨w, input', output.pour (x.toOption.getD [])⟩, w⟩ := by
  obtain ⟨input', hon⟩ := hwrites
  refine ⟨input', ?_⟩
  rw [effect_of_accepted hinput houtput hcheck, hon output houtput]
  cases x <;> rfl

end Command

private theorem effect_fed {utility : Utility} {flags : List Flag} {operands : List Text}
    {output : Stream} (hfile : w.read? file = some text) (hinput : input.isOpen = true)
    (houtput : output.isWritable = true) :
    let bare := (simple (.command utility flags operands)).effect ⟨w, .ofText text, .empty⟩
    let fed := (simple (.redirect (some file) none (.command utility flags operands))).effect
      ⟨w, input, output⟩
    fed.result = bare.result ∧ fed.world = bare.world ∧
      fed.scene.output = output.pour (passed bare.result bare.scene.output.held) := by
  obtain ⟨place, hopen, htext⟩ := exists_place hfile
  have hopens : List.Forall₂ (Opens w) [⟨some file, none⟩] [⟨some place, none⟩] :=
    .cons ⟨.some hopen, .none⟩ .nil
  have hassemble := Simple.on_assemble_command utility flags operands w
  have hfor : textFor w input [place] = text := by
    rw [textFor, htext]
    rfl
  have hdelivers : Effect.Delivers [] output
      ((simple (.command utility flags operands)).effect ⟨w, .ofText text, .empty⟩)
      ((simple (.redirect (some file) none (.command utility flags operands))).effect
        ⟨w, input, output⟩) := by
    cases hcheck : Invocation.check utility ⟨some flags, some operands, true⟩ w with
    | error failure =>
      rw [hcheck] at hassemble
      exact @delivers_of_error _ _ ⟨w, input, output⟩ _ _ _ hopens hinput houtput _ text hassemble
    | ok invocation =>
      rw [hcheck] at hassemble
      have hsources : ∀ found ∈ [place],
          (Content.text? (w.content found)).isSome = true ∧ found ∉ ([] : List Location) := by
        intro found hfound
        rw [List.mem_singleton.1 hfound, htext]
        exact ⟨rfl, List.not_mem_nil⟩
      rw [← hfor]
      exact @delivers_of_ok _ _ ⟨w, input, output⟩ _ _ _ hopens hinput houtput
        (List.cons_ne_nil _ _) hsources List.nodup_nil _ hassemble
  exact ⟨hdelivers.result, hdelivers.world, hdelivers.output⟩

/-- A command that is given a file does what it does without one inside an input redirect from
that file: it ends in the same way, leaves all files alone, and writes the same, if it succeeds,
but for the line feed that `wc` adds. -/
theorem effect_file {utility : Utility} {operands : List Text} {w : World} {file text : Text}
    {input output : Stream} (hlacks : utility.lacksFile operands = true)
    (hfile : w.read? file = some text) (hne : text ≠ []) (hinput : input.isOpen = true)
    (houtput : output.isWritable = true) (flags : List Flag) :
    let named := (simple (.command utility flags (operands ++ [file]))).effect ⟨w, .empty, output⟩
    let fed := (simple (.redirect (some file) none (.command utility flags operands))).effect
      ⟨w, input, output⟩
    named.result = fed.result ∧ named.world = w ∧ fed.world = w ∧
      (∀ status, fed.result = .ok status →
        fed.scene.output.write utility.trailer = .ok named.scene.output) ∧
      ∀ failure, fed.result = .error failure → named.scene.output = fed.scene.output := by
  intro named fed
  obtain ⟨hresult, hworld, hout⟩ : fed.result = _ ∧ fed.world = _ ∧ fed.scene.output = _ :=
    effect_fed hfile hinput houtput
  have hcheck := Invocation.check_file hlacks flags file w
  cases hfed : Invocation.check utility ⟨some flags, some operands, true⟩ w with
  | error failure =>
      rw [hfed] at hcheck
      rw [effect_of_refused rfl rfl hfed] at hresult hworld hout
      have hnamed : named = ⟨.error failure, ⟨w, .empty, output⟩, w⟩ :=
        effect_of_refused rfl houtput hcheck
      rw [hnamed, hresult, hworld, hout, passed, Stream.pour_nil]
      exact ⟨rfl, rfl, rfl, by rintro _ ⟨⟩, fun _ _ => rfl⟩
  | ok invocation =>
      rw [hfed] at hcheck
      obtain ⟨given, hgiven, halike⟩ := hcheck
      obtain ⟨x, hwrites, hwrites'⟩ := halike text hfile hne
      obtain ⟨input', hnamed⟩ : ∃ input', named = _ := effect_of_writes rfl houtput hgiven hwrites'
      have hbare : ∃ input', (simple (.command utility flags operands)).effect
          ⟨w, .ofText text, .empty⟩ =
          ⟨x.map fun _ => 0, ⟨w, input', .ended (x.toOption.getD [])⟩, w⟩ := by
        have hempty : Stream.empty.pour (x.toOption.getD []) = .ended (x.toOption.getD []) :=
          Stream.pour_ended [] _
        rw [← hempty]
        exact effect_of_writes rfl rfl hfed hwrites
      obtain ⟨inner, hbare⟩ := hbare
      rw [hbare] at hresult hworld hout
      rw [hnamed, hresult, hworld, hout]
      cases x with
      | error failure => exact ⟨rfl, rfl, rfl, by rintro _ ⟨⟩, fun _ _ => rfl⟩
      | ok added =>
          refine ⟨rfl, rfl, rfl, fun _ _ => ?_, by rintro _ ⟨⟩⟩
          change (output.pour added).write _ = .ok (output.pour (added ++ utility.trailer))
          rw [Stream.write_of_isWritable (Stream.isWritable_pour houtput added),
            Stream.pour_pour houtput]

/-- Line ends in a file are line feeds by the time they are counted. -/
theorem effect_file_wc :
    let named := (simple (.command .wc [] [['a']])).effect ⟨shelf, .empty, .empty⟩
    let fed := (simple (.redirect (some ['a']) none (.command .wc [] []))).effect
      ⟨shelf, .ofText ['z'], .empty⟩
    named.result = .ok 0 ∧ fed.scene.output.held = "1 1 2".toList ∧
      fed.scene.output.write ['\n'] = .ok named.scene.output := by
  intro named fed
  have hfed : fed.result = .ok 0 := by cbv
  obtain ⟨hresult, -, -, hok, -⟩ := @effect_file .wc [] shelf ['a'] "x\n".toList (.ofText ['z'])
    .empty rfl (by cbv) (by decide) rfl rfl []
  exact ⟨hresult.trans hfed, by cbv, hok 0 hfed⟩

end Plan

end CommandShell

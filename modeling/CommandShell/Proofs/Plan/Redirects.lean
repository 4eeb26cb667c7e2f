import CommandShell.Proofs.Files.Put
import CommandShell.Proofs.Plan.Effects
import CommandShell.Proofs.Plan.Outcomes

/-!
# Stacks of redirects

A command may stand in any number of redirects, the first one innermost. All their files are opened
before the command is checked, those of the outermost one first. Each redirect has an input and an
output of its own, so what the command reads comes from the first file to read, and what it writes
goes to the first file to write; the others to write are emptied, and nothing is ever written to
them.
-/

namespace CommandShell

open Shell List

/-- What a redirect reads from and what it writes to, where it does. -/
structure Redirection (α : Type) where
  source : Option α
  sink : Option α

def Stream.rest : Stream → Text
  | memory text position _ => text.drop position
  | _ => []

/-- A command with redirects around it, the first one innermost. -/
def Simple.redirected {κ : Type} (simple : Simple κ) (redirects : List (Redirection Text)) :
    Simple κ :=
  redirects.foldl (fun child files => .redirect files.source files.sink child) simple

namespace Redirection

def sources {α : Type} (redirects : List (Redirection α)) : List α :=
  redirects.filterMap (·.source)

def sinks {α : Type} (redirects : List (Redirection α)) : List α :=
  redirects.filterMap (·.sink)

@[simp] theorem sources_append_singleton {α : Type} (redirects : List (Redirection α))
    (last : Redirection α) :
    sources (redirects ++ [last]) = sources redirects ++ last.source.toList := by
  rw [sources, filterMap_append]
  rcases last with ⟨_ | _, _⟩ <;> rfl

@[simp] theorem sinks_append_singleton {α : Type} (redirects : List (Redirection α))
    (last : Redirection α) : sinks (redirects ++ [last]) = sinks redirects ++ last.sink.toList := by
  rw [sinks, filterMap_append]
  rcases last with ⟨_, _ | _⟩ <;> rfl

/-- The text for a command inside redirects: that of the first file, or what is left of the
input. -/
def textFor (w : World) (input : Stream) : List Location → Text
  | [] => input.rest
  | first :: _ => (Content.text? (w.content first)).getD []

/-- The files of a redirect, as a world has them: one to be read, and a place for one to be
written. -/
structure Opens (w : World) (files : Redirection Text) (places : Redirection Location) : Prop where
  source : Option.Rel (fun path place => w.openToRead path = .ok place) files.source places.source
  sink : Option.Rel (fun path place => ∃ w', w.openToWrite path = .ok (place, w'))
    files.sink places.sink

/-- A job in a redirect whose files have just been opened. -/
def around (child : Job) (places : Redirection Location) : Job :=
  .redirect (places.source.map .start) (places.sink.map .start) .empty .empty child

end Redirection

open Redirection

/-- A job with redirects around it, the first one innermost. -/
def Job.redirected (job : Job) (places : List (Redirection Location)) : Job :=
  places.foldl around job

variable {w' : World}

namespace Redirection

/-! ## Assembly -/

section Opens

variable {w : World} {redirects : List (Redirection Text)} {places : List (Redirection Location)}

theorem assemble_command {utility : Utility} {flags : List Flag} {operands : List Text} {job : Job}
    (h : (Simple.command utility flags operands).assemble.on w = (.ok job, w')) :
    ∃ invocation, job = .command invocation := by
  obtain ⟨w₁, w₂, -, h⟩ := on_bind_eq_ok.1 h
  obtain ⟨invocation, w₃, -, h⟩ := on_bind_eq_ok.1 h
  cases h
  exact ⟨invocation, rfl⟩

variable {place : Redirection Location}

theorem exists_opens (h : List.Forall₂ (Opens w) redirects places) (hplace : place ∈ places) :
    ∃ files, Opens w files place := by
  induction h with
  | nil => cases hplace
  | cons hfirst hlater ih =>
    rcases mem_cons.1 hplace with rfl | hplace
    · exact ⟨_, hfirst⟩
    · exact ih hplace

theorem takes_of_opens (h : List.Forall₂ (Opens w) redirects places) :
    ∀ file ∈ sinks places, w.root.Takes file := by
  intro file hfile
  obtain ⟨place, hplace, hsink⟩ := mem_filterMap.1 hfile
  obtain ⟨files, -, hopen⟩ := exists_opens h hplace
  rw [hsink] at hopen
  generalize files.sink = path? at hopen
  cases hopen with
  | some hopen => exact World.takes_of_openToWrite hopen.choose_spec

theorem exists_file_of_opens (h : List.Forall₂ (Opens w) redirects places) :
    ∀ file ∈ sources places, ∃ found, w.root.get? file = some (.file found) := by
  intro file hfile
  obtain ⟨place, hplace, hsource⟩ := mem_filterMap.1 hfile
  obtain ⟨files, hopen, -⟩ := exists_opens h hplace
  rw [hsource] at hopen
  generalize files.source = path? at hopen
  cases hopen with
  | some hopen =>
    obtain ⟨found, hfind⟩ := World.openToRead_eq_ok hopen
    exact ⟨found, (World.find_eq_ok.1 hfind).2⟩

private theorem Opens.source_open {files : Redirection Text} (h : Opens w files place)
    (hplaces : ∀ place ∈ sinks places, w.root.Takes place) :
    (Source.open? files.source).on (w.emptied (sinks places)) =
      (.ok (place.source.map .start), w.emptied (sinks places)) := by
  obtain ⟨hsource, -⟩ := h
  generalize files.source = path?, place.source = source at hsource
  cases hsource with
  | none => rfl
  | some hopen =>
    refine on_bind_eq_ok.2 ⟨_, _, on_get _, on_bind_eq_ok.2 ⟨_, _, ?_, on_pure _ _⟩⟩
    rw [on_ofCall, World.openToRead_emptied hplaces hopen]
    rfl

private theorem Opens.sink_open {files : Redirection Text} (h : Opens w files place)
    (hplaces : ∀ place ∈ sinks places, w.root.Takes place) :
    (Sink.open? files.sink).on (w.emptied (sinks places)) =
      (.ok (place.sink.map .start), w.emptied (sinks (place :: places))) := by
  obtain ⟨-, hsink⟩ := h
  rcases place with ⟨source, sink⟩
  generalize files.sink = path? at hsink
  cases hsink with
  | none => rfl
  | @some path file hopen =>
    obtain ⟨w', hopen⟩ := hopen
    refine on_bind_eq_ok.2 ⟨_, _, on_get _, on_bind_eq_ok.2
      ⟨(file, w.emptied (file :: sinks places)), w.emptied (sinks places), ?_,
        on_bind_eq_ok.2 ⟨_, _, on_set _ _, on_pure _ _⟩⟩⟩
    rw [on_ofCall, World.openToWrite_emptied hplaces hopen]
    rfl

/-- The files of redirects are opened from the last to the first, and then what is inside is
assembled. -/
theorem on_assemble_redirected (h : List.Forall₂ (Opens w) redirects places)
    (simple : Simple Utility) :
    (simple.redirected redirects).assemble.on w =
      (do return (← simple.assemble).redirected places : Shell Job).on
        (w.emptied (sinks places)) := by
  induction h generalizing simple with
  | nil => exact (congrArg (fun step => step.on w) (bind_pure simple.assemble)).symm
  | @cons files place redirects places hfirst hlater ih =>
    have htakes := takes_of_opens hlater
    have hredirect : (Simple.redirect files.source files.sink simple).assemble.on
        (w.emptied (sinks places)) =
        (do return around (← simple.assemble) place : Shell Job).on
          (w.emptied (sinks (place :: places))) := by
      rw [Simple.assemble, on_bind, hfirst.source_open htakes]
      dsimp only
      rw [on_bind, hfirst.sink_open htakes]
      rfl
    change ((Simple.redirect files.source files.sink simple).redirected redirects).assemble.on w =
      _
    rw [ih, on_bind, hredirect, on_bind, on_bind]
    rcases simple.assemble.on (w.emptied (sinks (place :: places))) with ⟨_ | _, _⟩ <;> rfl

theorem content_emptied_of_opens (h : List.Forall₂ (Opens w) redirects places)
    (hdisjoint : ∀ file ∈ sources places, file ∉ sinks places) :
    ∀ file ∈ sources places, (w.emptied (sinks places)).content file = w.content file := by
  intro file hfile
  obtain ⟨found, hfound⟩ := exists_file_of_opens h file hfile
  rw [World.content, World.content, hfound,
    World.get?_emptied (takes_of_opens h) hfound (hdisjoint file hfile)]

theorem textFor_congr (input : Stream) {files : List Location}
    (h : ∀ file ∈ files, w'.content file = w.content file) :
    textFor w' input files = textFor w input files := by
  cases files with
  | nil => rfl
  | cons first later => rw [textFor, textFor, h first mem_cons_self]

theorem ready_of_opens (h : List.Forall₂ (Opens w) redirects places) (w' : World)
    (hroot : w'.root = (w.emptied (sinks places)).root) :
    ∀ file ∈ sinks places, w'.IsEmptied file ∧ w'.root.Takes file := fun file hfile =>
  ⟨(World.isEmptied_emptied hfile).of_root hroot,
    hroot ▸ World.takes_emptied (takes_of_opens h) (takes_of_opens h file hfile)⟩

end Opens

end Redirection

/-! ## Running -/

namespace Job

theorem redirected_append_singleton (job : Job) (places : List (Redirection Location))
    (place : Redirection Location) :
    job.redirected (places ++ [place]) = around (job.redirected places) place := by
  rw [redirected, foldl_append]
  rfl

theorem Runs.root_eq {invocation : Invocation} {job' : Job} {w : World} {input input' : Stream}
    {result : Except Failure Int} {added : Text}
    (h : (command invocation).Runs w input result job' w' input' added) :
    job'.closing w' = w' ∧ w'.root = w.root := by
  have hworld : (invocation.run.on ⟨w, input, .ended []⟩).2.world = w' :=
    congrArg (fun outcome => outcome.scene.world) (h.run_eq [])
  exact ⟨h.closing_eq rfl w', hworld ▸ root_run invocation w input []⟩

theorem Fresh.redirected {job : Job} (h : job.Fresh) (places : List (Redirection Location)) :
    (job.redirected places).Fresh := by
  induction places generalizing job with
  | nil => exact h
  | cons place places ih => exact ih ⟨rfl, rfl, h⟩

end Job

namespace Redirection

def inputFor (w : World) (place : Redirection Location) (input : Stream) : Stream :=
  .ofText (match place.source with
    | some file => (Content.text? (w.content file)).getD []
    | none => input.rest)

/-- What a redirect passes on of what has been written inside it. -/
def passed (result : Except Failure Int) (new : Text) : Text :=
  match result with
  | .ok _ => new
  | .error _ => []

@[simp] theorem passed_passed (result : Except Failure Int) (new : Text) :
    passed result (passed result new) = passed result new := by
  cases result <;> rfl

@[simp] theorem passed_nil (result : Except Failure Int) : passed result [] = [] := by
  cases result <;> rfl

theorem anyClosed_start (place : Redirection Location) (w : World) {input output : Stream}
    (hinput : input.isOpen = true) (houtput : output.isWritable = true) :
    Job.anyClosed (place.source.map .start) (place.sink.map .start) .empty .empty
      ⟨w, input, output⟩ = false := by
  refine Job.anyClosed_of_isOpen (fun file hfile => ?_) (fun file hfile => ?_) hinput houtput w
  · obtain ⟨found, -, rfl⟩ := Option.map_eq_some_iff.1 hfile
    rfl
  · obtain ⟨found, -, rfl⟩ := Option.map_eq_some_iff.1 hfile
    rfl

/-- What a redirect that has just been opened does once its command has run. -/
theorem finish_start {child : Job} (hchild : child.Connected) {inner : Stream}
    (hinner : inner.isConnected = true) (source : Option Source) (sink : Option Location)
    (w w' : World) (input : Stream) (new : Text) (result : Except Failure Int) :
    ∃ stream stream' child', ∀ output, output.isWritable = true →
      Job.finish source (sink.map .start) 0 ⟨w, input, output⟩
          ⟨result, child, ⟨w', inner, .ended new⟩⟩ =
        ⟨result, .redirect source (sink.map fun file => ⟨file, passed result new, false⟩)
            stream stream' child',
          ⟨child.closing w', input,
            output.pour (if sink.isSome then [] else passed result new)⟩⟩ := by
  cases result with
  | error failure =>
    obtain ⟨stream, stream', child', h⟩ :=
      Job.finish_error hchild hinner source (sink.map .start) w w' input new failure
    refine ⟨stream, stream', child', fun output _ => ?_⟩
    rw [h, passed, ite_self, Stream.pour_nil]
    rfl
  | ok status =>
    obtain ⟨stream, stream', child', h⟩ :=
      Job.finish_ok hchild hinner source (sink.map .start) w w' input new status
    refine ⟨stream, stream', child', fun output houtput => ?_⟩
    rw [h output houtput, Option.map_map, Option.isSome_map]
    rfl

section Around

variable {w : World} {place : Redirection Location} {input : Stream}
  (hsource : ∀ file ∈ place.source, (Content.text? (w.content file)).isSome = true)
  (hinput : input.isOpen = true)
include hsource hinput

private theorem fill_start (output : Stream) :
    (Job.fill (place.source.map .start) .empty ⟨w, input, output⟩).1 =
      .ok (inputFor w place input) := by
  rcases place with ⟨_ | file, sink⟩
  · rcases input with ⟨text, position, _ | _⟩ | closed | _
    · by_cases hmore : text.length ≤ position
      · simp [Job.fill, inputFor, Job.sourceIsEmpty, Stream.hasNoMore, Stream.rest, hmore, pure,
          Except.pure, Stream.empty, drop_eq_nil_of_le hmore]
      · simp [Job.fill, inputFor, Job.sourceIsEmpty, Job.readSource, Stream.hasNoMore, Stream.read, Stream.rest, hmore, pure, Except.pure, Except.bind]
    · cases hinput
    · rfl
    · cases hinput
  · obtain ⟨text, htext⟩ := Option.isSome_iff_exists.1 (hsource file rfl)
    by_cases hmore : (w.content file).size ≤ 0
    · have hempty : w.content file = .empty := by
        simpa using hmore
      simp [Job.fill, inputFor, Job.sourceIsEmpty, Source.hasNoMore, Source.start, hempty, pure,
          Except.pure]
      rfl
    · simp [Job.fill, inputFor, Job.sourceIsEmpty, Job.readSource, Source.hasNoMore, Source.start, Source.read, htext, hmore, pure, Except.pure, Except.bind]

/-- A redirect runs what is inside it on an input and an output of its own, and passes on what has
been written there: at once to the output, and when it is closed to its file. -/
theorem run_around {child child' : Job} {w' : World} {inner : Stream}
    {result : Except Failure Int} {new : Text}
    (hruns : child.Runs w (inputFor w place input) result child' w' inner new) :
    ∃ job input', (∀ output, output.isWritable = true →
      (around child place).run ⟨w, input, output⟩ = ⟨result, job, ⟨child'.closing w', input',
        output.pour (if place.sink.isSome then [] else passed result new)⟩⟩) ∧
      ∀ w, job.closing w = match place.sink with
        | none => w
        | some file => w.overwrite file (Content.ofText (passed result new)) := by
  have hinner := hruns.keeps.isConnected rfl
  have hrun : child.run ⟨w, inputFor w place input, .empty⟩ =
      ⟨result, child', ⟨w', inner, .ended new⟩⟩ := hruns.run_eq []
  obtain ⟨filled, source', input', -, hfill⟩ :=
    Job.fill_empty (place.source.map .start) w input
  have hfilled : filled.map .ofText = .ok (inputFor w place input) :=
    (congrArg Prod.fst (hfill .empty)).symm.trans (fill_start hsource hinput .empty)
  have hrun' : ∀ output, output.isWritable = true →
      (around child place).run ⟨w, input, output⟩ =
        Job.finish source' (place.sink.map .start) 0 ⟨w, input', output⟩
          ⟨result, child', ⟨w', inner, .ended new⟩⟩ := by
    intro output houtput
    rw [around, Job.run, anyClosed_start place w hinput houtput, hfill, hfilled, ← hrun]
    rfl
  obtain ⟨stream, stream', child'', hfinish⟩ :=
    finish_start hruns.connected hinner source' place.sink w w' input' new result
  refine ⟨.redirect source' (place.sink.map fun file => ⟨file, passed result new, false⟩) stream
    stream' child'', input', fun output houtput => ?_, fun w => ?_⟩
  · rw [hrun' output houtput, hfinish output houtput]
  · cases place.sink <;> rfl

end Around

def inputForAll (w : World) (input : Stream) (places : List (Redirection Location)) : Stream :=
  places.foldr (inputFor w) input

/-- The first file counts, and the input only if there is none. -/
theorem inputForAll_eq (w : World) (input : Stream) {places : List (Redirection Location)}
    (hne : places ≠ []) :
    inputForAll w input places = .ofText (textFor w input (sources places)) := by
  induction places with
  | nil => exact absurd rfl hne
  | cons first later ih =>
    rcases first with ⟨_ | file, sink⟩
    · cases later with
      | nil => rfl
      | cons second later =>
        change Stream.ofText (inputForAll w input (second :: later)).rest = _
        rw [ih (cons_ne_nil second later)]
        rfl
    · rfl

/-- The world once redirects have been closed around a command that has written a text: it is in
the first file. -/
def deliver (new : Text) : List Location → World → World
  | [], w => w
  | first :: _, w => w.withFile first (Content.ofText new)

theorem deliver_nil {files : List Location} {w : World} (h : ∀ file ∈ files, w.IsEmptied file) :
    deliver [] files w = w := by
  cases files with
  | nil => rfl
  | cons first later => exact h first mem_cons_self

section Redirected

variable {w w₁ w₂ : World} {job job₁ job₂ : Job} {input input₁ input₂ : Stream}
  {result₁ result₂ : Except Failure Int} {added₁ added₂ : Text}

/-- What is inside a stack of redirects runs once, on the input that they have for it, and what it
has written is in the first file to write, or else has been passed on. -/
theorem runs_redirected (hjob : job.Fresh) {places : List (Redirection Location)}
    (hsources : ∀ file ∈ sources places, (Content.text? (w.content file)).isSome = true)
    (hsinks : (sinks places).Nodup) (hinput : input.isOpen = true)
    (h₁ : job.Runs w (inputForAll w input places) result₁ job₁ w₁ input₁ added₁)
    (hempty : ∀ place ∈ sinks places, (job₁.closing w₁).IsEmptied place)
    (h₂ : (job.redirected places).Runs w input result₂ job₂ w₂ input₂ added₂) :
    result₂ = result₁ ∧
      passed result₁ added₂ = (if sinks places = [] then passed result₁ added₁ else []) ∧
      (places ≠ [] → added₂ = passed result₁ added₂) ∧
      job₂.closing w₂ = deliver (passed result₁ added₁) (sinks places) (job₁.closing w₁) := by
  induction places using List.reverseRecOn generalizing input result₂ job₂ w₂ input₂ added₂ with
  | nil =>
    obtain ⟨rfl, rfl, rfl, rfl⟩ := h₁.eq_of_run h₂.run_pour
    exact ⟨rfl, rfl, fun hne => absurd rfl hne, rfl⟩
  | append_singleton places place ih =>
    rw [sources_append_singleton, forall_mem_append] at hsources
    rw [sinks_append_singleton] at hsinks hempty ⊢
    rw [forall_mem_append] at hempty
    rw [Job.redirected_append_singleton] at h₂
    rw [inputForAll, foldr_append] at h₁
    -- The redirect runs the stack inside it, for which the induction speaks, on its own input.
    obtain ⟨result, inner, w', input', added, hinner⟩ :=
      (hjob.redirected places).appends w (inputFor w place input)
    obtain ⟨rfl, hadded, -, hclosing⟩ :=
      ih hsources.1 (nodup_append.1 hsinks).1 rfl h₁ hempty.1 hinner
    obtain ⟨whole, input'', hrun, hwhole⟩ :=
      run_around (fun file hfile => hsources.2 file (Option.mem_toList.2 hfile)) hinput hinner
    obtain ⟨rfl, rfl, rfl, rfl⟩ := h₂.eq_of_run hrun
    rw [hwhole, hclosing]
    rcases hsink : place.sink with _ | file
    · rw [Option.toList_none, append_nil, Option.isSome_none, if_neg Bool.false_ne_true,
        passed_passed]
      exact ⟨rfl, hadded, fun _ => rfl, rfl⟩
    · rw [hsink, Option.toList_some] at hsinks hempty
      have hfile := hempty.2 file (mem_singleton_self file)
      rw [Option.toList_some, Option.isSome_some, if_pos rfl, passed_nil,
        if_neg (append_ne_nil_of_right_ne_nil _ (cons_ne_nil file []))]
      refine ⟨rfl, rfl, fun _ => rfl, ?_⟩
      rw [hadded]
      rcases hfirst : sinks places with _ | ⟨first, later⟩
      · exact World.overwrite_of_empty hfile.content_eq _
      · rw [hfirst] at hsinks
        have hne : first ≠ file := by
          rintro rfl
          simp at hsinks
        rw [if_neg (cons_ne_nil first later)]
        exact (hfile.withFile hne _).overwrite_nil

end Redirected

end Redirection

/-! ## The effect of a stack -/

/-- What redirects make of the effect of the command in them: all that counts is what it has passed
on, and the first file to write. -/
structure Effect.Delivers (files : List Location) (output : Stream) (bare whole : Effect) :
    Prop where
  result : whole.result = bare.result
  output : whole.scene.output =
    output.pour (if files = [] then passed bare.result bare.scene.output.held else [])
  world : whole.world = deliver (passed bare.result bare.scene.output.held) files bare.world
  ready : ∀ file ∈ files, bare.world.IsEmptied file ∧ bare.world.root.Takes file

namespace Effect.Delivers

variable {files : List Location} {output : Stream} {bare whole : Effect}

theorem write_of_ok (h : Delivers [] output bare whole) (houtput : output.isWritable = true)
    {status : Int} (hstatus : bare.result = .ok status) :
    output.write bare.scene.output.held = .ok whole.scene.output ∧ whole.world = bare.world := by
  obtain ⟨-, hout, hworld, -⟩ := h
  rw [hstatus, passed, if_pos rfl] at hout
  rw [hout]
  exact ⟨Stream.write_of_isWritable houtput _, hworld⟩

theorem content_of_ok {first : Location} {later : List Location}
    (h : Delivers (first :: later) output bare whole) (hnodup : (first :: later).Nodup)
    {status : Int} (hstatus : bare.result = .ok status) :
    whole.scene.output = output ∧
      whole.world = bare.world.withFile first (Content.ofText bare.scene.output.held) ∧
      whole.world.content first = Content.ofText bare.scene.output.held ∧
      ∀ file ∈ later, whole.world.content file = .empty := by
  obtain ⟨-, hout, hworld, hready⟩ := h
  rw [if_neg (cons_ne_nil first later), Stream.pour_nil] at hout
  rw [hstatus, passed, deliver] at hworld
  obtain ⟨⟨-, htakes⟩, hlater⟩ := forall_mem_cons.1 hready
  refine ⟨hout, hworld, ?_, fun file hfile => ?_⟩
  · rw [hworld, World.content_withFile_of_takes htakes]
  · have hfirst : first ≠ file := fun heq => (nodup_cons.1 hnodup).1 (heq ▸ hfile)
    rw [hworld]
    exact ((hlater file hfile).1.withFile hfirst _).content_eq

theorem content_of_error (h : Delivers files output bare whole) {failure : Failure}
    (hfailure : bare.result = .error failure) :
    whole.scene.output = output ∧ whole.world = bare.world ∧
      ∀ file ∈ files, whole.world.content file = .empty := by
  obtain ⟨-, hout, hworld, hready⟩ := h
  rw [hfailure, passed] at hout hworld
  rw [ite_self, Stream.pour_nil] at hout
  rw [deliver_nil fun file hfile => (hready file hfile).1] at hworld
  refine ⟨hout, hworld, fun file hfile => ?_⟩
  rw [hworld]
  exact (hready file hfile).1.content_eq

end Effect.Delivers

namespace Plan

section Redirected

variable {redirects : List (Redirection Text)} {places : List (Redirection Location)}
  {scene : Scene} {utility : Utility} {flags : List Flag} {operands : List Text}
  (hopens : List.Forall₂ (Opens scene.world) redirects places)
  (hinput : scene.input.isOpen = true) (houtput : scene.output.isWritable = true)
include hopens hinput houtput

theorem delivers_of_error {failure : Failure} (held : Text)
    (hcommand : (Simple.command utility flags operands).assemble.on
      (scene.world.emptied (sinks places)) =
        (.error failure, scene.world.emptied (sinks places))) :
    Effect.Delivers (sinks places) scene.output
      ((simple (.command utility flags operands)).effect
        ⟨scene.world.emptied (sinks places), .ofText held, .empty⟩)
      ((simple ((Simple.command utility flags operands).redirected redirects)).effect scene) := by
  have hready := ready_of_opens hopens _ rfl
  have hassemble := on_assemble_redirected hopens (.command utility flags operands)
  rw [on_bind, hcommand] at hassemble
  generalize scene.world.emptied (sinks places) = w at hready hcommand hassemble ⊢
  have hbare : (simple (.command utility flags operands)).effect ⟨w, .ofText held, .empty⟩ =
      ⟨.error failure, ⟨w, .ofText held, .empty⟩, w⟩ := effect_of_error rfl rfl hcommand
  have hwhole : (simple ((Simple.command utility flags operands).redirected redirects)).effect
      scene = ⟨.error failure, { scene with world := w }, w⟩ :=
    effect_of_error (Job.isConnected_of_isOpen hinput) houtput hassemble
  rw [hbare, hwhole]
  refine ⟨rfl, ?_, ?_, hready⟩
  · rw [passed, ite_self, Stream.pour_nil]
  · rw [passed, deliver_nil fun file hfile => (hready file hfile).1]

theorem delivers_of_ok (hne : redirects ≠ [])
    (hsources : ∀ file ∈ sources places,
      (Content.text? (scene.world.content file)).isSome = true ∧ file ∉ sinks places)
    (hsinks : (sinks places).Nodup) {invocation : Invocation}
    (hcommand : (Simple.command utility flags operands).assemble.on
      (scene.world.emptied (sinks places)) =
        (.ok (.command invocation), scene.world.emptied (sinks places))) :
    Effect.Delivers (sinks places) scene.output
      ((simple (.command utility flags operands)).effect
        ⟨scene.world.emptied (sinks places),
          .ofText (textFor scene.world scene.input (sources places)), .empty⟩)
      ((simple ((Simple.command utility flags operands).redirected redirects)).effect scene) := by
  have hcontent := content_emptied_of_opens hopens fun file hfile => (hsources file hfile).2
  have hready := ready_of_opens hopens
  have hassemble := on_assemble_redirected hopens (.command utility flags operands)
  have hplaces : places ≠ [] := by
    rintro rfl
    cases hopens
    exact hne rfl
  rw [← textFor_congr scene.input hcontent]
  rw [on_bind, hcommand] at hassemble
  generalize scene.world.emptied (sinks places) = w at hcontent hready hcommand hassemble ⊢
  rw [← inputForAll_eq w scene.input hplaces]
  -- Both the command and the stack around it run, and the one run tells all about the other.
  have hfresh : (Job.command invocation).Fresh := trivial
  obtain ⟨result₁, job₁, w₁, input₁, added₁, h₁⟩ :=
    hfresh.appends w (inputForAll w scene.input places)
  obtain ⟨result₂, job₂, w₂, input₂, added₂, h₂⟩ :=
    (hfresh.redirected places).appends w scene.input
  obtain ⟨hclosing, hroot⟩ := h₁.root_eq
  have hready₁ := hready w₁ hroot
  obtain ⟨rfl, hpassed, hadded, hworld⟩ :=
    runs_redirected hfresh (fun file hfile => hcontent file hfile ▸ (hsources file hfile).1) hsinks
      hinput h₁ (fun file hfile => hclosing.symm ▸ (hready₁ file hfile).1) h₂
  have hbare : (simple (.command utility flags operands)).effect
      ⟨w, inputForAll w scene.input places, .empty⟩ =
      ⟨result₂, ⟨w₁, input₁, Stream.empty.pour added₁⟩, job₁.closing w₁⟩ :=
    effect_of_runs (inputForAll_eq w scene.input hplaces ▸ rfl) rfl hcommand h₁
  have hwhole : (simple ((Simple.command utility flags operands).redirected redirects)).effect
      scene = ⟨result₂, ⟨w₂, input₂, scene.output.pour added₂⟩, job₂.closing w₂⟩ :=
    effect_of_runs (Job.isConnected_of_isOpen hinput) houtput hassemble h₂
  have hpour : Stream.empty.pour added₁ = .ended added₁ := Stream.pour_ended [] added₁
  rw [hbare, hwhole, hpour, hclosing, hworld, hadded hplaces, hpassed, hclosing]
  exact ⟨rfl, rfl, rfl, hready₁⟩

end Redirected

/-- A command in a stack of redirects to different files does what it does by itself once the files
to write have been emptied. It reads the first file to read, or what is left of the input; if it
succeeds, all it has written is in the first file to write, or else on the output, and the other
files to write are empty; if it fails, all of them are. -/
theorem effect_redirected {redirects : List (Redirection Text)}
    {places : List (Redirection Location)} {scene : Scene} (hne : redirects ≠ [])
    (hopens : List.Forall₂ (Opens scene.world) redirects places)
    (hsources : ∀ file ∈ sources places,
      (Content.text? (scene.world.content file)).isSome = true ∧ file ∉ sinks places)
    (hsinks : (sinks places).Nodup) (hinput : scene.input.isOpen = true)
    (houtput : scene.output.isWritable = true) (utility : Utility) (flags : List Flag)
    (operands : List Text) :
    let bare := (simple (.command utility flags operands)).effect
      ⟨scene.world.emptied (sinks places),
        .ofText (textFor scene.world scene.input (sources places)), .empty⟩
    let whole :=
      (simple ((Simple.command utility flags operands).redirected redirects)).effect scene
    whole.result = bare.result ∧
    (∀ status, bare.result = .ok status →
      match sinks places with
      | [] =>
        scene.output.write bare.scene.output.held = .ok whole.scene.output ∧
          whole.world = bare.world
      | first :: later =>
        whole.scene.output = scene.output ∧
          whole.world = bare.world.withFile first (Content.ofText bare.scene.output.held) ∧
          whole.world.content first = Content.ofText bare.scene.output.held ∧
          ∀ file ∈ later, whole.world.content file = .empty) ∧
    ∀ failure, bare.result = .error failure →
      whole.scene.output = scene.output ∧ whole.world = bare.world ∧
        ∀ file ∈ sinks places, whole.world.content file = .empty := by
  intro bare whole
  have hdelivers : Effect.Delivers (sinks places) scene.output bare whole := by
    have hstill : ((Simple.command utility flags operands).assemble.on
        (scene.world.emptied (sinks places))).2 = scene.world.emptied (sinks places) :=
      Simple.still_assemble rfl _
    rcases hcommand : (Simple.command utility flags operands).assemble.on
        (scene.world.emptied (sinks places)) with ⟨failure | job, w⟩ <;>
      rw [hcommand] at hstill <;> obtain rfl := hstill
    · exact delivers_of_error hopens hinput houtput _ hcommand
    · obtain ⟨invocation, rfl⟩ := assemble_command hcommand
      exact delivers_of_ok hopens hinput houtput hne hsources hsinks hcommand
  clear_value bare whole
  refine ⟨hdelivers.result, fun status hstatus => ?_, fun failure => hdelivers.content_of_error⟩
  rcases hfiles : sinks places with _ | ⟨first, later⟩ <;> rw [hfiles] at hdelivers hsinks
  · exact hdelivers.write_of_ok houtput hstatus
  · exact hdelivers.content_of_ok hsinks hstatus

def shelf : World :=
  ⟨.dir [(['a'], .file (Content.ofText "x\r\n".toList)),
    (['b'], .file (Content.ofText "old".toList)),
    (['d'], .file (Content.ofText "y".toList))], [], []⟩

def catThrough : Plan Utility :=
  simple ((Simple.command .cat [] []).redirected
    [⟨some ['a'], none⟩, ⟨none, some ['b']⟩, ⟨none, some ['c']⟩, ⟨some ['d'], none⟩])

/-- Of several files the first one counts, and what is read has line feeds as its line ends. -/
theorem effect_redirected_cat :
    let whole := catThrough.effect ⟨shelf, .ofText ['z'], .empty⟩
    whole.result = .ok 0 ∧ whole.scene.output = .empty ∧
      whole.world.content [['b']] = Content.ofText "x\n".toList ∧
      whole.world.content [['c']] = .empty := by
  have hopens : List.Forall₂ (Opens shelf)
      [⟨some ['a'], none⟩, ⟨none, some ['b']⟩, ⟨none, some ['c']⟩, ⟨some ['d'], none⟩]
      [⟨some [['a']], none⟩, ⟨none, some [['b']]⟩, ⟨none, some [['c']]⟩, ⟨some [['d']], none⟩] :=
    .cons ⟨.some (by cbv), .none⟩ <| .cons ⟨.none, .some ⟨_, rfl⟩⟩ <|
      .cons ⟨.none, .some ⟨_, rfl⟩⟩ <| .cons ⟨.some (by cbv), .none⟩ .nil
  have hsources : ∀ file ∈ [[['a']], [['d']]],
      (Content.text? (shelf.content file)).isSome = true ∧ file ∉ [[['b']], [['c']]] := by
    rintro file hfile
    rcases mem_pair.1 hfile with rfl | rfl
    · exact ⟨by cbv, by decide⟩
    · exact ⟨by cbv, by decide⟩
  have hbare : ((simple (.command .cat [] [])).effect
      ⟨shelf.emptied [[['b']], [['c']]], .ofText (textFor shelf (.ofText ['z']) [[['a']], [['d']]]),
        .empty⟩).result = .ok 0 := by cbv
  have hheld : ((simple (.command .cat [] [])).effect
      ⟨shelf.emptied [[['b']], [['c']]], .ofText (textFor shelf (.ofText ['z']) [[['a']], [['d']]]),
        .empty⟩).scene.output.held = "x\n".toList := by cbv
  obtain ⟨hresult, hok, -⟩ := @effect_redirected _ _ ⟨shelf, .ofText ['z'], .empty⟩
    (cons_ne_nil _ _) hopens hsources (by decide) rfl rfl .cat [] []
  obtain ⟨houtput, -, hfirst, hlater⟩ := hok 0 hbare
  exact ⟨hresult.trans hbare, houtput, hfirst.trans (congrArg Content.ofText hheld),
    hlater [['c']] (mem_singleton_self _)⟩

end Plan

end CommandShell

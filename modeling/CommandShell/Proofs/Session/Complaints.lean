import CommandShell.Proofs.Flag.Declarations
import CommandShell.Proofs.Plan.Frames

/-!
# The complaints that come up

What a plan complains about while it is built and run, also where a tolerant part makes output of
it. If the flags of its commands are declared, and no call is bound to fail, then all of it is about
what the user has asked for, but for two things: a command may mistake the flag for help, and a
`cd` that follows others may no longer find its directory.
-/

namespace CommandShell

open Shell

/-! ## Building -/

/-- The complaints that come up while a command is assembled. -/
inductive Simple.Refuses : Simple Utility → World → Complaint → Prop
  | arguments {utility : Utility} {flags : List Flag} {operands : List Text} {w : World}
      {cause : Complaint} :
      Invocation.check utility ⟨some flags, some operands, true⟩ w = .error (.complaint cause) →
      Refuses (command utility flags operands) w cause
  | source {source sink : Option Text} {child : Simple Utility} {w w' : World} {cause : Complaint} :
      (Source.open? source).on w = (.error (.complaint cause), w') →
      Refuses (redirect source sink child) w cause
  | sink {source sink : Option Text} {child : Simple Utility} {w w₁ w' : World}
      {file : Option Source} {cause : Complaint} : (Source.open? source).on w = (.ok file, w₁) →
      (Sink.open? sink).on w₁ = (.error (.complaint cause), w') →
      Refuses (redirect source sink child) w cause
  | child {source sink : Option Text} {child : Simple Utility} {w w₁ w₂ : World}
      {file : Option Source} {file' : Option Sink} {cause : Complaint} :
      (Source.open? source).on w = (.ok file, w₁) → (Sink.open? sink).on w₁ = (.ok file', w₂) →
      child.Refuses w₂ cause → Refuses (redirect source sink child) w cause

/-- The complaints that come up while a plan is assembled, also those that tolerant parts keep for
later. -/
inductive Plan.Refuses : Plan Utility → World → Complaint → Prop
  | simple {command : Simple Utility} {w : World} {cause : Complaint} :
      command.Refuses w cause → Refuses (simple command) w cause
  | tolerant {child : Plan Utility} {w : World} {cause : Complaint} :
      child.Refuses w cause → Refuses (tolerant child) w cause
  | pipeLeft {left right : Plan Utility} {w : World} {cause : Complaint} :
      left.Refuses w cause → Refuses (pipe left right) w cause
  | pipeRight {left right : Plan Utility} {w w' : World} {job : Job} {cause : Complaint} :
      (left.assemble .both).on w = (.ok job, w') → right.Refuses w' cause →
      Refuses (pipe left right) w cause
  | seqLeft {left right : Plan Utility} {w : World} {cause : Complaint} :
      left.Refuses w cause → Refuses (seq left right) w cause
  | seqRight {left right : Plan Utility} {w w' : World} {job : Job} {cause : Complaint} :
      (left.assemble .both).on w = (.ok job, w') → right.Refuses w' cause →
      Refuses (seq left right) w cause

theorem Shell.on_bind_eq_error {α β : Type} {step : Shell α} {next : α → Shell β} {w w' : World}
    {failure : Failure} : (step >>= next).on w = (.error failure, w') ↔
      step.on w = (.error failure, w') ∨
        ∃ a w₁, step.on w = (.ok a, w₁) ∧ (next a).on w₁ = (.error failure, w') := by
  rw [Shell.on_bind]
  rcases step.on w with ⟨failure' | a, w₁⟩ <;> simp

theorem Simple.refuses_of_assemble {simple : Simple Utility} {w w' : World} {cause : Complaint}
    (h : simple.assemble.on w = (.error (.complaint cause), w')) : simple.Refuses w cause := by
  induction simple generalizing w with
  | command utility flags operands =>
    rw [on_assemble_command] at h
    refine .arguments ?_
    cases hcheck : Invocation.check utility ⟨some flags, some operands, true⟩ w <;>
      rw [hcheck] at h <;> cases h
    rfl
  | redirect source sink child ih =>
    unfold assemble at h
    rcases on_bind_eq_error.1 h with h | ⟨file, w₁, hsource, h⟩
    · exact .source h
    rcases on_bind_eq_error.1 h with h | ⟨file', w₂, hsink, h⟩
    · exact .sink hsource h
    rcases on_bind_eq_error.1 h with h | ⟨job, w₃, -, h⟩
    · exact .child hsource hsink (ih h)
    · cases h

theorem Plan.refuses_of_assemble {plan : Plan Utility} {w w' : World} {cause : Complaint}
    (h : (plan.assemble .both).on w = (.error (.complaint cause), w')) : plan.Refuses w cause := by
  induction plan generalizing w with
  | simple command => exact .simple (Simple.refuses_of_assemble h)
  | tolerant child ih =>
    rw [on_assemble_tolerant] at h
    rcases hchild : (child.assemble .both).on w with ⟨(cause | cause) | job, w₁⟩ <;>
      rw [hchild] at h <;> cases h
  | pipe left right ihl ihr =>
    rw [assemble_pipe] at h
    rcases on_bind_eq_error.1 h with h | ⟨first, w₁, hleft, h⟩
    · exact .pipeLeft (ihl h)
    rcases on_bind_eq_error.1 h with h | ⟨second, w₂, -, h⟩
    · exact .pipeRight hleft (ihr h)
    · cases h
  | seq left right ihl ihr =>
    rw [assemble_seq] at h
    rcases on_bind_eq_error.1 h with h | ⟨first, w₁, hleft, h⟩
    · exact .seqLeft (ihl h)
    rcases on_bind_eq_error.1 h with h | ⟨second, w₂, -, h⟩
    · exact .seqRight hleft (ihr h)
    · cases h
  | forward text status => cases h

theorem Shell.usual_of_call {α : Type} {x : Except CallFailure α} {w w' : World}
    {cause : Complaint} (h : (ofCall .redirectFailed x).on w = (.error (.complaint cause), w')) :
    cause.isUsual = true := by
  rcases x with (error | _) | _ <;> cases h
  exact Complaint.isUsual_redirectFailed error

theorem Source.usual_of_open? {path? : Option Text} {w w' : World} {cause : Complaint}
    (h : (Source.open? path?).on w = (.error (.complaint cause), w')) : cause.isUsual = true := by
  cases path? with
  | none => cases h
  | some path =>
    rcases on_bind_eq_error.1 h with h | ⟨w₁, w₂, -, h⟩
    · cases h
    rcases on_bind_eq_error.1 h with h | ⟨place, w₃, -, h⟩
    · exact usual_of_call h
    · cases h

theorem Sink.usual_of_open? {path? : Option Text} {w w' : World} {cause : Complaint}
    (h : (Sink.open? path?).on w = (.error (.complaint cause), w')) : cause.isUsual = true := by
  cases path? with
  | none => cases h
  | some path =>
    rcases on_bind_eq_error.1 h with h | ⟨w₁, w₂, -, h⟩
    · cases h
    rcases on_bind_eq_error.1 h with h | ⟨opened, w₃, -, h⟩
    · exact usual_of_call h
    rcases on_bind_eq_error.1 h with h | ⟨_, w₄, -, h⟩ <;> cases h

theorem Simple.Refuses.usual_or_mistakes {simple : Simple Utility} {w : World} {cause : Complaint}
    (h : simple.Refuses w cause)
    (hflags : ∀ flag ∈ simple.flags, simple.kind.specification.Declares flag) :
    cause.isUsual = true ∨ simple.kind.Mistakes simple.flags cause := by
  induction h with
  | @arguments utility flags operands w cause hcheck =>
    have hends : (Invocation.check utility ⟨some flags, some operands, true⟩ w).Ends
        (Failure.Complains fun cause => cause.isUsual = true ∨ utility.Mistakes flags cause)
        fun _ => True := Invocation.ends_check (fun _ => .inl) hflags (fun _ => .inr) w
    rw [hcheck] at hends
    exact hends
  | source hopen => exact .inl (Source.usual_of_open? hopen)
  | sink _ hopen => exact .inl (Sink.usual_of_open? hopen)
  | child _ _ _ ih => exact ih hflags

theorem Plan.Refuses.usual_or_mistakes {plan : Plan Utility} {w : World} {cause : Complaint}
    (h : plan.Refuses w cause) (hplan : plan.Declared Line.utilities) :
    cause.isUsual = true ∨
      ∃ simple ∈ plan.commands, simple.kind.Mistakes simple.flags cause := by
  induction h with
  | @simple command w cause h =>
    have hflags := hplan command List.mem_cons_self
    exact (h.usual_or_mistakes hflags).imp_right fun h => ⟨command, List.mem_cons_self, h⟩
  | tolerant _ ih => exact ih hplan
  | pipeLeft _ ih | seqLeft _ ih =>
    refine (ih fun only honly => hplan only (List.mem_append_left _ honly)).imp_right ?_
    exact fun ⟨only, honly, h⟩ => ⟨only, List.mem_append_left _ honly, h⟩
  | pipeRight _ _ ih | seqRight _ _ ih =>
    refine (ih fun only honly => hplan only (List.mem_append_right _ honly)).imp_right ?_
    exact fun ⟨only, honly, h⟩ => ⟨only, List.mem_append_right _ honly, h⟩

/-! ## Running -/

namespace Job

/-- The complaints that come up while a job runs, also those that tolerant parts turn into
output. -/
inductive Raises : Job → Scene → Complaint → Prop
  | command {invocation : Invocation} {scene : Scene} {cause : Complaint} :
      (invocation.run.on scene).1 = .error (.complaint cause) →
      Raises (command invocation) scene cause
  | closed {source : Option Source} {sink : Option Sink} {input output : Stream} {child : Job}
      {scene : Scene} : anyClosed source sink input output scene = true →
      Raises (redirect source sink input output child) scene .redirectClosed
  | child {source source' : Option Source} {sink : Option Sink} {input filled output : Stream}
      {child : Job} {scene scene' : Scene} {position : Nat} {cause : Complaint} :
      anyClosed source sink input output scene = false →
      fill source input scene = (.ok filled, source', scene') → output.tell = .ok position →
      child.Raises ⟨scene'.world, filled, output⟩ cause →
      Raises (redirect source sink input output child) scene cause
  | tolerant {child : Job} {scene : Scene} {cause : Complaint} :
      child.Raises scene cause → Raises (tolerant child) scene cause
  | pipeLeft {left right : Job} {middle : Stream} {scene : Scene} {cause : Complaint} :
      left.Raises { scene with output := middle } cause →
      Raises (pipe left right middle) scene cause
  | pipeRight {left left' right : Job} {middle between input : Stream} {scene : Scene} {w : World}
      {status : Int} {filled : Stream} {cause : Complaint} :
      left.run { scene with output := middle } = ⟨.ok status, left', ⟨w, input, filled⟩⟩ →
      filled.seek 0 = .ok between → right.Raises ⟨w, between, scene.output⟩ cause →
      Raises (pipe left right middle) scene cause
  | seqLeft {left right : Job} {input : Stream} {scene : Scene} {cause : Complaint} :
      left.Raises scene cause → Raises (seq left right input) scene cause
  | seqRight {left left' right : Job} {input : Stream} {scene scene' : Scene} {status : Int}
      {cause : Complaint} : left.run scene = ⟨.ok status, left', scene'⟩ →
      right.Raises { scene' with input := input } cause → Raises (seq left right input) scene cause

theorem Fresh.raises_of_run {job : Job} (hjob : job.Fresh) {w : World} {input : Stream}
    {text : Text} {cause : Complaint}
    (h : (job.run ⟨w, input, .ended text⟩).result = .error (.complaint cause)) :
    job.Raises ⟨w, input, .ended text⟩ cause := by
  induction job generalizing w input text with
  | command invocation =>
    rw [run_command] at h
    refine .command ?_
    cases hrun : (invocation.run.on ⟨w, input, .ended text⟩).1 <;> rw [hrun] at h <;> cases h
    rfl
  | redirect source sink inner output child ih =>
    obtain ⟨rfl, rfl, hchild⟩ := hjob
    have houtput := Stream.isWritable_ended text
    unfold run at h
    by_cases hclosed : anyClosed source sink .empty .empty ⟨w, input, .ended text⟩ = true
    · rw [if_pos hclosed] at h
      cases h
      exact .closed hclosed
    rw [if_neg hclosed] at h
    obtain ⟨filled, source', input', -, hfill⟩ := fill_empty source w input
    rw [hfill] at h
    cases filled with
    | error cause' => cases h
    | ok held =>
      obtain ⟨result, child', w', inner, new, hruns⟩ := hchild.appends w (.ofText held)
      have hrun : child.run ⟨w, .ofText held, .empty⟩ =
          ⟨result, child', ⟨w', inner, .ended new⟩⟩ := hruns.run_eq []
      obtain ⟨sink', stream, stream', child'', added, hsame, hfinish⟩ :=
        finish_ended hruns.connected (isConnected_of_isOpen (hruns.isOpen rfl)) source' sink w
          w' input' new result
      refine .child (Bool.eq_false_iff.2 hclosed) (hfill _) rfl (@ih hchild w _ [] ?_)
      change (finish source' sink 0 ⟨w, input', .ended text⟩
        (child.run ⟨w, .ofText held, .empty⟩)).result = _ at h
      rw [hrun, hfinish _ houtput] at h
      rw [hruns.run_eq]
      exact h
  | tolerant child ih =>
    refine .tolerant (ih hjob ?_)
    unfold run at h
    dsimp only at h
    split at h
    · split at h <;> cases h
    · next hresult => exact absurd h (hresult cause)
  | pipe left right middle ihl ihr =>
    obtain ⟨hleft, hright, rfl⟩ := hjob
    obtain ⟨result, left', w', input', new, hruns⟩ := hleft.appends w input
    have hrun : left.run ⟨w, input, .empty⟩ = ⟨result, left', ⟨w', input', .ended new⟩⟩ :=
      hruns.run_eq []
    simp only [run, hrun] at h
    cases result with
    | error failure =>
      refine .pipeLeft (@ihl hleft w input [] ?_)
      rw [hruns.run_eq]
      exact h
    | ok status =>
      have hseek : (Stream.ended new).seek 0 = .ok (.ofText new) := rfl
      refine .pipeRight hrun hseek (ihr hright ?_)
      rw [hseek] at h
      cases hresult : (right.run ⟨w', .ofText new, .ended text⟩).result <;>
        simp only [hresult] at h <;> cases h
      rfl
  | seq left right inner ihl ihr =>
    obtain ⟨hleft, hright, rfl⟩ := hjob
    obtain ⟨result, left', w', input', new, hruns⟩ := hleft.appends w input
    simp only [run, hruns.run_eq] at h
    cases result with
    | error failure =>
      refine .seqLeft (ihl hleft ?_)
      rw [hruns.run_eq]
      exact h
    | ok status =>
      refine .seqRight (hruns.run_eq text) (ihr hright ?_)
      dsimp only at h ⊢
      cases hresult : (right.run ⟨w', .empty, .ended (text ++ new)⟩).result <;>
        simp only [hresult] at h <;> cases h
      rfl
  | forward message status =>
    unfold run at h
    split at h <;> cases h

end Job

/-! ## Going astray -/

namespace World

/-- That a path in a list is no directory from where some of the paths before it lead. -/
inductive Misses (w : World) (path : Text) : List Text → Prop
  | intro {before after taken : List Text} {v : World} : taken.Sublist before →
      taken.foldlM enter w = .ok v → v.isDir path = false → Misses w path (before ++ path :: after)

variable {w w' : World} {path : Text} {paths more : List Text}

theorem Misses.mem (h : w.Misses path paths) : path ∈ paths := by
  cases h
  exact List.mem_append_right _ List.mem_cons_self

theorem Misses.mono (h : w.Misses path paths) (hsub : paths.Sublist more) :
    w.Misses path more := by
  obtain ⟨htaken, hv, hdir⟩ := h
  obtain ⟨front, back, rfl, hfront, hback⟩ := List.append_sublist_iff.1 hsub
  obtain ⟨first, rest, rfl, hmem, -⟩ := List.cons_sublist_iff.1 hback
  obtain ⟨s, t, rfl⟩ := List.append_of_mem hmem
  have hsplit : front ++ (s ++ path :: t ++ rest) = (front ++ s) ++ path :: (t ++ rest) := by simp
  rw [hsplit]
  exact .intro (htaken.trans (hfront.trans (List.sublist_append_left _ _))) hv hdir

theorem Misses.after {places : List Location} (h : w'.Misses path more)
    (hstrays : w.Strays paths w') (hframes : w.Frames places w') :
    w.Misses path (paths ++ more) := by
  obtain ⟨taken, v, hsub, hv, hcwd⟩ := hstrays
  obtain ⟨hsub', hv', hdir⟩ := h
  obtain ⟨u, hu, hsame, hdirs⟩ := exists_enter_append hv hcwd hframes hv'
  rw [← List.append_assoc]
  refine .intro (hsub.append hsub') hu ?_
  rw [← isDir_of_dirs hsame hdirs]
  exact hdir

/-- That `cd` complains about a path in a list that is no directory from where some of those before
it lead. -/
def Strands (w : World) (paths : List Text) (cause : Complaint) : Prop :=
  ∃ path errno, cause = .cdFailed ⟨errno, some path⟩ ∧ w.Misses path paths

variable {cause : Complaint}

theorem Strands.mono (h : w.Strands paths cause) (hsub : paths.Sublist more) :
    w.Strands more cause := by
  obtain ⟨path, errno, hcause, h⟩ := h
  exact ⟨path, errno, hcause, h.mono hsub⟩

theorem Strands.after {places : List Location} (h : w'.Strands more cause)
    (hstrays : w.Strays paths w') (hframes : w.Frames places w') :
    w.Strands (paths ++ more) cause := by
  obtain ⟨path, errno, hcause, h⟩ := h
  exact ⟨path, errno, hcause, h.after hstrays hframes⟩

private theorem strands_of_enter (hfaults : w.faults = []) {failure : CallFailure}
    (henter : w.enter path = .error failure)
    (hcause : Action.callFailure .cdFailed failure = .complaint cause) :
    w.Strands [path] cause := by
  have hfault : w.fault? .enter path = none := by
    rw [fault?, hfaults, List.find?_nil, Option.map_none]
  have hdir : w.isDir path = false := by
    rw [Bool.eq_false_iff]
    intro hdir
    obtain ⟨place, hplace⟩ := isDir_iff.1 hdir
    cases henter.symm.trans (enter_eq_ok.2 ⟨hfault, place, hplace, rfl⟩)
  cases failure with
  | nul => cases hcause
  | os error =>
    cases hcause
    obtain ⟨errno, rfl⟩ := onPath_eq_os henter
    exact ⟨path, errno, rfl, @Misses.intro w path [] [] [] w (.refl _) rfl hdir⟩

end World

namespace Job

/-- A command has only usual complaints when it runs, or is a `cd` that misses its directory. -/
theorem usual_or_strands_command {invocation : Invocation} {scene : Scene} {cause : Complaint}
    (hfaults : scene.world.faults = [])
    (h : (invocation.run.on scene).1 = .error (.complaint cause)) :
    cause.isUsual = true ∨ scene.world.Strands (command invocation).destinations cause := by
  cases hmoves : invocation.moves with
  | false => exact .inl ((Invocation.modest_run hmoves scene).2 cause h)
  | true =>
    cases invocation with
    | cd c =>
      change (c.run.on scene).1 = _ at h
      rw [Cd.on_run] at h
      split at h
      · cases h
      · next henter => exact .inr (World.strands_of_enter hfaults henter (Except.error.inj h))
    | _ => cases hmoves

private theorem Raises.usual_or_strands {job : Job} (hfresh : job.Fresh) (hopened : job.Opened)
    {w : World} (hwritable : job.Writable w) (hfaults : w.faults = []) {input : Stream}
    (hinput : input.isOpen = true) {text : Text} {cause : Complaint}
    (h : job.Raises ⟨w, input, .ended text⟩ cause) :
    cause.isUsual = true ∨ w.Strands job.destinations cause := by
  induction job generalizing w input text with
  | command invocation =>
    cases h with
    | command h => exact usual_or_strands_command hfaults h
  | redirect source sink inner output child ih =>
    obtain ⟨rfl, rfl, hchild⟩ := hfresh
    obtain ⟨hsource, hsink, hopened⟩ := hopened
    cases h with
    | closed hclosed =>
      have hopen := anyClosed_of_isOpen hsource hsink hinput (Stream.isWritable_ended text) w
      cases hopen.symm.trans hclosed
    | child _ hfill _ h =>
      obtain ⟨filled, source', input', -, hfilled⟩ := fill_empty source w input
      rw [hfilled] at hfill
      cases filled with
      | error cause => cases hfill
      | ok held =>
        cases hfill
        exact @ih hchild hopened w
          (hwritable.of_frames (.refl [] w) (List.subset_append_right _ _)) hfaults _ rfl [] h
  | tolerant child ih =>
    cases h with
    | tolerant h => exact ih hfresh hopened hwritable hfaults hinput h
  | pipe left right middle ihl ihr =>
    obtain ⟨hleft, hright, rfl⟩ := hfresh
    have hwritable' : left.Writable w :=
      hwritable.of_frames (.refl [] w) (List.subset_append_left _ _)
    cases h with
    | pipeLeft h =>
      refine (@ihl hleft hopened.1 w hwritable' hfaults input hinput [] h).imp_right ?_
      exact fun h => h.mono (List.sublist_append_left _ _)
    | pipeRight hrun hseek h =>
      obtain ⟨result, left', w', input', new, hruns⟩ := hleft.appends w input
      have hspares := spares_run hwritable' input .empty
      have hrun' : left.run ⟨w, input, .empty⟩ = ⟨result, left', ⟨w', input', .ended new⟩⟩ :=
        hruns.run_eq []
      cases hrun'.symm.trans hrun
      cases hseek
      rw [hrun'] at hspares
      refine (ihr hright hopened.2 ?_ ?_ rfl h).imp_right ?_
      · exact hwritable.of_frames hspares.frames (List.subset_append_right _ _)
      · exact hspares.frames.faults.trans hfaults
      · exact fun h => h.after hspares.strays hspares.frames
  | seq left right inner ihl ihr =>
    obtain ⟨hleft, hright, rfl⟩ := hfresh
    have hwritable' : left.Writable w :=
      hwritable.of_frames (.refl [] w) (List.subset_append_left _ _)
    cases h with
    | seqLeft h =>
      refine (ihl hleft hopened.1 hwritable' hfaults hinput h).imp_right ?_
      exact fun h => h.mono (List.sublist_append_left _ _)
    | seqRight hrun h =>
      obtain ⟨result, left', w', input', new, hruns⟩ := hleft.appends w input
      have hspares := spares_run hwritable' input (.ended text)
      cases (hruns.run_eq text).symm.trans hrun
      rw [hruns.run_eq] at hspares
      refine (ihr hright hopened.2 ?_ ?_ rfl h).imp_right ?_
      · exact hwritable.of_frames hspares.frames (List.subset_append_right _ _)
      · exact hspares.frames.faults.trans hfaults
      · exact fun h => h.after hspares.strays hspares.frames
  | forward text status => cases h

end Job

/-! ## Plans -/

namespace Plan

/-- The complaints that come up while a plan is built and run. -/
inductive Raises (plan : Plan Utility) (scene : Scene) : Complaint → Prop
  | building {cause : Complaint} : plan.Refuses scene.world cause → Raises plan scene cause
  | running {job : Job} {w : World} {cause : Complaint} :
      (plan.assemble .both).on scene.world = (.ok job, w) →
      job.Raises { scene with world := w } cause → Raises plan scene cause

variable {plan : Plan Utility} {w : World} {input : Stream} {text : Text} {cause : Complaint}

theorem raises_of_effect (hinput : input.isConnected = true)
    (h : (plan.effect ⟨w, input, .ended text⟩).result = .error (.complaint cause)) :
    plan.Raises ⟨w, input, .ended text⟩ cause := by
  have houtput := Stream.isWritable_ended text
  rcases hassemble : (plan.assemble .both).on w with ⟨failure | job, w'⟩
  · rw [effect_of_error hinput houtput hassemble] at h
    cases h
    exact .building (refuses_of_assemble hassemble)
  · rw [effect_of_ok hinput houtput hassemble] at h
    exact .running hassemble ((assemble_ok hassemble).1.raises_of_run h)

/-- What comes up is usual, or a command has mistaken the flag for help, or a `cd` has led away
from what was a directory. -/
theorem Raises.cases (h : plan.Raises ⟨w, input, .ended text⟩ cause)
    (hplan : plan.Declared Line.utilities) (hfaults : w.faults = [])
    (hinput : input.isOpen = true) :
    cause.isUsual = true ∨
      (∃ simple ∈ plan.commands, simple.kind.Mistakes simple.flags cause) ∨
      ∃ path errno, cause = .cdFailed ⟨errno, some path⟩ ∧ w.isDir path = true ∧
        w.Misses path plan.destinations := by
  cases h with
  | building h => exact (h.usual_or_mistakes hplan).imp_right .inl
  | @running job w' _ hassemble h =>
    have hlays := plan.lays_assemble .both w
    rw [hassemble] at hlays
    have hlaid := hlays.job job rfl
    have hwritable := hlaid.writable.of_frames hlays.frames (List.Subset.refl _)
    have hstays : w.Strays [] w' := .of_cwd hlays.cwd
    refine (h.usual_or_strands (assemble_ok hassemble).1 hlaid.opened hwritable
      (hlays.frames.faults.trans hfaults) hinput).imp_right fun h => .inr ?_
    obtain ⟨path, errno, hcause, hmisses⟩ := h
    exact ⟨path, errno, hcause, hlaid.enterable path hmisses.mem,
      (hmisses.after hstays hlays.frames).mono hlaid.destinations⟩

end Plan

end CommandShell

import CommandShell.Proofs.Plan.Assembly

/-!
# The effect of a plan

A plan is built for the streams of a scene, run there and closed. What is seen of it is how it
ended, the scene when it had run, and the world once its files had been written. A tolerant plan
differs from the plan in it only where that one complains. Pipes and sequences may be bracketed in
any way: what counts is the list of the plans that they join.
-/

namespace CommandShell

open Shell

/-- What is seen of a plan that is built, run and closed: how it ended, the scene when it had run,
and the world once its files had been written. -/
structure Effect where
  result : Except Failure Int
  scene : Scene
  world : World

def Stream.held (stream : Stream) : Text := stream.text?.getD []

def Scene.ofInput (input : Text) : Scene := ⟨⟨.dir [], [], []⟩, .ofText input, .empty⟩

theorem Ports.ofStreams_eq_both {input output : Stream} (hinput : input.isConnected = true)
    (houtput : output.isWritable = true) : Ports.ofStreams input output = .both := by
  obtain ⟨text, position, rfl⟩ := Stream.exists_memory_of_isWritable houtput
  rw [ofStreams, hinput]
  rfl

variable {job : Job}

namespace Plan

def ofUtility (utility : Utility) (operands : List Text) : Plan Utility :=
  .simple (.command utility [] operands)

/-- Builds a plan for the streams of a scene, runs it there and closes it. -/
def effect (plan : Plan Utility) (scene : Scene) : Effect :=
  match (plan.build (.ofStreams scene.input scene.output)).on scene.world with
  | (.error failure, world) => ⟨.error failure, { scene with world }, world⟩
  | (.ok job, world) =>
    let ran := job.run { scene with world }
    let closed := ran.job.close ran.scene
    ⟨closed.result.bind fun () => ran.result, ran.scene, closed.scene.world⟩

section Effect

variable {plan : Plan Utility} {scene : Scene} {w : World}
  (hinput : scene.input.isConnected = true) (houtput : scene.output.isWritable = true)
include hinput houtput

theorem effect_of_error {failure : Failure}
    (h : (plan.assemble .both).on scene.world = (.error failure, w)) :
    plan.effect scene = ⟨.error failure, { scene with world := w }, w⟩ := by
  rw [effect, Ports.ofStreams_eq_both hinput houtput, build_both, h]

/-- Closing cannot fail, so a plan ends as it runs. -/
theorem effect_of_runs {job' : Job} {w' : World} {input' : Stream} {added : Text}
    {result : Except Failure Int} (h : (plan.assemble .both).on scene.world = (.ok job, w))
    (hruns : job.Runs w scene.input result job' w' input' added) :
    plan.effect scene = ⟨result, ⟨w', input', scene.output.pour added⟩, job'.closing w'⟩ := by
  have hrun : job.run { scene with world := w } =
      ⟨result, job', ⟨w', input', scene.output.pour added⟩⟩ := hruns.run_pour _ houtput
  have hpoured := Job.isConnected_of_isOpen
    (Stream.isOpen_of_isWritable (Stream.isWritable_pour houtput added))
  obtain ⟨hresult, hworld, -⟩ := Job.close_eq hruns.connected
    ⟨w', input', scene.output.pour added⟩ (hruns.keeps.isConnected hinput) hpoured
  rw [effect, Ports.ofStreams_eq_both hinput houtput, build_both, h]
  simp only [hrun, hresult, hworld, Except.bind]

theorem effect_of_ok (h : (plan.assemble .both).on scene.world = (.ok job, w)) :
    plan.effect scene = let ran := job.run { scene with world := w }
      ⟨ran.result, ran.scene, ran.job.closing ran.scene.world⟩ := by
  obtain ⟨result, job', w', input', added, hruns⟩ := (assemble_ok h).1.appends w scene.input
  rw [effect_of_runs hinput houtput h hruns, hruns.run_pour _ houtput]

end Effect

/-! ## Tolerance -/

theorem on_assemble_tolerant (plan : Plan Utility) (w : World) :
    ((tolerant plan).assemble .both).on w =
      match (plan.assemble .both).on w with
      | (.ok job, w) => (.ok (.tolerant job), w)
      | (.error (.complaint cause), w) => (.ok (.forward cause.message 1), w)
      | (.error (.crash cause), w) => (.error (.crash cause), w) := by
  change (plan.connect .both >>= fun _ => tryCatch (plan.assemble .both >>= fun job =>
    pure (Job.tolerant job)) _).on w = _
  rw [connect_both, pure_bind, on_tryCatch, on_bind]
  rcases (plan.assemble .both).on w with ⟨(cause | cause) | job, w'⟩ <;> rfl

section Tolerant

variable {plan : Plan Utility} {scene : Scene} {w : World}
  (hinput : scene.input.isConnected = true) (houtput : scene.output.isWritable = true)
include hinput houtput

private theorem effect_tolerant_of_error {cause : Complaint}
    (h : (plan.assemble .both).on scene.world = (.error (.complaint cause), w)) :
    ∃ output, scene.output.write (cause.message ++ ['\n']) = .ok output ∧
      (tolerant plan).effect scene = ⟨.ok 1, ⟨w, scene.input, output⟩, w⟩ := by
  have hwrite := Stream.write_of_isWritable houtput (cause.message ++ ['\n'])
  have htolerant : ((tolerant plan).assemble .both).on scene.world =
      (.ok (.forward cause.message 1), w) := by
    rw [on_assemble_tolerant, h]
  refine ⟨_, hwrite, ?_⟩
  rw [effect_of_ok hinput houtput htolerant]
  simp only [Job.run, hwrite]
  rfl

/-- A plan that can be assembled runs as it does by itself, and what it complains about is
written after what it has written. -/
theorem effect_tolerant_of_ok {job : Job}
    (h : (plan.assemble .both).on scene.world = (.ok job, w)) :
    match (plan.effect scene).result with
    | .error (.complaint cause) =>
      ∃ output, (plan.effect scene).scene.output.write (cause.message ++ ['\n']) = .ok output ∧
        (tolerant plan).effect scene =
          ⟨.ok 1, { (plan.effect scene).scene with output }, (plan.effect scene).world⟩
    | _ => (tolerant plan).effect scene = plan.effect scene := by
  obtain ⟨result, job', w', input', added, hruns⟩ := (assemble_ok h).1.appends w scene.input
  have hrun : job.run { scene with world := w } =
      ⟨result, job', ⟨w', input', scene.output.pour added⟩⟩ := hruns.run_pour _ houtput
  have htolerant : ((tolerant plan).assemble .both).on scene.world = (.ok (.tolerant job), w) := by
    rw [on_assemble_tolerant, h]
  rw [effect_of_ok hinput houtput h, effect_of_ok hinput houtput htolerant]
  simp only [Job.run, hrun]
  rcases result with (cause | cause) | status
  · have hwrite := Stream.write_of_isWritable (Stream.isWritable_pour houtput added)
      (cause.message ++ ['\n'])
    refine ⟨_, hwrite, ?_⟩
    simp only [hwrite]
    rfl
  · rfl
  · rfl

end Tolerant

/-- A tolerant plan does what the plan in it does, but for complaints: the message of one is
written after what has been written, and the status is 1. So no complaint gets out of it, and a
crash is none of its business. -/
theorem effect_tolerant (plan : Plan Utility) (scene : Scene)
    (hinput : scene.input.isConnected = true) (houtput : scene.output.isWritable = true) :
    (∀ status, (plan.effect scene).result = .ok status →
      (tolerant plan).effect scene = plan.effect scene) ∧
    (∀ cause w, (plan.build .both).on scene.world = (.error (.complaint cause), w) →
      ∃ output, scene.output.write (cause.message ++ ['\n']) = .ok output ∧
        (tolerant plan).effect scene = ⟨.ok 1, ⟨w, scene.input, output⟩, w⟩) ∧
    (∀ cause, (plan.effect scene).result = .error (.complaint cause) →
      ∃ output, (plan.effect scene).scene.output.write (cause.message ++ ['\n']) = .ok output ∧
        (tolerant plan).effect scene =
          ⟨.ok 1, { (plan.effect scene).scene with output }, (plan.effect scene).world⟩) ∧
    (∀ cause, (plan.effect scene).result = .error (.crash cause) →
      (tolerant plan).effect scene = plan.effect scene) ∧
    ∀ cause, ((tolerant plan).effect scene).result ≠ .error (.complaint cause) := by
  rw [build_both]
  rcases hassemble : (plan.assemble .both).on scene.world with ⟨(cause | cause) | job, w⟩
  · obtain ⟨output, hwrite, heffect⟩ := effect_tolerant_of_error hinput houtput hassemble
    rw [effect_of_error hinput houtput hassemble, heffect]
    refine ⟨?_, ?_, ?_, ?_, ?_⟩
    · rintro _ ⟨⟩
    · rintro _ _ ⟨⟩
      exact ⟨output, hwrite, rfl⟩
    · rintro _ ⟨⟩
      exact ⟨output, hwrite, rfl⟩
    · rintro _ ⟨⟩
    · rintro _ ⟨⟩
  · have htolerant : ((tolerant plan).assemble .both).on scene.world =
        (.error (.crash cause), w) := by
      rw [on_assemble_tolerant, hassemble]
    rw [effect_of_error hinput houtput hassemble, effect_of_error hinput houtput htolerant]
    refine ⟨fun _ _ => rfl, ?_, ?_, fun _ _ => rfl, ?_⟩
    · rintro _ _ ⟨⟩
    · rintro _ ⟨⟩
    · rintro _ ⟨⟩
  · have hsame := effect_tolerant_of_ok hinput houtput hassemble
    have hbuilds : ∀ cause w', ((Except.ok job, w) : Except Failure Job × World) ≠
        (.error (.complaint cause), w') := by
      rintro _ _ ⟨⟩
    rcases hresult : (plan.effect scene).result with (cause | cause) | status <;>
      rw [hresult] at hsame
    · obtain ⟨output, hwrite, heffect⟩ := hsame
      rw [heffect]
      refine ⟨?_, fun _ _ h => absurd h (hbuilds _ _), ?_, ?_, ?_⟩
      · rintro _ ⟨⟩
      · rintro _ ⟨⟩
        exact ⟨output, hwrite, rfl⟩
      · rintro _ ⟨⟩
      · rintro _ ⟨⟩
    · refine ⟨fun _ _ => hsame, fun _ _ h => absurd h (hbuilds _ _), ?_, fun _ _ => hsame, ?_⟩
      · rintro _ ⟨⟩
      · rw [hsame, hresult]
        rintro _ ⟨⟩
    · refine ⟨fun _ _ => hsame, fun _ _ h => absurd h (hbuilds _ _), ?_, fun _ _ => hsame, ?_⟩
      · rintro _ ⟨⟩
      · rw [hsame, hresult]
        rintro _ ⟨⟩

def leaving : Plan Utility := seq (ofUtility .echo ["hi".toList]) (ofUtility .exit [])

/-- What was written stays, and even a wish to leave is only written after it. -/
theorem effect_tolerant_leaving :
    (leaving.effect (.ofInput [])).result = .error (.complaint .exit) ∧
    ((tolerant leaving).effect (.ofInput [])).result = .ok 1 ∧
    ((tolerant leaving).effect (.ofInput [])).scene.output.held = "hi\nUnknown\n".toList := by
  have hresult : (leaving.effect (.ofInput [])).result = .error (.complaint .exit) := by cbv
  obtain ⟨output, hwrite, heffect⟩ :=
    (effect_tolerant leaving (.ofInput []) rfl rfl).2.2.1 .exit hresult
  have houtput : (leaving.effect (.ofInput [])).scene.output = .ended "hi\n".toList := by cbv
  rw [houtput, Stream.write_ended] at hwrite
  cases hwrite
  rw [heffect]
  exact ⟨hresult, rfl, rfl⟩

end Plan

/-! ## Brackets -/

/-- Whether something joins the members of a list in their order, whatever the brackets. -/
inductive Joins {α : Type} (join : α → α → α) : List α → α → Prop
  | single (a : α) : Joins join [a] a
  | append {as bs : List α} {a b : α} (front : Joins join as a) (back : Joins join bs b) :
      Joins join (as ++ bs) (join a b)

namespace Joins

variable {α : Type} {join : α → α → α} {as : List α} {a : α}

theorem ne_nil (h : Joins join as a) : as ≠ [] := by
  induction h with
  | single a => exact List.cons_ne_nil a []
  | append front back ihf ihb => exact List.append_ne_nil_of_left_ne_nil ihf _

theorem exists_join (h : Joins join as a) (hlength : 2 ≤ as.length) :
    ∃ left right, a = join left right := by
  cases h with
  | single a => simp at hlength
  | append front back => exact ⟨_, _, rfl⟩

end Joins

/-- How several jobs ended that were run together, and what they and their surroundings are
now. -/
structure Outcomes where
  result : Except Failure Unit
  jobs : List Job
  scene : Scene

namespace Job

/-- Runs the stages of a pipeline until one fails. Each has all that the one before it has written
as its input, and the last one writes to the output. -/
def runStages : List Job → Scene → Outcomes
  | [], scene => ⟨.ok (), [], scene⟩
  | [last], scene =>
    let ran := last.run scene
    ⟨ran.result.map fun _ => (), [ran.job], ran.scene⟩
  | stage :: next :: later, scene =>
    let ran := stage.run { scene with output := .empty }
    match ran.result with
    | .error failure =>
      ⟨.error failure, ran.job :: next :: later, { ran.scene with output := scene.output }⟩
    | .ok _ =>
      let rest := runStages (next :: later)
        ⟨ran.scene.world, .ofText ran.scene.output.held, scene.output⟩
      ⟨rest.result, ran.job :: rest.jobs, { rest.scene with input := ran.scene.input }⟩

/-- Runs the parts of a sequence until one fails. Each but the first has an empty input, and what
each has written is added to the output. -/
def runParts : List Job → Scene → Outcomes
  | [], scene => ⟨.ok (), [], scene⟩
  | part :: later, scene =>
    let ran := part.run { scene with output := .empty }
    let output := scene.output.pour ran.scene.output.held
    match ran.result with
    | .error failure => ⟨.error failure, ran.job :: later, { ran.scene with output }⟩
    | .ok _ =>
      let rest := runParts later ⟨ran.scene.world, .empty, output⟩
      ⟨rest.result, ran.job :: rest.jobs, { rest.scene with input := ran.scene.input }⟩

def closingAll (jobs : List Job) (w : World) : World := jobs.foldl (fun w job => job.closing w) w

end Job

def Plan.buildAll (plans : List (Plan Utility)) : Shell (List Job) :=
  plans.mapM fun plan => plan.build .both

/-- Builds plans from left to right, runs the jobs as `run` says, and closes them from left to
right. -/
def Plan.effectOf (run : List Job → Scene → Outcomes) (plans : List (Plan Utility))
    (scene : Scene) : Effect :=
  match (buildAll plans).on scene.world with
  | (.error failure, world) => ⟨.error failure, { scene with world }, world⟩
  | (.ok jobs, world) =>
    let ran := run jobs { scene with world }
    ⟨ran.result.map fun () => 0, ran.scene, Job.closingAll ran.jobs ran.scene.world⟩

namespace Job

/-- A job that has run as several others would. -/
structure RunsAs (outcome : Outcome Int) (outcomes : Outcomes) : Prop where
  result : outcomes.result = outcome.result.map fun _ => ()
  scene : outcomes.scene = outcome.scene
  closing : ∀ w, closingAll outcomes.jobs w = outcome.job.closing w

theorem closingAll_append (first second : List Job) (w : World) :
    closingAll (first ++ second) w = closingAll second (closingAll first w) :=
  List.foldl_append

variable {jobs : List Job} {status : Int} {scene : Scene}

theorem closing_of_joins {join : Job → Job → Job}
    (hjoin : ∀ left right w, (join left right).closing w = right.closing (left.closing w))
    (h : Joins join jobs job) (w : World) : closingAll jobs w = job.closing w := by
  induction h generalizing w with
  | single job => rfl
  | append front back ihf ihb => rw [closingAll_append, ihf, ihb, hjoin]

/-- Jobs of which one has failed: those after it are closed as they are. -/
theorem runsAs_error {left right job : Job} {jobs later : List Job}
    (hjob : ∀ w, job.closing w = right.closing (left.closing w))
    (hfront : ∀ w, closingAll jobs w = left.closing w)
    (hback : ∀ w, closingAll later w = right.closing w) (failure : Failure) (scene : Scene) :
    RunsAs ⟨.error failure, job, scene⟩ ⟨.error failure, jobs ++ later, scene⟩ where
  result := rfl
  scene := rfl
  closing w := by rw [closingAll_append, hfront, hback, hjob]

theorem RunsAs.after {left job : Job} {jobs : List Job} {last : Outcome Int} {rest : Outcomes}
    (h : RunsAs last rest) (hjob : ∀ w, job.closing w = last.job.closing (left.closing w))
    (hfront : ∀ w, closingAll jobs w = left.closing w) (input : Stream) :
    RunsAs ⟨last.result.map fun _ => 0, job, { last.scene with input }⟩
      ⟨rest.result, jobs ++ rest.jobs, { rest.scene with input }⟩ where
  result := by
    rw [h.result]
    cases last.result <;> rfl
  scene := by rw [h.scene]
  closing w := by rw [closingAll_append, hfront, h.closing, hjob]

/-! ### Pipelines -/

private theorem runStages_append {first second : List Job} (hfirst : first ≠ [])
    (hsecond : second ≠ []) (scene : Scene) :
    runStages (first ++ second) scene =
      let front := runStages first { scene with output := .empty }
      match front.result with
      | .error failure =>
        ⟨.error failure, front.jobs ++ second, { front.scene with output := scene.output }⟩
      | .ok () =>
        let back := runStages second
          ⟨front.scene.world, .ofText front.scene.output.held, scene.output⟩
        ⟨back.result, front.jobs ++ back.jobs, { back.scene with input := front.scene.input }⟩ := by
  obtain ⟨next, later, rfl⟩ := List.exists_cons_of_ne_nil hsecond
  induction first generalizing scene with
  | nil => exact absurd rfl hfirst
  | cons stage rest ih =>
    cases rest with
    | nil =>
      rw [List.singleton_append, runStages, runStages]
      generalize stage.run { scene with output := .empty } = ran
      obtain ⟨result, job, after⟩ := ran
      cases result <;> rfl
    | cons stage' rest =>
      rw [List.cons_append, List.cons_append, runStages, runStages, ← List.cons_append]
      generalize stage.run { scene with output := .empty } = ran
      obtain ⟨result, job, after⟩ := ran
      cases result with
      | error failure => rfl
      | ok status =>
        dsimp only
        rw [ih (List.cons_ne_nil stage' rest)]
        generalize runStages (stage' :: rest)
          ⟨after.world, .ofText after.output.held, .empty⟩ = front
        obtain ⟨result, jobs, front⟩ := front
        cases result <;> rfl

/-- A pipeline runs its stages one by one, whatever the brackets. -/
theorem Fresh.runsAs_stages (hjob : job.Fresh)
    (h : Joins (fun left right => pipe left right .empty) jobs job) (scene : Scene) :
    RunsAs (job.run scene) (runStages jobs scene) := by
  induction h generalizing scene with
  | single job => exact ⟨rfl, rfl, fun w => rfl⟩
  | @append first second left right front back ihf ihb =>
    obtain ⟨hleft, hright, -⟩ := hjob
    -- What the left side has written is what it leaves in the stream between the two.
    obtain ⟨result, left', w', input', new, hruns⟩ := hleft.appends scene.world scene.input
    have hrun : left.run { scene with output := .empty } =
        ⟨result, left', ⟨w', input', .ended new⟩⟩ := hruns.run_eq []
    have hfront := ihf hleft { scene with output := .empty }
    rw [hrun] at hfront
    rw [runStages_append front.ne_nil back.ne_nil, run, hrun]
    generalize runStages first { scene with output := .empty } = done at hfront
    obtain ⟨_, jobs, _⟩ := done
    obtain ⟨rfl, rfl, hclosing⟩ := hfront
    cases result with
    | error failure =>
      exact runsAs_error (fun w => rfl) hclosing (closing_of_joins (fun _ _ _ => rfl) back)
        failure _
    | ok status => exact (ihb hright _).after (fun w => rfl) hclosing input'

/-! ### Sequences -/

theorem runParts_append {first second : List Job} (hfirst : first ≠ []) (scene : Scene) :
    runParts (first ++ second) scene =
      let front := runParts first scene
      match front.result with
      | .error failure => ⟨.error failure, front.jobs ++ second, front.scene⟩
      | .ok () =>
        let back := runParts second { front.scene with input := .empty }
        ⟨back.result, front.jobs ++ back.jobs, { back.scene with input := front.scene.input }⟩ := by
  induction first generalizing scene with
  | nil => exact absurd rfl hfirst
  | cons part later ih =>
    rw [List.cons_append, runParts, runParts]
    generalize part.run { scene with output := .empty } = ran
    obtain ⟨result, job, after⟩ := ran
    cases result with
    | error failure => rfl
    | ok status =>
      dsimp only
      cases later with
      | nil => rfl
      | cons next later =>
        rw [ih (List.cons_ne_nil next later)]
        generalize runParts (next :: later)
          ⟨after.world, .empty, scene.output.pour after.output.held⟩ = front
        obtain ⟨result, jobs, front⟩ := front
        cases result <;> rfl

theorem status_of_map {result : Except Failure Int} (h : (result.map fun _ => 0) = .ok status) :
    status = 0 := by
  cases result <;> cases h
  rfl

theorem status_pipe {left right : Job} {middle : Stream}
    (h : ((pipe left right middle).run scene).result = .ok status) : status = 0 := by
  simp only [run] at h
  split at h
  · cases h
  · cases h
  · exact status_of_map h

theorem status_seq {left right : Job} {input : Stream}
    (h : ((seq left right input).run scene).result = .ok status) : status = 0 := by
  simp only [run] at h
  split at h
  · cases h
  · exact status_of_map h

/-- A sequence runs its parts one by one, whatever the brackets. -/
theorem Fresh.runsAs_parts (hjob : job.Fresh)
    (h : Joins (fun left right => seq left right .empty) jobs job)
    (houtput : scene.output.isWritable = true) : RunsAs (job.run scene) (runParts jobs scene) := by
  induction h generalizing scene with
  | single job =>
    -- What a part writes on an output of its own is what it adds to the common one.
    obtain ⟨result, job', w', input', added, hruns⟩ := hjob.appends scene.world scene.input
    have hrun : job.run scene = ⟨result, job', ⟨w', input', scene.output.pour added⟩⟩ :=
      hruns.run_pour _ houtput
    have hrun' : job.run { scene with output := .empty } =
        ⟨result, job', ⟨w', input', .ended added⟩⟩ := hruns.run_eq []
    rw [runParts, hrun, hrun']
    cases result <;> exact ⟨rfl, rfl, fun w => rfl⟩
  | @append first second left right front back ihf ihb =>
    obtain ⟨hleft, hright, -⟩ := hjob
    obtain ⟨result, left', w', input', added, hruns⟩ := hleft.appends scene.world scene.input
    have hrun : left.run scene = ⟨result, left', ⟨w', input', scene.output.pour added⟩⟩ :=
      hruns.run_pour _ houtput
    have hfront := ihf hleft houtput
    rw [hrun] at hfront
    rw [runParts_append front.ne_nil, run, hrun]
    generalize runParts first scene = done at hfront
    obtain ⟨_, jobs, _⟩ := done
    obtain ⟨rfl, rfl, hclosing⟩ := hfront
    cases result with
    | error failure =>
      exact runsAs_error (fun w => rfl) hclosing (closing_of_joins (fun _ _ _ => rfl) back)
        failure _
    | ok status =>
      exact (ihb hright (Stream.isWritable_pour houtput added)).after (fun w => rfl) hclosing
        input'

end Job

namespace Plan

/-- Plans are assembled from left to right, whatever the brackets. -/
theorem on_assemble_joins {join : Plan Utility → Plan Utility → Plan Utility}
    {joinJobs : Job → Job → Job}
    (hjoin : ∀ p q, (join p q).assemble .both = do
      return joinJobs (← p.assemble .both) (← q.assemble .both))
    {plans : List (Plan Utility)} {plan : Plan Utility} (h : Joins join plans plan) (w : World) :
    match (buildAll plans).on w with
    | (.error failure, w') => (plan.assemble .both).on w = (.error failure, w')
    | (.ok jobs, w') => ∃ job, (plan.assemble .both).on w = (.ok job, w') ∧
        Joins joinJobs jobs job ∧ jobs.length = plans.length := by
  induction h generalizing w with
  | single plan =>
    have hsingle : buildAll [plan] = do return [← plan.assemble .both] := by
      rw [buildAll, List.mapM_cons, build_both]
      simp
    rw [hsingle, on_bind]
    rcases (plan.assemble .both).on w with ⟨failure | job, w'⟩
    · rfl
    · exact ⟨job, rfl, .single job, rfl⟩
  | @append first second p q front back ihf ihb =>
    have happend : buildAll (first ++ second) = do
        return (← buildAll first) ++ (← buildAll second) := List.mapM_append
    have hp := ihf w
    rw [happend, hjoin, on_bind, on_bind]
    rcases hfirst : (buildAll first).on w with ⟨failure | jobs, w₁⟩ <;> rw [hfirst] at hp
    · rw [hp]
    · obtain ⟨left, hleft, hjobs, hlength⟩ := hp
      have hq := ihb w₁
      rw [hleft]
      dsimp only
      rw [on_bind, on_bind]
      rcases hsecond : (buildAll second).on w₁ with ⟨failure | jobs', w₂⟩ <;> rw [hsecond] at hq
      · rw [hq]
      · obtain ⟨right, hright, hjobs', hlength'⟩ := hq
        rw [hright]
        refine ⟨joinJobs left right, rfl, hjobs.append hjobs', ?_⟩
        rw [List.length_append, List.length_append, hlength, hlength']

/-- What is needed to take plans that are joined apart: the jobs are joined alike, and run one by
one. -/
theorem effect_of_joins {join : Plan Utility → Plan Utility → Plan Utility}
    {joinJobs : Job → Job → Job} {run : List Job → Scene → Outcomes}
    (hjoin : ∀ p q, (join p q).assemble .both = do
      return joinJobs (← p.assemble .both) (← q.assemble .both))
    (hrun : ∀ {jobs job} (scene : Scene), job.Fresh → Joins joinJobs jobs job →
      scene.output.isWritable = true → Job.RunsAs (job.run scene) (run jobs scene))
    (hstatus : ∀ left right scene status,
      ((joinJobs left right).run scene).result = .ok status → status = 0)
    {plans : List (Plan Utility)} {plan : Plan Utility} (h : Joins join plans plan)
    (hlength : 2 ≤ plans.length) {scene : Scene} (hinput : scene.input.isConnected = true)
    (houtput : scene.output.isWritable = true) :
    plan.effect scene = effectOf run plans scene := by
  have hassemble := on_assemble_joins hjoin h scene.world
  unfold effectOf
  rcases hbuild : (buildAll plans).on scene.world with ⟨failure | jobs, w⟩ <;>
    rw [hbuild] at hassemble
  · exact effect_of_error hinput houtput hassemble
  · obtain ⟨job, hjob, hjobs, hsame⟩ := hassemble
    obtain ⟨left, right, rfl⟩ := hjobs.exists_join (hsame ▸ hlength)
    obtain ⟨hresult, hscene, hclosing⟩ :=
      hrun { scene with world := w } (assemble_ok hjob).1 hjobs houtput
    have hzero := hstatus left right { scene with world := w }
    rw [effect_of_ok hinput houtput hjob]
    dsimp only
    rw [hresult, hscene, hclosing]
    cases hran : ((joinJobs left right).run { scene with world := w }).result with
    | error failure => rfl
    | ok status =>
      rw [hzero status hran]
      rfl

/-- A pipeline is its stages, whatever the brackets: they are built from left to right and then
run from left to right, each on all that the one before it has written, until one fails. -/
theorem effect_pipeline {stages : List (Plan Utility)} {plan : Plan Utility}
    (h : Joins pipe stages plan) (hlength : 2 ≤ stages.length) {scene : Scene}
    (hinput : scene.input.isConnected = true) (houtput : scene.output.isWritable = true) :
    plan.effect scene = effectOf Job.runStages stages scene := by
  refine effect_of_joins assemble_pipe ?_ (fun _ _ _ _ => Job.status_pipe) h hlength hinput
    houtput
  intro jobs job scene hjob hjobs _
  exact hjob.runsAs_stages hjobs scene

/-- The brackets around the last two of three stages make no difference. -/
theorem effect_pipeline_three :
    Joins pipe [ofUtility .cat [], ofUtility .sort [], ofUtility .uniq []]
      (pipe (ofUtility .cat []) (pipe (ofUtility .sort []) (ofUtility .uniq []))) ∧
    ((pipe (ofUtility .cat []) (pipe (ofUtility .sort []) (ofUtility .uniq []))).effect
      (.ofInput "b\na\na\n".toList)).scene.output.held = "a\nb\n".toList := by
  have h : Joins pipe [ofUtility .cat [], ofUtility .sort [], ofUtility .uniq []]
      (pipe (ofUtility .cat []) (pipe (ofUtility .sort []) (ofUtility .uniq []))) :=
    .append (.single _) (.append (.single _) (.single _))
  refine ⟨h, ?_⟩
  rw [effect_pipeline h (by decide) rfl rfl]
  cbv

/-- A sequence is its parts, whatever the brackets: they are built from left to right and then run
from left to right, the first on the input and the others on an empty one, and what they write is
put together, until one fails. -/
theorem effect_sequence {parts : List (Plan Utility)} {plan : Plan Utility}
    (h : Joins seq parts plan) (hlength : 2 ≤ parts.length) {scene : Scene}
    (hinput : scene.input.isConnected = true) (houtput : scene.output.isWritable = true) :
    plan.effect scene = effectOf Job.runParts parts scene := by
  refine effect_of_joins assemble_seq ?_ (fun _ _ _ _ => Job.status_seq) h hlength hinput houtput
  intro jobs job scene hjob hjobs hwritable
  exact hjob.runsAs_parts hjobs hwritable

/-- The part after the one that fails does not run. -/
theorem effect_sequence_three :
    Joins seq [ofUtility .echo [['a']], ofUtility .exit [], ofUtility .echo [['b']]]
      (seq (ofUtility .echo [['a']]) (seq (ofUtility .exit []) (ofUtility .echo [['b']]))) ∧
    ((seq (ofUtility .echo [['a']]) (seq (ofUtility .exit []) (ofUtility .echo [['b']]))).effect
      (.ofInput [])).result = .error (.complaint .exit) ∧
    ((seq (ofUtility .echo [['a']]) (seq (ofUtility .exit []) (ofUtility .echo [['b']]))).effect
      (.ofInput [])).scene.output.held = "a\n".toList := by
  have h : Joins seq [ofUtility .echo [['a']], ofUtility .exit [], ofUtility .echo [['b']]]
      (seq (ofUtility .echo [['a']]) (seq (ofUtility .exit []) (ofUtility .echo [['b']]))) :=
    .append (.single _) (.append (.single _) (.single _))
  refine ⟨h, ?_⟩
  rw [effect_sequence h (by decide) rfl rfl]
  constructor <;> cbv

end Plan

end CommandShell

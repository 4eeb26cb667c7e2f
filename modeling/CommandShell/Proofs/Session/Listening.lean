import CommandShell.Proofs.Session.Sequencing

/-!
# Commands that listen

A command that is given its files leaves its input alone. A line is run on whatever input it has,
and what comes first in it decides whether anybody looks: a command that does not listen, or a
redirect, cannot tell an input that cannot be read from one that is empty.
-/

namespace CommandShell

/-! ## Actions -/

namespace Action

variable {α β : Type}

/-- An action that neither looks at its input nor moves in it. -/
def Deaf (action : Action α) : Prop :=
  ∀ scene input, action.on { scene with input } =
    ((action.on scene).1, { (action.on scene).2 with input })

theorem Deaf.bind {action : Action α} {next : α → Action β} (h : action.Deaf)
    (hnext : ∀ a, (next a).Deaf) : (action >>= next).Deaf := by
  intro scene input
  rw [on_bind, on_bind, h scene input]
  rcases action.on scene with ⟨failure | a, after⟩
  · rfl
  · exact hnext a after input

theorem Deaf.tryCatch {action : Action α} {handle : Failure → Action α} (h : action.Deaf)
    (hhandle : ∀ failure, (handle failure).Deaf) : (MonadExcept.tryCatch action handle).Deaf := by
  intro scene input
  rw [on_tryCatch, on_tryCatch, h scene input]
  rcases action.on scene with ⟨failure | a, after⟩
  · exact hhandle failure after input
  · rfl

private theorem deaf_onOutput (use : Stream → Except Crash Stream) : (onOutput use).Deaf := by
  intro scene input
  rw [on_onOutput, on_onOutput]
  cases use scene.output <;> rfl

theorem Made.deaf {action : Action α} (h : Made (.free False) action) : action.Deaf := by
  induction h with
  | result a | crash _ | complain _ => exact fun _ _ => rfl
  | reading _ ih => exact fun scene => ih scene.world trivial scene
  | write s | writeAll texts => exact deaf_onOutput _
  | look h _ | use h _ | skip h count => exact False.elim h
  | andThen _ _ ih ihnext => exact ih.bind ihnext
  | orUnwritable _ _ ih =>
    refine ih.tryCatch fun failure => ?_
    split <;> exact fun _ _ => rfl

end Action

open CommandShell.Action

theorem Cd.deaf_run (cd : Cd) : cd.run.Deaf := by
  intro scene input
  rw [on_run, on_run]
  cases scene.world.enter cd.path <;> rfl

/-! ## Accepted arguments -/

section Accepted

variable {flags : List Flag} {operands : List Text}

theorem Cd.check_singleton (w : World) (flags : List Flag) (path : Text) :
    check w ⟨some flags, some [path], true⟩ =
      if !w.has path then .error (.complaint .cdNotFound)
      else if !w.isDir path then .error (.complaint (.cdNotDirectory path))
      else .ok ⟨path⟩ := by
  simp only [check, Arguments.operands, Arguments.complete, bind, Except.bind, pure, Except.pure]
  split_ifs <;> rfl

theorem Cut.of_check {cut : Cut} (h : Cut.check ⟨some flags, some operands, true⟩ = .ok cut) :
    cut.files = operands ∧ ∃ flag, flags = [flag] ∧ cut.ranges = flag.value := by
  rcases flags with _ | ⟨flag, _ | ⟨_, _⟩⟩ <;> cases h
  exact ⟨rfl, flag, rfl, rfl⟩

theorem Grep.of_check {grep : Grep}
    (h : Grep.check ⟨some flags, some operands, true⟩ = .ok grep) :
    ∃ expression, operands = expression :: grep.files := by
  cases operands with
  | nil => cases h
  | cons expression files =>
    dsimp only [check, Arguments.operands, bind, Except.bind, pure, Except.pure] at h
    split at h <;> cases h
    exact ⟨expression, rfl⟩

theorem Head.files_of_check {head : Head}
    (h : Head.check ⟨some flags, some operands, true⟩ = .ok head) : head.files = operands := by
  obtain ⟨flags, -, h⟩ := Checked.bind_eq_ok.1 h
  obtain ⟨count, -, h⟩ := Checked.bind_eq_ok.1 h
  cases h
  rfl

theorem Tail.files_of_check {tail : Tail}
    (h : Tail.check ⟨some flags, some operands, true⟩ = .ok tail) : tail.files = operands := by
  obtain ⟨flags, -, h⟩ := Checked.bind_eq_ok.1 h
  obtain ⟨count, -, h⟩ := Checked.bind_eq_ok.1 h
  cases h
  rfl

theorem Sed.files_of_ofExpression {sed : Sed} {expression : Text} {files : List Text}
    (h : Sed.ofExpression expression files = .ok sed) : sed.files = files := by
  unfold ofExpression at h
  split at h
  · split at h
    · cases h
    · split at h
      · split at h <;> cases h
        rfl
      · cases h
  · cases h

theorem Sed.of_check {sed : Sed} (h : Sed.check ⟨some flags, some operands, true⟩ = .ok sed) :
    ∃ expression, operands = expression :: sed.files ∧
      Sed.ofExpression expression sed.files = .ok sed := by
  cases operands with
  | nil => cases h
  | cons expression files =>
    have hfiles : sed.files = files := files_of_ofExpression h
    exact ⟨expression, by rw [hfiles], by rw [hfiles]; exact h⟩

theorem Sorting.check_eq (flags : List Flag) (files : List Text) :
    check ⟨some flags, some files, true⟩ =
      if flags.length > 1 then .error (.complaint .sortManyFlags)
      else if flags.any (·.name ≠ reverseFlag) then .error (.complaint .sortUnknownFlag)
      else if files.length > 1 then .error (.complaint .sortManyFiles)
      else .ok ⟨!flags.isEmpty, files.head?⟩ := by
  simp only [check, Arguments.flags, Arguments.operands, Arguments.complete, bind, Except.bind,
    pure, Except.pure]
  split_ifs <;> rfl

theorem Sorting.file?_of_check {sort : Sorting}
    (h : Sorting.check ⟨some flags, some operands, true⟩ = .ok sort) :
    sort.file? = operands.head? := by
  rw [check_eq] at h
  split_ifs at h
  cases h
  rfl

theorem Uniq.check_eq (flags : List Flag) (files : List Text) :
    check ⟨some flags, some files, true⟩ =
      if flags.length > 1 then .error (.complaint .uniqManyFlags)
      else if flags.any (·.name ≠ ignoreCaseFlag) then .error (.complaint .uniqUnknownFlag)
      else if files.length > 1 then .error (.complaint .uniqManyFiles)
      else .ok ⟨!flags.isEmpty, files.head?⟩ := by
  simp only [check, Arguments.flags, Arguments.operands, Arguments.complete, bind, Except.bind,
    pure, Except.pure]
  split_ifs <;> rfl

theorem Uniq.file?_of_check {uniq : Uniq}
    (h : Uniq.check ⟨some flags, some operands, true⟩ = .ok uniq) :
    uniq.file? = operands.head? := by
  rw [check_eq] at h
  split_ifs at h
  cases h
  rfl

theorem Wc.files_of_check {wc : Wc}
    (h : Wc.check ⟨some flags, some operands, true⟩ = .ok wc) : wc.files = operands := by
  obtain ⟨flags, -, h⟩ := Checked.bind_eq_ok.1 h
  obtain ⟨measure?, -, h⟩ := Checked.bind_eq_ok.1 h
  cases h
  rfl

end Accepted

/-- Whether a command with these operands looks at its input. -/
def Utility.listens : Utility → List Text → Bool
  | cat, _ => true
  | head, operands | tail, operands => operands.length ≠ 1
  | cut, operands | sort, operands | uniq, operands | wc, operands => operands.isEmpty
  | grep, operands | sed, operands => operands.tail.isEmpty
  | _, _ => false

namespace Invocation

theorem deaf_run {invocation : Invocation} (h : invocation.listens = false) :
    invocation.run.Deaf := by
  cases hmoves : invocation.moves with
  | false => exact (made_run hmoves fun hlistens => by simp [h] at hlistens).deaf
  | true =>
    cases invocation with
    | cd c => exact c.deaf_run
    | _ => cases hmoves

theorem listens_of_check {utility : Utility} {flags : List Flag} {operands : List Text} {w : World}
    {invocation : Invocation}
    (h : check utility ⟨some flags, some operands, true⟩ w = .ok invocation) :
    invocation.listens = utility.listens operands := by
  cases utility <;> obtain ⟨c, hc, rfl⟩ := Checked.map_eq_ok.1 h
  case cut => rw [listens, (Cut.of_check hc).1, Utility.listens]
  case grep =>
    obtain ⟨expression, rfl⟩ := Grep.of_check hc
    rfl
  case head => rw [listens, Head.files_of_check hc, Utility.listens]
  case sed =>
    obtain ⟨expression, hoperands, -⟩ := Sed.of_check hc
    rw [listens, hoperands, Utility.listens, List.tail_cons]
  case sort =>
    rw [listens, Sorting.file?_of_check hc, Utility.listens]
    cases operands <;> rfl
  case tail => rw [listens, Tail.files_of_check hc, Utility.listens]
  case uniq =>
    rw [listens, Uniq.file?_of_check hc, Utility.listens]
    cases operands <;> rfl
  case wc => rw [listens, Wc.files_of_check hc, Utility.listens]
  all_goals rfl

end Invocation

/-! ## Jobs -/

namespace Job

/-- Whether what comes first in a job looks at its input. A redirect takes what there is and gives
it to its command. -/
def listens : Job → Bool
  | command invocation => invocation.listens
  | redirect _ _ _ _ _ => false
  | tolerant child => child.listens
  | pipe left _ _ => left.listens
  | seq left _ _ => left.listens
  | forward _ _ => false

end Job

def Outcome.withInput {α : Type} (outcome : Outcome α) (input : Stream) : Outcome α :=
  { outcome with scene := { outcome.scene with input } }

namespace Job

private theorem finish_withInput (source : Option Source) (sink : Option Sink) (position : Nat)
    (w : World) (input input' output : Stream) (inner : Outcome Int) :
    finish source sink position ⟨w, input', output⟩ inner =
      (finish source sink position ⟨w, input, output⟩ inner).withInput input' := by
  have hsink : ∀ text, writeSink text sink ⟨inner.scene.world, input', output⟩ =
      (writeSink text sink ⟨inner.scene.world, input, output⟩).map
        fun written => (written.1, { written.2 with input := input' }) := by
    intro text
    unfold writeSink
    cases sink with
    | some file => rfl
    | none =>
      dsimp only
      cases output.write text <;> rfl
  have hdrain : ∀ stream, drain stream position sink ⟨inner.scene.world, input', output⟩ =
      (drain stream position sink ⟨inner.scene.world, input, output⟩).map
        fun drained => (drained.1, drained.2.1, { drained.2.2 with input := input' }) := by
    intro stream
    unfold drain
    cases stream.seek position with
    | error cause => rfl
    | ok moved =>
      simp only [bind, Except.bind, hsink]
      cases moved.hasNoMore with
      | error cause => rfl
      | ok done =>
        cases done with
        | true => rfl
        | false =>
          cases moved.read with
          | error cause => rfl
          | ok x =>
            simp only [Bool.false_eq_true, if_false]
            cases writeSink x.1 sink ⟨inner.scene.world, input, output⟩ <;> rfl
  have hpass : passOn inner position sink ⟨inner.scene.world, input', output⟩ =
      let passed := passOn inner position sink ⟨inner.scene.world, input, output⟩
      (passed.1, passed.2.1, passed.2.2.1, { passed.2.2.2 with input := input' }) := by
    unfold passOn
    rw [hdrain]
    cases inner.result with
    | error failure => rfl
    | ok status =>
      dsimp only
      cases drain inner.scene.output position sink ⟨inner.scene.world, input, output⟩ <;> rfl
  unfold finish
  dsimp only
  rw [hpass]
  rfl

/-- A redirect takes an input that cannot be read to be empty. -/
theorem fill_bare (source : Option Source) (input : Stream) (w : World) (output : Stream) :
    ∃ filled source', fill source input ⟨w, .bare false, output⟩ =
        (filled, source', ⟨w, .bare false, output⟩) ∧
      fill source input ⟨w, .empty, output⟩ = (filled, source', ⟨w, .empty, output⟩) := by
  cases source with
  | none => exact ⟨.ok input, none, rfl, rfl⟩
  | some file =>
    cases hmore : file.hasNoMore w with
    | true =>
      refine ⟨.ok input, some file, ?_, ?_⟩ <;>
        simp [fill, sourceIsEmpty, hmore, pure, Except.pure]
    | false =>
      refine ⟨(file.read w).1.bind (place · input), some (file.read w).2, ?_, ?_⟩ <;>
        simp [fill, sourceIsEmpty, hmore, readSource, pure, Except.pure]

/-- An input that cannot be read is as good as an empty one to a job that does not listen. -/
theorem run_bare {job : Job} (h : job.listens = false) (w : World) (output : Stream) :
    job.run ⟨w, .bare false, output⟩ =
      (job.run ⟨w, .empty, output⟩).withInput (.bare false) := by
  induction job generalizing w output with
  | command invocation =>
    have hdeaf := Invocation.deaf_run h ⟨w, .empty, output⟩ (.bare false)
    rw [run_command, run_command]
    dsimp only at hdeaf ⊢
    rw [hdeaf]
    rfl
  | redirect source sink input inner child ih =>
    have hclosed : anyClosed source sink input inner ⟨w, .bare false, output⟩ =
        anyClosed source sink input inner ⟨w, .empty, output⟩ := by cases source <;> rfl
    obtain ⟨filled, source', hbare, hempty⟩ := fill_bare source input w output
    rw [run, run, hclosed, hbare, hempty]
    by_cases hany : anyClosed source sink input inner ⟨w, .empty, output⟩ = true
    · rw [if_pos hany, if_pos hany]
      rfl
    · rw [if_neg hany, if_neg hany]
      cases filled with
      | error cause => rfl
      | ok held =>
        cases inner.tell with
        | error cause => rfl
        | ok position => exact finish_withInput source' sink position w .empty _ output _
  | tolerant child ih =>
    simp only [run, ih h]
    generalize child.run ⟨w, .empty, output⟩ = ran
    obtain ⟨result, child', after⟩ := ran
    rcases result with (cause | cause) | status
    · dsimp only [Outcome.withInput]
      cases after.output.write (cause.message ++ ['\n']) <;> rfl
    · rfl
    · rfl
  | pipe left right middle ihl ihr =>
    simp only [run, ihl h]
    generalize left.run ⟨w, .empty, middle⟩ = ran
    obtain ⟨result, left', after⟩ := ran
    dsimp only [Outcome.withInput]
    cases result with
    | error failure => rfl
    | ok status => cases after.output.seek 0 <;> rfl
  | seq left right input ihl ihr =>
    -- Only the left part is given the input, and the right one has a stream of its own.
    simp only [run, ihl h]
    generalize left.run ⟨w, .empty, output⟩ = ran
    obtain ⟨result, left', after⟩ := ran
    cases result <;> rfl
  | forward text status =>
    simp only [run]
    cases output.write (text ++ ['\n']) <;> rfl

theorem outputWith_bare {job : Job} (hjob : job.Fresh) (h : job.listens = false) (w : World) :
    (job.outputWith (.bare false)).on w = (job.outputWith .empty).on w := by
  obtain ⟨result, job', w', input, added, hbare⟩ := hjob.appends w (.bare false)
  obtain ⟨result', job'', w'', input', added', hempty⟩ := hjob.appends w .empty
  have hrun := run_bare h w (.ended [])
  rw [hbare.run_eq, hempty.run_eq] at hrun
  simp only [Outcome.withInput, Outcome.mk.injEq, Scene.mk.injEq] at hrun
  obtain ⟨rfl, rfl, rfl, -, hadded⟩ := hrun
  obtain ⟨rfl, -⟩ : added = added' ∧ added.length = added'.length := by
    simpa [Stream.ended] using hadded
  rw [on_outputWith_of_runs hbare rfl, on_outputWith_of_runs hempty rfl]

end Job

/-! ## Plans -/

open Shell

def Simple.listens : Simple Utility → Bool
  | command utility _ operands => utility.listens operands
  | redirect _ _ _ => false

theorem Simple.listens_of_assemble {simple : Simple Utility} {w w' : World} {job : Job}
    (h : simple.assemble.on w = (.ok job, w')) : job.listens = simple.listens := by
  cases simple with
  | command utility flags operands =>
    obtain ⟨w₁, w₂, -, h⟩ := on_bind_eq_ok.1 h
    obtain ⟨invocation, w₃, hcheck, h⟩ := on_bind_eq_ok.1 h
    rw [on_ofChecked] at hcheck
    cases h
    exact Invocation.listens_of_check (congrArg Prod.fst hcheck)
  | redirect source sink child =>
    obtain ⟨opened, w₁, -, h⟩ := on_bind_eq_ok.1 h
    obtain ⟨file, w₂, -, h⟩ := on_bind_eq_ok.1 h
    obtain ⟨inner, w₃, -, h⟩ := on_bind_eq_ok.1 h
    cases h
    rfl

namespace Plan

def listens : Plan Utility → Bool
  | simple command => command.listens
  | tolerant child => child.listens
  | pipe left _ => left.listens
  | seq left _ => left.listens
  | forward _ _ => false

theorem listens_of_assemble {plan : Plan Utility} {w w' : World} {job : Job}
    (hplan : plan.listens = false) (h : (plan.assemble .both).on w = (.ok job, w')) :
    job.listens = false := by
  induction plan generalizing w w' job with
  | simple command => exact (Simple.listens_of_assemble h).trans hplan
  | tolerant child ih =>
    obtain ⟨-, w₁, -, h⟩ := on_bind_eq_ok.1 h
    rw [Shell.on_tryCatch, Shell.on_bind] at h
    rcases hchild : (child.assemble .both).on w₁ with ⟨(cause | cause) | inner, w₂⟩
    · rw [hchild] at h
      cases h
      rfl
    · rw [hchild] at h
      cases h
    · rw [hchild] at h
      cases h
      change inner.listens = false
      exact ih hplan hchild
  | pipe left right ihl ihr | seq left right ihl ihr =>
    obtain ⟨-, w₁, -, h⟩ := on_bind_eq_ok.1 h
    obtain ⟨-, w₂, -, h⟩ := on_bind_eq_ok.1 h
    obtain ⟨first, w₃, hfirst, h⟩ := on_bind_eq_ok.1 h
    obtain ⟨second, w₄, -, h⟩ := on_bind_eq_ok.1 h
    cases h
    change first.listens = false
    exact ihl hplan hfirst
  | forward text status =>
    cases h
    rfl

/-- Whether a plan that is given no input notices that it has none to read: only a sequence has
an input that cannot be read. -/
def strains : Plan Utility → Bool
  | seq left _ => left.listens
  | _ => false

/-- A plan that does not strain runs on its usual input as it does on an empty one. -/
theorem on_outputWith_usualInput {plan : Plan Utility} (hplan : plan.strains = false)
    {w w' : World} {job : Job} (h : (plan.build .both).on w = (.ok job, w')) :
    (job.outputWith plan.usualInput).on w' = (job.outputWith .empty).on w' := by
  cases plan with
  | seq left right =>
    rw [build_both] at h
    refine Job.outputWith_bare (assemble_ok h).1 (listens_of_assemble ?_ h) w'
    exact hplan
  | _ => rfl

end Plan

end CommandShell

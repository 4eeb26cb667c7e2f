import CommandShell.Proofs.Line.PlainLines
import CommandShell.Session

/-!
# One line after another

Two lines with a semicolon between them are not evaluated one after the other. Both are planned
first, then both are assembled, and files are opened and emptied at that point; then both run; and
what they have written to files appears only after that. `Evaluation.inStages` is this order, and
`Evaluation.evaluate_joined` says when it makes no difference.
-/

namespace CommandShell

/-! ## Jobs -/

variable {job : Job} {text : Text} {w w' : World}

namespace Job

/-- One job and then another, which has an input of its own. Sequences lean to the left, so that
of the second job is taken apart. -/
def graft (first : Job) (input : Stream) : Job → Job
  | seq left right later => seq (graft first input left) right later
  | second => seq first second input

def isSeq : Job → Bool
  | seq _ _ _ => true
  | _ => false

theorem graft_of_isSeq {second : Job} (h : second.isSeq = false) (first : Job) (input : Stream) :
    graft first input second = seq first second input := by
  cases second with
  | seq left right later => cases h
  | _ => rfl

@[simp] private theorem isSeq_run (job : Job) (scene : Scene) :
    (job.run scene).job.isSeq = job.isSeq := by
  cases job with
  | command invocation => rfl
  | redirect source sink input output child =>
    unfold run
    split
    · rfl
    · dsimp only
      split <;> rfl
  | tolerant child =>
    simp only [run]
    split
    · split <;> rfl
    · rfl
  | pipe left right middle | seq left right input | forward text status =>
    simp only [run]
    split <;> rfl

private theorem run_graft_of_isSeq {second : Job} (h : second.isSeq = false) (first : Job)
    (input : Stream) (scene : Scene) : (graft first input second).run scene =
      match (first.run scene).result with
      | .error failure =>
        ⟨.error failure, graft (first.run scene).job input second, (first.run scene).scene⟩
      | .ok _ =>
        let later := second.run { (first.run scene).scene with input }
        ⟨later.result.map fun _ => 0, graft (first.run scene).job later.scene.input later.job,
          { later.scene with input := (first.run scene).scene.input }⟩ := by
  rw [graft_of_isSeq h, run]
  cases (first.run scene).result with
  | error failure => rw [graft_of_isSeq h]
  | ok status =>
    dsimp only
    rw [graft_of_isSeq ((isSeq_run _ _).trans h)]

theorem run_graft (first second : Job) (input : Stream) (scene : Scene) :
    (graft first input second).run scene =
      match (first.run scene).result with
      | .error failure =>
        ⟨.error failure, graft (first.run scene).job input second, (first.run scene).scene⟩
      | .ok _ =>
        let later := second.run { (first.run scene).scene with input }
        ⟨later.result.map fun _ => 0, graft (first.run scene).job later.scene.input later.job,
          { later.scene with input := (first.run scene).scene.input }⟩ := by
  induction second with
  | seq left right later ihl ihr =>
    rw [graft, run, ihl]
    cases (first.run scene).result with
    | error failure => rfl
    | ok status =>
      dsimp only
      rw [run]
      generalize left.run { (first.run scene).scene with input } = middle
      cases middle.result with
      | error failure => rfl
      | ok status =>
        dsimp only [Except.map]
        cases (right.run { middle.scene with input := later }).result <;> rfl
  | _ => exact run_graft_of_isSeq rfl first input scene

theorem closing_graft (first second : Job) (input : Stream) (w : World) :
    (graft first input second).closing w = second.closing (first.closing w) := by
  induction second generalizing w with
  | seq left right later ihl ihr => rw [graft, closing, ihl, closing]
  | _ => rfl

variable {input : Stream}

theorem connected_graft {first second : Job} (hfirst : first.Connected) (hsecond : second.Connected)
    (hinput : input.isConnected = true) : (graft first input second).Connected := by
  induction second with
  | seq left right later ihl ihr => exact ⟨ihl hsecond.1, hsecond.2⟩
  | _ => exact ⟨hfirst, hsecond, hinput⟩

/-- Runs a job with an output of its own. -/
def start (job : Job) (input : Stream) : Shell (Job × Scene) := do
  let outcome := job.run ⟨← get, input, .empty⟩
  set outcome.scene.world
  let _ ← Shell.ofChecked outcome.result
  return (outcome.job, outcome.scene)

/-- Closes a job that has run on some streams and gives what it has written. -/
def conclude (job : Job) (streams : Scene) : Shell Text := do
  let outcome := job.close { streams with world := ← get }
  set outcome.scene.world
  Shell.ofChecked outcome.result
  return outcome.scene.output.text?.getD []

open Shell

theorem on_outputWith (job : Job) (input : Stream) (w : World) :
    (job.outputWith input).on w =
      ((job.runAndClose ⟨w, input, .empty⟩).result.map fun _ =>
        (job.runAndClose ⟨w, input, .empty⟩).scene.output.text?.getD [],
        (job.runAndClose ⟨w, input, .empty⟩).scene.world) := by
  unfold outputWith
  rw [on_bind, on_get]
  dsimp only
  rw [on_bind, on_set]
  dsimp only
  rw [on_bind, on_ofChecked]
  cases (job.runAndClose ⟨w, input, .empty⟩).result <;> rfl

theorem on_start {job' : Job} {input' : Stream} {added : Text} {result : Except Failure Int}
    (h : job.Runs w input result job' w' input' added) :
    (job.start input).on w = (result.map fun _ => (job', ⟨w', input', .ended added⟩), w') := by
  have hrun : job.run ⟨w, input, .empty⟩ = ⟨result, job', ⟨w', input', .ended added⟩⟩ :=
    h.run_eq []
  unfold start
  rw [on_bind, on_get]
  dsimp only
  rw [on_bind, on_set, hrun]
  dsimp only
  rw [on_bind, on_ofChecked]
  cases result <;> rfl

theorem on_conclude (hjob : job.Connected) {streams : Scene}
    (hinput : streams.input.isConnected = true) (houtput : streams.output.isConnected = true)
    (w : World) :
    (job.conclude streams).on w = (.ok (streams.output.text?.getD []), job.closing w) := by
  obtain ⟨hresult, hworld, -, -, htext⟩ := close_eq hjob ⟨w, streams.input, streams.output⟩ hinput
    houtput
  unfold conclude
  rw [on_bind, on_get]
  dsimp only
  rw [on_bind, on_set]
  dsimp only
  rw [on_bind, on_ofChecked, hresult]
  dsimp only
  rw [on_pure, hworld, htext]

theorem on_outputWith_of_runs {job' : Job} {input' : Stream} {added : Text}
    {result : Except Failure Int} (h : job.Runs w input result job' w' input' added)
    (hinput : input.isOpen = true) :
    (job.outputWith input).on w = (result.map fun _ => added, job'.closing w') := by
  have hrun : job.run ⟨w, input, .empty⟩ = ⟨result, job', ⟨w', input', .ended added⟩⟩ :=
    h.run_eq []
  obtain ⟨hresult, hworld, -, -, htext⟩ := close_eq h.connected ⟨w', input', .ended added⟩
    (isConnected_of_isOpen (h.isOpen hinput)) rfl
  rw [on_outputWith, runAndClose, hrun]
  dsimp only
  rw [hresult, hworld, htext]
  cases result <;> rfl

/-- Two jobs in stages: both run, and then both are closed. -/
def outputInStages (first second : Job) (input : Stream) : Shell Text := do
  let (first, streams) ← first.start input
  let (second, streams') ← second.start .empty
  let text ← first.conclude streams
  let text' ← second.conclude streams'
  return text ++ text'

section Stages

variable {first second first' second' : Job} {w w₁ w₂ : World} {input input₁ input₂ : Stream}
  {added₁ added₂ : Text} {result₁ result₂ : Except Failure Int}

theorem on_outputInStages_eq_ok (hinput : input.isOpen = true)
    (h₁ : first.Runs w input result₁ first' w₁ input₁ added₁)
    (h₂ : second.Runs w₁ .empty result₂ second' w₂ input₂ added₂) :
    (outputInStages first second input).on w = (.ok text, w') ↔
      (∃ s₁ s₂, result₁ = .ok s₁ ∧ result₂ = .ok s₂) ∧
        (added₁ ++ added₂, second'.closing (first'.closing w₂)) = (text, w') := by
  unfold outputInStages
  rw [on_bind, on_start h₁]
  cases result₁ with
  | error failure => simp [Except.map]
  | ok status =>
    dsimp only [Except.map]
    rw [on_bind, on_start h₂]
    cases result₂ with
    | error failure => simp [Except.map]
    | ok status' =>
      dsimp only [Except.map]
      rw [on_bind, on_conclude h₁.connected (isConnected_of_isOpen (h₁.isOpen hinput)) rfl]
      dsimp only
      rw [on_bind, on_conclude h₂.connected (isConnected_of_isOpen (h₂.isOpen rfl)) rfl]
      dsimp only
      rw [on_pure]
      simp [Stream.ended, Stream.text?]

private theorem on_outputWith_graft_eq_ok (hinput : input.isOpen = true)
    (h₁ : first.Runs w input result₁ first' w₁ input₁ added₁)
    (h₂ : second.Runs w₁ .empty result₂ second' w₂ input₂ added₂) :
    ((graft first .empty second).outputWith input).on w = (.ok text, w') ↔
      (∃ s₁ s₂, result₁ = .ok s₁ ∧ result₂ = .ok s₂) ∧
        (added₁ ++ added₂, second'.closing (first'.closing w₂)) = (text, w') := by
  have hrun : first.run ⟨w, input, .empty⟩ = ⟨result₁, first', ⟨w₁, input₁, .ended added₁⟩⟩ :=
    h₁.run_eq []
  rw [on_outputWith, runAndClose, run_graft, hrun]
  cases result₁ with
  | error failure =>
    dsimp only
    cases ((graft first' .empty second).close ⟨w₁, input₁, .ended added₁⟩).result <;>
      simp [Except.bind, Except.map]
  | ok status =>
    dsimp only
    rw [h₂.run_eq]
    have hgraft : (graft first' input₂ second').Connected :=
      connected_graft h₁.connected h₂.connected (isConnected_of_isOpen (h₂.isOpen rfl))
    obtain ⟨hresult, hworld, -, -, htext⟩ :=
      close_eq hgraft ⟨w₂, input₁, .ended (added₁ ++ added₂)⟩
        (isConnected_of_isOpen (h₁.isOpen hinput)) rfl
    dsimp only
    rw [hresult, hworld, htext, closing_graft]
    cases result₂ <;> simp [Except.bind, Except.map, Stream.ended, Stream.text?]

/-- A sequence runs its parts one after the other, but closes them only after both have run. -/
theorem on_outputWith_graft (hfirst : first.Fresh) (hsecond : second.Fresh)
    (hinput : input.isOpen = true) :
    ((graft first .empty second).outputWith input).on w = (.ok text, w') ↔
      (outputInStages first second input).on w = (.ok text, w') := by
  obtain ⟨result₁, first', w₁, input₁, added₁, h₁⟩ := hfirst.appends w input
  obtain ⟨result₂, second', w₂, input₂, added₂, h₂⟩ := hsecond.appends w₁ .empty
  rw [on_outputWith_graft_eq_ok hinput h₁ h₂, on_outputInStages_eq_ok hinput h₁ h₂]

end Stages

end Job

namespace Plan

open Shell

private theorem isSeq_of_simple {simple : Simple Utility}
    (h : simple.assemble.on w = (.ok job, w')) : job.isSeq = false := by
  cases simple with
  | command utility flags operands =>
    obtain ⟨w₁, w₂, -, h⟩ := on_bind_eq_ok.1 h
    obtain ⟨invocation, w₃, -, h⟩ := on_bind_eq_ok.1 h
    cases h
    rfl
  | redirect source sink child =>
    obtain ⟨opened, w₁, -, h⟩ := on_bind_eq_ok.1 h
    obtain ⟨file, w₂, -, h⟩ := on_bind_eq_ok.1 h
    obtain ⟨inner, w₃, -, h⟩ := on_bind_eq_ok.1 h
    cases h
    rfl

def isSeq : Plan κ → Bool
  | seq _ _ => true
  | _ => false

theorem isSeq_of_assemble {plan : Plan Utility} (hplan : plan.isSeq = false)
    (h : (plan.assemble .both).on w = (.ok job, w')) : job.isSeq = false := by
  cases plan with
  | simple command => exact isSeq_of_simple h
  | tolerant child =>
    obtain ⟨_, w₁, -, h⟩ := on_bind_eq_ok.1 h
    rw [on_tryCatch, on_bind] at h
    rcases hchild : (child.assemble .both).on w₁ with ⟨(cause | cause) | inner, w₂⟩ <;>
      rw [hchild] at h <;> cases h <;> rfl
  | pipe left right =>
    obtain ⟨_, w₁, -, h⟩ := on_bind_eq_ok.1 h
    obtain ⟨_, w₂, -, h⟩ := on_bind_eq_ok.1 h
    obtain ⟨first, w₃, -, h⟩ := on_bind_eq_ok.1 h
    obtain ⟨second, w₄, -, h⟩ := on_bind_eq_ok.1 h
    cases h
    rfl
  | seq left right => cases hplan
  | forward text status => cases h; rfl

variable {p q : Plan Utility}

theorem on_assemble_seq :
    ((seq p q).assemble .both).on w = (.ok job, w') ↔
      ∃ first w₁ second, (p.assemble .both).on w = (.ok first, w₁) ∧
        (q.assemble .both).on w₁ = (.ok second, w') ∧ job = .seq first second .empty := by
  rw [assemble_seq]
  constructor
  · intro h
    obtain ⟨first, w₁, hfirst, h⟩ := on_bind_eq_ok.1 h
    obtain ⟨second, w₂, hsecond, h⟩ := on_bind_eq_ok.1 h
    cases h
    exact ⟨first, w₁, second, hfirst, hsecond, rfl⟩
  · rintro ⟨first, w₁, second, hfirst, hsecond, rfl⟩
    exact on_bind_eq_ok.2 ⟨first, w₁, hfirst, on_bind_eq_ok.2 ⟨second, w', hsecond, rfl⟩⟩

private theorem on_assemble_seq_of_isSeq (hq : q.isSeq = false) :
    ((seq p q).assemble .both).on w = (.ok job, w') ↔
      ∃ first w₁ second, (p.assemble .both).on w = (.ok first, w₁) ∧
        (q.assemble .both).on w₁ = (.ok second, w') ∧ job = .graft first .empty second := by
  rw [on_assemble_seq]
  constructor
  · rintro ⟨first, w₁, second, hfirst, hsecond, rfl⟩
    exact ⟨first, w₁, second, hfirst, hsecond,
      (Job.graft_of_isSeq (isSeq_of_assemble hq hsecond) first .empty).symm⟩
  · rintro ⟨first, w₁, second, hfirst, hsecond, rfl⟩
    exact ⟨first, w₁, second, hfirst, hsecond,
      Job.graft_of_isSeq (isSeq_of_assemble hq hsecond) first .empty⟩

theorem on_assemble_sequence :
    ((p.sequence q).assemble .both).on w = (.ok job, w') ↔
      ∃ first w₁ second, (p.assemble .both).on w = (.ok first, w₁) ∧
        (q.assemble .both).on w₁ = (.ok second, w') ∧ job = .graft first .empty second := by
  induction q generalizing w' job with
  | seq left right ihl ihr =>
    rw [sequence, on_assemble_seq]
    constructor
    · rintro ⟨front, w₂, last, hfront, hlast, rfl⟩
      obtain ⟨first, w₁, second, hfirst, hsecond, rfl⟩ := ihl.1 hfront
      exact ⟨first, w₁, .seq second last .empty, hfirst,
        on_assemble_seq.2 ⟨second, w₂, last, hsecond, hlast, rfl⟩, rfl⟩
    · rintro ⟨first, w₁, later, hfirst, hlater, rfl⟩
      obtain ⟨second, w₂, last, hsecond, hlast, rfl⟩ := on_assemble_seq.1 hlater
      exact ⟨.graft first .empty second, w₂, last,
        ihl.2 ⟨first, w₁, second, hfirst, hsecond, rfl⟩, hlast, rfl⟩
  | simple command | tolerant child ih | pipe left right ihl ihr | forward text status =>
    exact on_assemble_seq_of_isSeq rfl

end Plan

/-! ## Lines -/

namespace Evaluation

open Line Shell

/-- Two lines in stages: both are planned, then both are assembled, then both run, and then both
are closed. -/
def inStages (l r input : Text) : Shell Text := do
  let p ← planOf utilities l
  let q ← planOf utilities r
  let first ← p.build .both
  let second ← q.build .both
  first.outputInStages second (.ofText input)

theorem evaluate_eq_success {line input output : Text} :
    evaluate line input w = (⟨output, [], none⟩, w') ↔
      (outputOf line input).on w = (.ok output, w') := by
  unfold evaluate Shell.on
  rcases (outputOf line input).run.run w with ⟨(cause | cause) | text, w₁⟩
  · cases cause <;> simp [ofResult, reportLine]
  · simp [ofResult]
  · simp [ofResult]

section Joined

variable {l r input : Text} {w : World} {p q : Plan Utility}

theorem on_outputOf_eq_ok {line : Text} (hp : (planOf utilities line).on w = (.ok p, w)) :
    (outputOf line input).on w = (.ok text, w') ↔
      ∃ job w₁, (p.assemble .both).on w = (.ok job, w₁) ∧
        (job.outputWith (.ofText input)).on w₁ = (.ok text, w') := by
  unfold outputOf
  rw [on_bind, hp]
  dsimp only
  rw [Plan.build_both, on_bind_eq_ok]

theorem on_inStages_eq_ok (hp : (planOf utilities l).on w = (.ok p, w))
    (hq : (planOf utilities r).on w = (.ok q, w)) :
    (inStages l r input).on w = (.ok text, w') ↔
      ∃ first w₁ second w₂, (p.assemble .both).on w = (.ok first, w₁) ∧
        (q.assemble .both).on w₁ = (.ok second, w₂) ∧
        (first.outputInStages second (.ofText input)).on w₂ = (.ok text, w') := by
  unfold inStages
  rw [on_bind, hp]
  dsimp only
  rw [on_bind, hq]
  dsimp only
  rw [Plan.build_both, Plan.build_both, on_bind_eq_ok]
  simp only [on_bind_eq_ok, exists_and_left]

theorem on_outputOf_joined (hp : (planOf utilities l).on w = (.ok p, w))
    (hq : (planOf utilities r).on w = (.ok q, w))
    (hs : (planOf utilities (l ++ " ; ".toList ++ r)).on w = (.ok (p.sequence q), w)) :
    (outputOf (l ++ " ; ".toList ++ r) input).on w = (.ok text, w') ↔
      (inStages l r input).on w = (.ok text, w') := by
  rw [on_outputOf_eq_ok hs, on_inStages_eq_ok hp hq]
  constructor
  · rintro ⟨job, w₂, hjob, houtput⟩
    obtain ⟨first, w₁, second, hfirst, hsecond, rfl⟩ := Plan.on_assemble_sequence.1 hjob
    exact ⟨first, w₁, second, w₂, hfirst, hsecond, (Job.on_outputWith_graft
      (Plan.assemble_ok hfirst).1 (Plan.assemble_ok hsecond).1 rfl).1 houtput⟩
  · rintro ⟨first, w₁, second, w₂, hfirst, hsecond, houtput⟩
    exact ⟨.graft first .empty second, w₂,
      Plan.on_assemble_sequence.2 ⟨first, w₁, second, hfirst, hsecond, rfl⟩,
      (Job.on_outputWith_graft (Plan.assemble_ok hfirst).1 (Plan.assemble_ok hsecond).1 rfl).2
        houtput⟩

theorem runs_of_outputWith (hjob : job.Fresh) (hwrites : job.writes = false) {stream : Stream}
    (hstream : stream.isOpen = true) (h : (job.outputWith stream).on w = (.ok text, w')) :
    ∃ status job' stream', job.Runs w stream (.ok status) job' w' stream' text := by
  obtain ⟨result, job', w₁, stream', added, hruns⟩ := hjob.appends w stream
  rw [Job.on_outputWith_of_runs hruns hstream, hruns.closing_eq hwrites] at h
  cases result with
  | error failure => cases h
  | ok status =>
    cases h
    exact ⟨status, job', stream', hruns⟩

/-- Without files to write, and with the working directory left alone by the first line, the
order of the stages makes no difference. -/
theorem on_inStages_of_writes {o₁ o₂ : Text} {w₁ w₂ : World}
    (hp : (planOf utilities l).on w = (.ok p, w)) (hq : (planOf utilities r).on w = (.ok q, w))
    (h₁ : (outputOf l input).on w = (.ok o₁, w₁)) (h₂ : (outputOf r []).on w₁ = (.ok o₂, w₂))
    (hpw : p.writes = false) (hpm : p.moves = false) (hqw : q.writes = false) :
    (inStages l r input).on w = (.ok (o₁ ++ o₂), w₂) := by
  obtain ⟨first, w₃, hfirst, hout₁⟩ := (on_outputOf_eq_ok hp).1 h₁
  obtain rfl : w₃ = w := by simpa [hfirst] using Plan.still_assemble hpw w
  obtain ⟨hfresh₁, hwrites₁, hmoves₁⟩ := Plan.assemble_ok hfirst
  obtain ⟨s₁, first', input₁, hruns₁⟩ := runs_of_outputWith hfresh₁ (hwrites₁ hpw) rfl hout₁
  obtain rfl := hruns₁.world_eq (hwrites₁ hpw) (hmoves₁ hpm)
  obtain ⟨second, w₃, hsecond, hout₂⟩ := (on_outputOf_eq_ok hq).1 h₂
  obtain rfl : w₃ = w₁ := by simpa [hsecond] using Plan.still_assemble hqw w₁
  obtain ⟨hfresh₂, hwrites₂, -⟩ := Plan.assemble_ok hsecond
  obtain ⟨s₂, second', input₂, hruns₂⟩ := runs_of_outputWith hfresh₂ (hwrites₂ hqw) rfl hout₂
  refine (on_inStages_eq_ok hp hq).2 ⟨first, w₃, second, w₃, hfirst, hsecond,
    (Job.on_outputInStages_eq_ok rfl hruns₁ hruns₂).2 ⟨⟨s₁, s₂, rfl, rfl⟩, ?_⟩⟩
  rw [hruns₁.closing_eq (hwrites₁ hpw), hruns₂.closing_eq (hwrites₂ hqw)]

/-- Two lines with a semicolon between them come to the same as the one line and then the other if
and only if their stages do. That is so whenever neither line has an output redirect and the first
does not change the working directory. -/
theorem evaluate_joined {o₁ o₂ : Text} {w₁ w₂ : World} (hl : '\x60' ∉ l) (hr : '\x60' ∉ r)
    (hp : ((planOf utilities l).on w).1 = .ok p) (hq : ((planOf utilities r).on w).1 = .ok q)
    (hs : ∃ s, ((planOf utilities (l ++ " ; ".toList ++ r)).on w).1 = .ok s)
    (h₁ : evaluate l input w = (⟨o₁, [], none⟩, w₁))
    (h₂ : evaluate r [] w₁ = (⟨o₂, [], none⟩, w₂)) :
    (evaluate (l ++ " ; ".toList ++ r) input w = (⟨o₁ ++ o₂, [], none⟩, w₂) ↔
      (inStages l r input).on w = (.ok (o₁ ++ o₂), w₂)) ∧
    (p.writes = false → p.moves = false → q.writes = false →
      evaluate (l ++ " ; ".toList ++ r) input w = (⟨o₁ ++ o₂, [], none⟩, w₂)) := by
  obtain ⟨s, hs⟩ := hs
  have hs := planOf_joined hl hr hp hq hs
  obtain ⟨hp, -⟩ := plan_of_planOf hl hp
  obtain ⟨hq, -⟩ := plan_of_planOf hr hq
  rw [evaluate_eq_success, on_outputOf_joined hp hq hs]
  rw [evaluate_eq_success] at h₁ h₂
  exact ⟨Iff.rfl, on_inStages_of_writes hp hq h₁ h₂⟩

end Joined

/-! ## A line that reads what another writes -/

def bareWorld : World := ⟨.dir [], [], []⟩

def filedWorld : World := ⟨.dir [(['f'], .file (Content.ofText "hi\n".toList))], [], []⟩

def echoing (ending : Ending) : Command :=
  .mk .done (.chars "echo".toList) (.modifier [' '] (.arg (.chars "hi".toList)) ending)

def showing : Command :=
  .mk .done (.chars "cat".toList) (.modifier [' '] (.arg (.chars ['f'])) .done)

def filing : Ending := .redirect [[' ']] (.mk .output (some [' ']) (.chars ['f'])) .done

theorem plan_filing : (echoing filing).plan utilities bareWorld =
    .ok (.simple (.redirect none (some ['f']) (.command .echo [] ["hi".toList]))) := by
  rw [echoing, Command.plan_utility .echo rfl]
  cbv

theorem plan_echoing : (echoing .done).plan utilities filedWorld =
    .ok (.simple (.command .echo [] ["hi".toList])) := by
  rw [echoing, Command.plan_utility .echo rfl]
  cbv

theorem plan_showing (hw : w = bareWorld ∨ w = filedWorld) :
    showing.plan utilities w = .ok (.simple (.command .cat [] [['f']])) := by
  rw [showing, Command.plan_utility .cat rfl]
  rcases hw with rfl | rfl <;> cbv

theorem on_planOf_showing (hw : w = bareWorld ∨ w = filedWorld) :
    (planOf utilities "cat f".toList).on w = (.ok (.simple (.command .cat [] [['f']])), w) := by
  have hread : Script.ofLine? "cat f".toList = some ⟨some (.command showing), []⟩ := by
    decide +kernel
  exact on_planOf_of_script (by decide) (by decide) hread (plan_showing hw)

theorem evaluate_showing : evaluate "cat f".toList [] filedWorld =
    (⟨"hi\n".toList, [], none⟩, filedWorld) := by
  rw [evaluate_eq_success, on_outputOf_eq_ok (on_planOf_showing (.inr rfl))]
  exact ⟨_, _, rfl, by cbv⟩

/-- The law of sequences at a line that reads a file. -/
theorem evaluate_joined_file :
    evaluate ("echo hi".toList ++ " ; ".toList ++ "cat f".toList) [] filedWorld =
      (⟨"hi\n".toList ++ "hi\n".toList, [], none⟩, filedWorld) := by
  have hread : Script.ofLine? "echo hi".toList = some ⟨some (.command (echoing .done)), []⟩ := by
    decide +kernel
  have hp : (planOf utilities "echo hi".toList).on filedWorld = _ :=
    on_planOf_of_script (by decide) (by decide) hread plan_echoing
  have hjoined : Script.ofLine? ("echo hi".toList ++ " ; ".toList ++ "cat f".toList) =
      some ⟨some (.sequence (.commands (echoing .done) (some [' ']) (some [' ']) showing)), []⟩ := by
    decide +kernel
  have hs : (planOf utilities ("echo hi".toList ++ " ; ".toList ++ "cat f".toList)).on filedWorld =
      (.ok (.seq (.simple (.command .echo [] ["hi".toList]))
        (.simple (.command .cat [] [['f']]))), filedWorld) := by
    exact on_planOf_of_script (by decide) (by decide) hjoined
      (Sequence.plan_commands (some [' ']) (some [' ']) plan_echoing (plan_showing (.inr rfl)))
  have h₁ : evaluate "echo hi".toList [] filedWorld = (⟨"hi\n".toList, [], none⟩, filedWorld) := by
    rw [evaluate_eq_success, on_outputOf_eq_ok hp]
    exact ⟨_, _, rfl, by cbv⟩
  exact (evaluate_joined (by decide) (by decide) (congrArg Prod.fst hp)
    (congrArg Prod.fst (on_planOf_showing (.inr rfl))) ⟨_, congrArg Prod.fst hs⟩ h₁
    evaluate_showing).2 rfl rfl rfl

/-- A line that reads what another writes finds nothing when a semicolon joins the two, since
nothing has been written when it runs. -/
theorem evaluate_stale :
    evaluate "echo hi > f".toList [] bareWorld = (⟨[], [], none⟩, filedWorld) ∧
    evaluate "cat f".toList [] filedWorld = (⟨"hi\n".toList, [], none⟩, filedWorld) ∧
    evaluate ("echo hi > f".toList ++ " ; ".toList ++ "cat f".toList) [] bareWorld =
      (⟨[], [], none⟩, filedWorld) := by
  have hread : Script.ofLine? "echo hi > f".toList = some ⟨some (.command (echoing filing)), []⟩ := by
    decide +kernel
  have hp : (planOf utilities "echo hi > f".toList).on bareWorld = _ :=
    on_planOf_of_script (by decide) (by decide) hread plan_filing
  have hjoined : Script.ofLine? ("echo hi > f".toList ++ " ; ".toList ++ "cat f".toList) =
      some ⟨some (.sequence (.commands (echoing filing) (some [' ']) (some [' ']) showing)), []⟩ := by
    decide +kernel
  have hs : (planOf utilities ("echo hi > f".toList ++ " ; ".toList ++ "cat f".toList)).on
      bareWorld = (.ok (.seq (.simple (.redirect none (some ['f'])
        (.command .echo [] ["hi".toList]))) (.simple (.command .cat [] [['f']]))), bareWorld) := by
    exact on_planOf_of_script (by decide) (by decide) hjoined
      (Sequence.plan_commands (some [' ']) (some [' ']) plan_filing (plan_showing (.inl rfl)))
  refine ⟨?_, evaluate_showing, ?_⟩
  · rw [evaluate_eq_success, on_outputOf_eq_ok hp]
    exact ⟨_, _, rfl, by cbv⟩
  · rw [evaluate_eq_success, on_outputOf_eq_ok hs]
    exact ⟨_, _, rfl, by cbv⟩

end Evaluation

end CommandShell

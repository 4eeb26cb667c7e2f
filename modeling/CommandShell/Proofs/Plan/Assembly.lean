import CommandShell.Proofs.Plan.Jobs

/-!
# What assembly makes of a plan

The job of a plan is fresh, writes to files only where the plan has an output redirect, and
changes the working directory only where the plan has `cd`. Without an output redirect, assembly
leaves the world alone.
-/

namespace CommandShell

namespace Shell

variable {α β : Type}

def on (step : Shell α) (w : World) : Except Failure α × World := step.run.run w

@[simp] theorem on_pure (a : α) (w : World) : (pure a : Shell α).on w = (.ok a, w) := rfl

@[simp] theorem on_get (w : World) : (get : Shell World).on w = (.ok w, w) := rfl

@[simp] theorem on_set (w w' : World) : (set w' : Shell PUnit).on w = (.ok ⟨⟩, w') := rfl

theorem on_bind (step : Shell α) (next : α → Shell β) (w : World) :
    (step >>= next).on w =
      match step.on w with
      | (.ok a, w) => (next a).on w
      | (.error failure, w) => (.error failure, w) := by
  unfold on
  rw [ExceptT.run_bind, StateT.run_bind]
  rcases step.run.run w with ⟨_ | _, _⟩ <;> rfl

theorem on_tryCatch (step : Shell α) (handle : Failure → Shell α) (w : World) :
    (tryCatch step handle).on w =
      match step.on w with
      | (.ok a, w) => (.ok a, w)
      | (.error failure, w) => (handle failure).on w := by
  unfold on
  rw [ExceptT.run_tryCatch, StateT.run_bind]
  rcases step.run.run w with ⟨_ | _, _⟩ <;> rfl

@[simp] theorem on_ofChecked (x : Checked α) (w : World) : (ofChecked x).on w = (x, w) := by
  cases x <;> rfl

theorem on_ofCall (complaint : OsError → Complaint) (x : Except CallFailure α) (w : World) :
    (ofCall complaint x).on w = (x.mapError (Action.callFailure complaint), w) := by
  rcases x with (_ | _) | _ <;> rfl

/-- A step after another succeeds if and only if both do. -/
theorem on_bind_eq_ok {step : Shell α} {next : α → Shell β} {w w' : World} {b : β} :
    (step >>= next).on w = (.ok b, w') ↔
      ∃ a w₁, step.on w = (.ok a, w₁) ∧ (next a).on w₁ = (.ok b, w') := by
  rw [on_bind]
  rcases hstep : step.on w with ⟨_ | a, w₁⟩
  · simp
  · constructor
    · intro h
      exact ⟨a, w₁, rfl, h⟩
    · rintro ⟨a, w₁, h, hnext⟩
      cases h
      exact hnext

/-- A step that leaves the world alone. -/
def Still (step : Shell α) : Prop := ∀ w, (step.on w).2 = w

theorem still_pure (a : α) : (pure a : Shell α).Still := fun _ => rfl

theorem still_throw (failure : Failure) : (throw failure : Shell α).Still := fun _ => rfl

theorem still_get : (get : Shell World).Still := fun _ => rfl

theorem still_ofChecked (x : Checked α) : (ofChecked x).Still := fun w => by rw [on_ofChecked]

theorem still_ofCall (complaint : OsError → Complaint) (x : Except CallFailure α) :
    (ofCall complaint x).Still := fun w => by rw [on_ofCall]

theorem Still.bind {step : Shell α} {next : α → Shell β} (h : step.Still)
    (hnext : ∀ a, (next a).Still) : (step >>= next).Still := by
  intro w
  have hw := h w
  rw [on_bind]
  rcases hstep : step.on w with ⟨_ | a, w₁⟩
  · rw [hstep] at hw
    exact hw
  · rw [hstep] at hw
    exact (hnext a w₁).trans hw

theorem Still.tryCatch {step : Shell α} {handle : Failure → Shell α} (h : step.Still)
    (hhandle : ∀ failure, (handle failure).Still) :
    (MonadExcept.tryCatch step handle).Still := by
  intro w
  have hw := h w
  rw [on_tryCatch]
  rcases hstep : step.on w with ⟨failure | _, w₁⟩
  · rw [hstep] at hw
    exact (hhandle failure w₁).trans hw
  · rw [hstep] at hw
    exact hw

end Shell

open Shell

/-! ## Commands and redirects -/

theorem Invocation.moves_of_check {utility : Utility} {arguments : Arguments} {w : World}
    {invocation : Invocation} (h : Invocation.check utility arguments w = .ok invocation) :
    invocation.moves = decide (utility = .cd) := by
  cases utility <;> simp only [Invocation.check, Functor.map, Except.map] at h <;>
    split at h <;> cases h <;> simp [Invocation.moves]

namespace Simple

def writes : Simple κ → Bool
  | command _ _ _ => false
  | redirect _ sink child => sink.isSome || child.writes

def moves (simple : Simple Utility) : Bool := simple.kind = .cd

end Simple

theorem Source.still_open? (path? : Option Text) : (Source.open? path?).Still := by
  cases path? with
  | none => exact still_pure _
  | some path =>
    exact still_get.bind fun w => (still_ofCall _ _).bind fun place => still_pure _

theorem Sink.still_open? : (Sink.open? none).Still := still_pure _

theorem Sink.isSome_of_open? {path? : Option Text} {w w' : World} {sink : Option Sink}
    (h : (Sink.open? path?).on w = (.ok sink, w')) : sink.isSome = path?.isSome := by
  cases path? with
  | none => cases h; rfl
  | some path =>
    obtain ⟨w₁, w₂, -, h⟩ := on_bind_eq_ok.1 h
    obtain ⟨opened, w₃, -, h⟩ := on_bind_eq_ok.1 h
    obtain ⟨-, w₄, -, h⟩ := on_bind_eq_ok.1 h
    cases h
    rfl

namespace Simple

theorem on_assemble_command (utility : Utility) (flags : List Flag) (operands : List Text)
    (w : World) : (command utility flags operands).assemble.on w =
      ((Invocation.check utility ⟨some flags, some operands, true⟩ w).map .command, w) := by
  rw [assemble, on_bind, on_get]
  dsimp only
  rw [on_bind, on_ofChecked]
  cases Invocation.check utility ⟨some flags, some operands, true⟩ w <;> rfl

theorem still_assemble {simple : Simple Utility} (h : simple.writes = false) :
    simple.assemble.Still := by
  induction simple with
  | command utility flags operands =>
    exact still_get.bind fun w => (still_ofChecked _).bind fun invocation => still_pure _
  | redirect source sink child ih =>
    obtain ⟨hsink, hchild⟩ := Bool.or_eq_false_iff.1 h
    cases sink with
    | some path => cases hsink
    | none =>
      exact (Source.still_open? source).bind fun _ => Sink.still_open?.bind fun _ =>
        (ih hchild).bind fun job => still_pure _

theorem assemble_ok {simple : Simple Utility} {w w' : World} {job : Job}
    (h : simple.assemble.on w = (.ok job, w')) :
    job.Fresh ∧ job.writes = simple.writes ∧ job.moves = simple.moves := by
  induction simple generalizing w w' job with
  | command utility flags operands =>
    obtain ⟨w₁, w₂, -, h⟩ := on_bind_eq_ok.1 h
    obtain ⟨invocation, w₃, hcheck, h⟩ := on_bind_eq_ok.1 h
    rw [on_ofChecked] at hcheck
    cases h
    exact ⟨trivial, rfl, Invocation.moves_of_check (congrArg Prod.fst hcheck)⟩
  | redirect source sink child ih =>
    obtain ⟨opened, w₁, -, h⟩ := on_bind_eq_ok.1 h
    obtain ⟨file, w₂, hsink, h⟩ := on_bind_eq_ok.1 h
    obtain ⟨inner, w₃, hchild, h⟩ := on_bind_eq_ok.1 h
    cases h
    obtain ⟨hfresh, hwrites, hmoves⟩ := ih hchild
    refine ⟨⟨rfl, rfl, hfresh⟩, ?_, hmoves⟩
    rw [Job.writes, writes, hwrites, Sink.isSome_of_open? hsink]

end Simple

/-! ## Plans -/

namespace Plan

def writes : Plan κ → Bool
  | simple command => command.writes
  | tolerant child => child.writes
  | pipe left right => left.writes || right.writes
  | seq left right => left.writes || right.writes
  | forward _ _ => false

def moves : Plan Utility → Bool
  | simple command => command.moves
  | tolerant child => child.moves
  | pipe left right => left.moves || right.moves
  | seq left right => left.moves || right.moves
  | forward _ _ => false

@[simp] theorem connect_both (plan : Plan κ) : plan.connect .both = pure () := by
  cases plan <;> rfl

@[simp] theorem build_both (plan : Plan Utility) : plan.build .both = plan.assemble .both := by
  unfold build
  rw [connect_both, pure_bind]

theorem assemble_pipe (left right : Plan Utility) :
    (pipe left right).assemble .both = do
      return .pipe (← left.assemble .both) (← right.assemble .both) .empty := by
  change (left.connect .both >>= fun _ => right.connect .both >>= fun _ => _) = _
  rw [connect_both, pure_bind, connect_both, pure_bind]

theorem assemble_seq (left right : Plan Utility) :
    (seq left right).assemble .both = do
      return .seq (← left.assemble .both) (← right.assemble .both) .empty := by
  change (left.connect .both >>= fun _ => right.connect .both >>= fun _ => _) = _
  rw [connect_both, pure_bind, connect_both, pure_bind]
  rfl

theorem still_assemble {plan : Plan Utility} (h : plan.writes = false) :
    (plan.assemble .both).Still := by
  induction plan with
  | simple command => exact Simple.still_assemble h
  | tolerant child ih =>
    unfold assemble
    rw [connect_both]
    refine (still_pure ()).bind fun _ => Still.tryCatch ?_ fun failure => ?_
    · exact (ih h).bind fun job => still_pure _
    · cases failure with
      | complaint cause => exact still_pure _
      | crash cause => exact still_throw _
  | pipe left right ihl ihr | seq left right ihl ihr =>
    obtain ⟨hl, hr⟩ := Bool.or_eq_false_iff.1 h
    simp only [assemble_pipe, assemble_seq]
    exact (ihl hl).bind fun _ => (ihr hr).bind fun _ => still_pure _
  | forward text status => exact still_pure _

theorem assemble_ok {plan : Plan Utility} {w w' : World} {job : Job}
    (h : (plan.assemble .both).on w = (.ok job, w')) :
    job.Fresh ∧ (plan.writes = false → job.writes = false) ∧
      (plan.moves = false → job.moves = false) := by
  induction plan generalizing w w' job with
  | simple command =>
    obtain ⟨hfresh, hwrites, hmoves⟩ := Simple.assemble_ok h
    exact ⟨hfresh, hwrites.trans, hmoves.trans⟩
  | tolerant child ih =>
    obtain ⟨-, w₁, -, h⟩ := on_bind_eq_ok.1 h
    rw [on_tryCatch, on_bind] at h
    rcases hchild : (child.assemble .both).on w₁ with ⟨(cause | cause) | inner, w₂⟩
    · rw [hchild] at h
      cases h
      exact ⟨trivial, fun _ => rfl, fun _ => rfl⟩
    · rw [hchild] at h
      cases h
    · rw [hchild] at h
      obtain ⟨hfresh, hwrites, hmoves⟩ := ih hchild
      cases h
      exact ⟨hfresh, hwrites, hmoves⟩
  | pipe left right ihl ihr | seq left right ihl ihr =>
    simp only [assemble_pipe, assemble_seq] at h
    obtain ⟨first, w₁, hfirst, h⟩ := on_bind_eq_ok.1 h
    obtain ⟨second, w₂, hsecond, h⟩ := on_bind_eq_ok.1 h
    cases h
    obtain ⟨hfl, hwl, hml⟩ := ihl hfirst
    obtain ⟨hfr, hwr, hmr⟩ := ihr hsecond
    refine ⟨⟨hfl, hfr, rfl⟩, fun h => ?_, fun h => ?_⟩
    · obtain ⟨h₁, h₂⟩ := Bool.or_eq_false_iff.1 h
      exact Bool.or_eq_false_iff.2 ⟨hwl h₁, hwr h₂⟩
    · obtain ⟨h₁, h₂⟩ := Bool.or_eq_false_iff.1 h
      exact Bool.or_eq_false_iff.2 ⟨hml h₁, hmr h₂⟩
  | forward text status =>
    cases h
    exact ⟨trivial, fun _ => rfl, fun _ => rfl⟩

end Plan

end CommandShell

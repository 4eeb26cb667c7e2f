import CommandShell.Proofs.Session.Complaints
import CommandShell.Proofs.Session.Survival

/-!
# What baffles the shell

A complaint that comes up while a line is evaluated is about what the user has asked for: a line
that cannot be read, a command, a redirect, or the wish to leave. The other complaints blame the
shell itself. In a world where no call is bound to fail they come up in three ways only, and a
command line that was begun accounts for each: a word still holds a substitution, a command does not
expect the flag for help, or a `cd` is led astray by those before it.
-/

namespace CommandShell

open Shell

theorem Plan.on_outputWith_eq_effect (plan : Plan Utility) {input : Stream}
    (hinput : input.isOpen = true) (w : World) :
    (plan.build .both >>= fun job => job.outputWith input).on w =
      ((plan.effect ⟨w, input, .empty⟩).result.map fun _ =>
        (plan.effect ⟨w, input, .empty⟩).scene.output.held,
        (plan.effect ⟨w, input, .empty⟩).world) := by
  have hconnected := Job.isConnected_of_isOpen hinput
  rw [build_both, on_bind]
  rcases hassemble : (plan.assemble .both).on w with ⟨failure | job, w₁⟩
  · rw [effect_of_error hconnected rfl hassemble]
    rfl
  · obtain ⟨result, job', w', input', added, hruns⟩ := (assemble_ok hassemble).1.appends w₁ input
    have hheld : (Stream.empty.pour added).held = added :=
      congrArg Stream.held (Stream.pour_ended [] added)
    rw [effect_of_runs hconnected rfl hassemble hruns]
    dsimp only
    rw [hheld]
    exact Job.on_outputWith_of_runs hruns hinput

namespace Line

/-- The complaints that come up while a command line is planned, built and run. -/
inductive Raises (w : World) (given : Plan Utility → Stream) (line : Text) : Complaint → Prop
  | planning {cause : Complaint} : plan utilities w line = .error (.complaint cause) →
      Raises w given line cause
  | running {p : Plan Utility} {cause : Complaint} : plan utilities w line = .ok p →
      p.Raises ⟨w, given p, .empty⟩ cause → Raises w given line cause

/-- That a command line can bring up a complaint that the user has not asked for. -/
inductive Baffles (w : World) (line : Text) : Complaint → Prop
  /-- a word still holds a substitution -/
  | unsettled : Unsettled line → Baffles w line .substitutionLeft
  /-- a command does not expect the flag for help -/
  | help {p : Plan Utility} {simple : Simple Utility} {cause : Complaint} :
      plan utilities w line = .ok p → simple ∈ p.commands →
      simple.kind.Mistakes simple.flags cause → Baffles w line cause
  /-- a `cd` is led astray by those before it -/
  | astray {p : Plan Utility} {path : Text} {errno : Errno} : plan utilities w line = .ok p →
      w.isDir path = true → w.Misses path p.destinations →
      Baffles w line (.cdFailed ⟨errno, some path⟩)

theorem on_outputOn_of_error {line : Text} {w : World} {failure : Failure}
    (h : plan utilities w line = .error failure) (input : Plan Utility → Stream) :
    (outputOn input line).on w = (.error failure, w) := by
  unfold outputOn
  rw [on_bind, on_get]
  dsimp only
  rw [on_bind, on_ofChecked, h]

section Running

variable {w : World} {given : Plan Utility → Stream} {line : Text} {cause : Complaint}
  (hgiven : ∀ p, (given p).isOpen = true)
include hgiven

theorem faults_outputOn : ((outputOn given line).on w).2.faults = w.faults := by
  rcases hplan : plan utilities w line with failure | p
  · rw [on_outputOn_of_error hplan]
  · rw [on_outputOn_of_plan hplan, p.on_outputWith_eq_effect (hgiven p)]
    have hspares := p.effect_spares ⟨w, given p, .empty⟩
    exact (hspares _ (List.mem_cons_of_mem _ List.mem_cons_self)).1.faults

theorem raises_of_outputOn (h : ((outputOn given line).on w).1 = .error (.complaint cause)) :
    Raises w given line cause := by
  rcases hplan : plan utilities w line with failure | p
  · rw [on_outputOn_of_error hplan] at h
    cases h
    exact .planning hplan
  · rw [on_outputOn_of_plan hplan, p.on_outputWith_eq_effect (hgiven p)] at h
    have hresult : (p.effect ⟨w, given p, .empty⟩).result = .error (.complaint cause) := by
      cases hresult : (p.effect ⟨w, given p, .empty⟩).result <;> rw [hresult] at h <;> cases h
      rfl
    have hconnected := Job.isConnected_of_isOpen (hgiven p)
    exact .running hplan (@Plan.raises_of_effect p w (given p) [] cause hconnected hresult)

theorem Raises.usual_or_baffles (h : Raises w given line cause) (hfaults : w.faults = []) :
    cause.isUsual = true ∨ Baffles w line cause := by
  have hends := ends_plan w line
  cases h with
  | planning hplan =>
    rw [hplan] at hends
    refine hends.imp_right ?_
    rintro ⟨rfl, hunsettled⟩
    exact .unsettled hunsettled
  | @running p _ hplan h =>
    rw [hplan] at hends
    refine (@Plan.Raises.cases p w (given p) [] cause h hends hfaults (hgiven p)).imp_right ?_
    rintro (⟨simple, hsimple, hmistakes⟩ | ⟨path, errno, rfl, hdir, hmisses⟩)
    · exact .help hplan hsimple hmistakes
    · exact .astray hplan hdir hmisses

end Running

section Pieces

variable {run : Text → Shell Text} {pieces : List Piece} {w w' : World}

theorem Starts.faults_eq {line : Text} (h : Starts run pieces w line w')
    (hrun : ∀ line v, ((run line).on v).2.faults = v.faults) : w'.faults = w.faults := by
  induction h with
  | here => rfl
  | plain _ ih | void _ ih => exact ih
  | @after _ first _ _ _ w _ _ hran _ ih =>
    have hfirst := hrun first w
    rw [hran] at hfirst
    exact ih.trans hfirst

theorem Replaces.faults_eq {result : Except Failure Text} (h : Replaces run pieces w result w')
    (hrun : ∀ line v, ((run line).on v).2.faults = v.faults) : w'.faults = w.faults := by
  induction h with
  | done w => rfl
  | plain _ ih | void _ ih => exact ih
  | @ran _ line _ _ w _ _ _ hran _ ih =>
    have hfirst := hrun line w
    rw [hran] at hfirst
    exact ih.trans hfirst
  | @failed _ line _ w _ _ hran =>
    have hfirst := hrun line w
    rw [hran] at hfirst
    exact hfirst

theorem Replaces.exists_starts {failure : Failure}
    (h : Replaces run pieces w (.error failure) w') :
    ∃ line v, Starts run pieces w line v ∧ ((run line).on v).1 = .error failure := by
  generalize hresult : Except.error failure = result at h
  induction h with
  | done w => cases hresult
  | @plain _ _ _ _ result _ ih =>
    cases result <;> cases hresult
    obtain ⟨line, v, hstarts, hline⟩ := ih rfl
    exact ⟨line, v, hstarts.plain, hline⟩
  | void _ ih =>
    obtain ⟨line, v, hstarts, hline⟩ := ih hresult
    exact ⟨line, v, hstarts.void, hline⟩
  | @ran _ _ _ _ _ _ _ result hran _ ih =>
    cases result <;> cases hresult
    obtain ⟨line, v, hstarts, hline⟩ := ih rfl
    exact ⟨line, v, .after hran hstarts, hline⟩
  | failed hran =>
    cases hresult
    exact ⟨_, _, .here, congrArg Prod.fst hran⟩

end Pieces

end Line

namespace Evaluation

open Line

/-- The complaints that come up while a line is evaluated. -/
inductive Raises (line input : Text) (w : World) : Complaint → Prop
  | unread : Script.ofLine? line = none → Raises line input w .badLine
  | begun {inner : Text} {v : World} {given : Plan Utility → Stream} {cause : Complaint} :
      Begins line input w inner v given → Line.Raises v given inner cause →
      Raises line input w cause

variable {line input inner : Text} {w v : World} {given : Plan Utility → Stream} {cause : Complaint}

theorem isOpen_usualInput (p : Plan Utility) : p.usualInput.isOpen = true := by
  cases p <;> rfl

theorem Begins.isOpen (h : Begins line input w inner v given) (p : Plan Utility) :
    (given p).isOpen = true := by
  cases h with
  | substitution => exact isOpen_usualInput p
  | whole => rfl

theorem Begins.faults_eq (h : Begins line input w inner v given) : v.faults = w.faults := by
  cases h with
  | substitution _ hstarts =>
    exact hstarts.faults_eq fun line v => faults_outputOn isOpen_usualInput
  | whole hsubstituted =>
    cases hread : Script.ofLine? line with
    | none =>
      unfold substituted at hsubstituted
      rw [Script.ofLine, hread] at hsubstituted
      cases hsubstituted
    | some script =>
      rw [on_substituted hread, on_replaceAll_iff] at hsubstituted
      exact hsubstituted.faults_eq fun line v => faults_outputOn isOpen_usualInput

private theorem raises_of_outputOf
    (h : ((outputOf line input).on w).1 = .error (.complaint cause)) :
    Raises line input w cause := by
  rw [outputOf_eq, on_bind] at h
  rcases hon : (substituted line).on w with ⟨failure | inner, v⟩ <;> rw [hon] at h
  · cases h
    cases hread : Script.ofLine? line with
    | none =>
      unfold substituted at hon
      rw [Script.ofLine, hread] at hon
      cases hon
      exact .unread hread
    | some script =>
      rw [on_substituted hread, on_replaceAll_iff] at hon
      obtain ⟨inner, v, hstarts, hline⟩ := hon.exists_starts
      have hbegins : Begins line input w inner v Plan.usualInput := .substitution hread hstarts
      exact .begun hbegins (raises_of_outputOn isOpen_usualInput hline)
  · have hbegins : Begins line input w inner v fun _ => .ofText input := .whole hon
    exact .begun hbegins (raises_of_outputOn hbegins.isOpen h)

/-- Where no call is bound to fail, all that comes up while a line is evaluated, and so what it ends
with, is about what the user has asked for, or a command line that was begun baffles the shell. -/
theorem raises_usual_or_baffles (line input : Text) (w : World) (hfaults : w.faults = []) :
    (∀ cause, ((outputOf line input).on w).1 = .error (.complaint cause) →
      Raises line input w cause) ∧
    ∀ cause, Raises line input w cause →
      cause.isUsual = true ∨
        ∃ inner v given, Begins line input w inner v given ∧ Baffles v inner cause := by
  refine ⟨fun cause => raises_of_outputOf, fun cause h => ?_⟩
  cases h with
  | unread => exact .inl rfl
  | @begun inner v given _ hbegins h =>
      refine (h.usual_or_baffles hbegins.isOpen (hbegins.faults_eq.trans hfaults)).imp_right ?_
      exact fun hbaffles => ⟨inner, v, given, hbegins, hbaffles⟩

def hallWorld : World := ⟨.dir [(['d'], .dir [])], [], []⟩

def going : Command :=
  .mk .done (.chars "cd".toList) (.modifier [' '] (.arg (.chars ['d'])) .done)

theorem plan_going : going.plan utilities hallWorld = .ok (.simple (.command .cd [] [['d']])) := by
  rw [going, Command.plan_utility .cd rfl]
  cbv

private theorem outputOf_going_twice : ((outputOf "cd d ; cd d".toList []).on hallWorld).1 =
    .error (.complaint (.cdFailed ⟨.noEntry, some ['d']⟩)) := by
  have hread : Script.ofLine? "cd d ; cd d".toList =
      some ⟨some (.sequence (.commands going (some [' ']) (some [' ']) going)), []⟩ := by
    decide +kernel
  have hplan := on_planOf_of_script (by decide) (by decide) hread
    (Sequence.plan_commands (some [' ']) (some [' ']) plan_going plan_going)
  unfold outputOf
  rw [on_bind, hplan]
  cbv

/-- Where the first `cd` leads there is no directory for the second. -/
theorem raises_usual_or_baffles_cd : hallWorld.faults = [] ∧
    ∃ inner v given, Begins "cd d ; cd d".toList [] hallWorld inner v given ∧
      Baffles v inner (.cdFailed ⟨.noEntry, some ['d']⟩) := by
  obtain ⟨hraises, hcases⟩ := raises_usual_or_baffles "cd d ; cd d".toList [] hallWorld rfl
  exact ⟨rfl, (hcases _ (hraises _ outputOf_going_twice)).resolve_left (by decide)⟩

def helping : Command :=
  .mk .done (.chars "head".toList) (.modifier [' '] (.flag (.chars ['h'])) .done)

private theorem plan_helping : helping.plan utilities bareWorld = .ok (.simple
    (.command .head [⟨['h'], .bool true, "Displays this help text".toList⟩] [])) := by
  rw [helping, Command.plan_utility .head rfl]
  cbv

/-- The flag for help is one that every command declares, and `head` does not expect it. -/
theorem evaluate_head_help : bareWorld.faults = [] ∧
    (Complaint.headUnknownFlag ['h']).isUsual = false ∧
    evaluate "head -h".toList [] bareWorld =
      (⟨[], reportLine (.headUnknownFlag ['h']), none⟩, bareWorld) := by
  have hread : Script.ofLine? "head -h".toList = some ⟨some (.command helping), []⟩ := by
    decide +kernel
  have hplan := on_planOf_of_script (by decide) (by decide) hread plan_helping
  have houtput : (outputOf "head -h".toList []).on bareWorld =
      (.error (.complaint (.headUnknownFlag ['h'])), bareWorld) := by
    unfold outputOf
    rw [on_bind, hplan]
    rfl
  exact ⟨rfl, rfl, congrArg (fun outcome => (ofResult outcome.1, outcome.2)) houtput⟩

end Evaluation

end CommandShell

import CommandShell.Proofs.Plan.Origins
import CommandShell.Proofs.Substitution.Outermost

/-!
# What a line survives

Evaluating a line means to run its substitutions one after the other, and then the line that they
leave. Each of these command lines can provoke a crash: a name is empty, a path has a NUL
character, the arguments of a command bring it about, a sequence listens to an input that cannot be
read, or two redirects write over each other. In a world in order nothing else that is modelled
makes the shell crash; left out are a bound on how deeply lines, jobs and trees may be nested, and
what a file of more than 8192 bytes shows before it is closed.
-/

namespace CommandShell

namespace Line

open Shell

/-- That a command line can make the shell crash, if it is run in a world and its plan is given an
input. -/
inductive Provokes (w : World) (given : Plan Utility → Stream) (line : Text) : Crash → Prop
  /-- a command has an empty name -/
  | nameless : Nameless line → Provokes w given line .emptyName
  | nul : '\x00' ∈ line → Provokes w given line .nulInPath
  /-- the arguments of a command bring it about -/
  | arguments {p : Plan Utility} {simple : Simple Utility} {cause : Crash} :
      plan utilities w line = .ok p → simple ∈ p.commands →
      simple.kind.Trips simple.flags simple.operands cause → Provokes w given line cause
  /-- what comes first looks at an input that cannot be read -/
  | listening {p : Plan Utility} : plan utilities w line = .ok p → p.listens = true →
      given p = .bare false → Provokes w given line .unsupported
  /-- two redirects write to one file -/
  | overwriting {p : Plan Utility} : plan utilities w line = .ok p → ¬ (p.targets w).Nodup →
      Provokes w given line .notUtf8

section Outputs

variable {textual : Prop} {P : Crash → Prop} {w : World}

/-- A command line crashes only as it provokes, or because a file does not hold text. -/
theorem survives_outputOn (hspoilt : ¬ textual → P .notUtf8) (hw : w.InOrder textual) {line : Text}
    {given : Plan Utility → Stream}
    (hgiven : ∀ p, given p = .bare false ∨ ∃ text, given p = .ofText text)
    (hP : ∀ cause, Provokes w given line cause → P cause)
    (htextual : textual → ¬ Provokes w given line .notUtf8) :
    Survives textual P ((outputOn given line).on w) := by
  have hplan := within_plan hw (fun h => hP _ (.nul h)) fun h => hP _ (.nameless h)
  unfold outputOn
  rw [on_bind, on_get]
  dsimp only
  rw [on_bind, on_ofChecked]
  rcases hp : plan utilities w line with (cause | cause) | p <;> rw [hp] at hplan
  · exact ⟨trivial, hw⟩
  · exact ⟨hplan, hw⟩
  · refine Plan.survives hspoilt (fun simple hsimple => ⟨hplan simple hsimple, ?_⟩) hw ?_ ?_
    · exact fun cause htrips => hP cause (.arguments hp hsimple htrips)
    · intro ht
      by_contra hsame
      exact htextual ht (.overwriting hp hsame)
    · rcases hgiven p with hbare | ⟨text, htext⟩
      · rw [hbare]
        cases hlistens : p.listens with
        | false => exact .inr ⟨rfl, rfl⟩
        | true => exact .inl ⟨rfl, hP _ (.listening hp hlistens hbare)⟩
      · rw [htext]
        exact .inl rfl

theorem Replaces.survives {run : Text → Shell Text} {pieces : List Piece} {w' : World}
    {result : Except Failure Text} (h : Replaces run pieces w result w') (hw : w.InOrder textual)
    (hrun : ∀ line v, Starts run pieces w line v → v.InOrder textual →
      Survives textual P ((run line).on v)) :
    Survives textual P (result, w') := by
  induction h with
  | done w => exact ⟨trivial, hw⟩
  | plain _ ih =>
    obtain ⟨hresult, hworld⟩ := ih hw fun line v hstarts => hrun line v hstarts.plain
    exact ⟨hresult.map, hworld⟩
  | void _ ih => exact ih hw fun line v hstarts => hrun line v hstarts.void
  | ran hran _ ih =>
    have hfirst := hrun _ _ .here hw
    rw [hran] at hfirst
    obtain ⟨hresult, hworld⟩ := ih hfirst.2 fun line v hstarts => hrun line v (.after hran hstarts)
    exact ⟨hresult.map, hworld⟩
  | failed hran =>
    have hfirst := hrun _ _ .here hw
    rw [hran] at hfirst
    exact ⟨hfirst.1.mono fun _ _ => trivial, hfirst.2⟩

end Outputs

end Line

namespace Evaluation

open Line Shell

/-- The command lines that are run when a line is evaluated, each with the world that it starts in
and the input that its plan is given: the substitutions that are reached, and then the line that
they leave. -/
inductive Begins (line input : Text) (w : World) :
    Text → World → (Plan Utility → Stream) → Prop
  | substitution {script : Script} {inner : Text} {v : World} :
      Script.ofLine? line = some script →
      Starts (outputOn Plan.usualInput) script.tree.pieces w inner v →
      Begins line input w inner v Plan.usualInput
  | whole {inner : Text} {v : World} : (substituted line).on w = (.ok inner, v) →
      Begins line input w inner v fun _ => .ofText input

theorem outputOf_eq (line input : Text) :
    outputOf line input = substituted line >>= outputOn fun _ => .ofText input := by
  simp only [outputOf, planOf, bind_assoc]
  rfl

private theorem survives_outputOf {textual : Prop} {P : Crash → Prop} {line input : Text}
    {w : World} (hw : w.InOrder textual) (hspoilt : ¬ textual → P .notUtf8)
    (hP : ∀ inner v given, Begins line input w inner v given →
      ∀ cause, Provokes v given inner cause → P cause)
    (htextual : textual → ∀ inner v given, Begins line input w inner v given →
      ¬ Provokes v given inner .notUtf8) :
    Survives textual P ((outputOf line input).on w) := by
  have hsubstituted : Survives textual P ((substituted line).on w) := by
    cases hread : Script.ofLine? line with
    | none =>
      unfold substituted
      rw [Script.ofLine, hread]
      exact ⟨trivial, hw⟩
    | some script =>
      obtain ⟨result, w', hreplaces⟩ :=
        exists_replaces (outputOn Plan.usualInput) script.tree.pieces w
      rw [on_substituted hread, hreplaces.on_replaceAll]
      refine hreplaces.survives hw fun inner v hstarts hv => ?_
      have hbegins : Begins line input w inner v Plan.usualInput := .substitution hread hstarts
      refine survives_outputOn hspoilt hv (fun p => ?_) (hP _ _ _ hbegins)
        fun ht => htextual ht _ _ _ hbegins
      cases p with
      | seq left right => exact .inl rfl
      | _ => exact .inr ⟨[], rfl⟩
  rw [outputOf_eq, on_bind]
  rcases hon : (substituted line).on w with ⟨(cause | cause) | inner, v⟩ <;>
    rw [hon] at hsubstituted
  · exact ⟨trivial, hsubstituted.2⟩
  · exact ⟨hsubstituted.1, hsubstituted.2⟩
  · have hbegins : Begins line input w inner v fun _ => .ofText input := .whole hon
    exact survives_outputOn hspoilt hsubstituted.2 (fun _ => .inr ⟨input, rfl⟩) (hP _ _ _ hbegins)
      fun ht => htextual ht _ _ _ hbegins

/-- In a world in order a line is evaluated, or one complaint is reported, or the user wants to
leave, or the shell crashes and a command line that was begun has provoked it. The world stays in
order unless redirects have written over each other. -/
theorem evaluate_survives (line input : Text) (w : World) (hw : w.InOrder True) :
    ((∃ output, (evaluate line input w).1 = ⟨output, [], none⟩) ∨
      (∃ cause, (evaluate line input w).1 = ⟨[], reportLine cause, none⟩) ∨
      (evaluate line input w).1 = ⟨[], [], some (.complaint .exit)⟩ ∨
      ∃ cause, (evaluate line input w).1 = ⟨[], [], some (.crash cause)⟩ ∧
        ∃ inner v given, Begins line input w inner v given ∧ Provokes v given inner cause) ∧
    ((∀ inner v given, Begins line input w inner v given → ¬ Provokes v given inner .notUtf8) →
      (evaluate line input w).2.InOrder True) := by
  -- Crashing over a file that is no text is allowed as soon as a line that was begun provokes it,
  -- so up to then all files may be taken to hold text.
  have hsurvives : Survives
      (∀ inner v given, Begins line input w inner v given → ¬ Provokes v given inner .notUtf8)
      (fun cause => ∃ inner v given, Begins line input w inner v given ∧
        Provokes v given inner cause)
      ((outputOf line input).on w) := by
    refine survives_outputOf ⟨hw.faultless, hw.names, hw.cwd, fun _ => hw.holdsText trivial⟩ ?_ ?_ id
    · exact fun hspoilt => by simpa using hspoilt
    · exact fun inner v given hbegins cause hprovokes => ⟨inner, v, given, hbegins, hprovokes⟩
  obtain ⟨hresult, hworld⟩ := hsurvives
  have hevaluate : evaluate line input w =
      (ofResult ((outputOf line input).on w).1, ((outputOf line input).on w).2) := rfl
  rw [hevaluate]
  refine ⟨?_, fun htextual => ?_⟩
  · rcases hon : ((outputOf line input).on w).1 with (cause | cause) | output <;>
      rw [hon] at hresult
    · cases cause with
      | exit => exact .inr (.inr (.inl rfl))
      | _ => exact .inr (.inl ⟨_, rfl⟩)
    · exact .inr (.inr (.inr ⟨cause, rfl, hresult⟩))
    · exact .inl ⟨output, rfl⟩
  · exact ⟨hworld.faultless, hworld.names, hworld.cwd, fun _ => hworld.holdsText htextual⟩

theorem inOrder_bareWorld : bareWorld.InOrder True where
  faultless := rfl
  names := by
    intro place node h
    cases place with
    | nil => exact fun _ hname => nomatch hname
    | cons name place => cases h
  cwd := fun _ hname => nomatch hname
  holdsText := by
    intro _ place
    cases place <;> rfl

theorem inOrder_filedWorld : filedWorld.InOrder True := by
  have hplace : NulFree [['f']] := by simp [NulFree]
  exact inOrder_bareWorld.withFile hplace fun _ => World.text?_ofText "hi\n".toList

private theorem plan_searching : plan utilities filedWorld "grep".toList =
    .ok (.simple (.command .grep [] [])) := by
  have hread : Script.ofLine? "grep".toList =
      some ⟨some (.command (.mk .done (.chars "grep".toList) .done)), []⟩ := by decide +kernel
  rw [plan_of_command _ _ hread, Command.plan_utility .grep rfl]
  rfl

theorem evaluate_searching :
    (evaluate "echo \x60grep\x60".toList [] filedWorld).1 = ⟨[], [], some (.crash .noOperand)⟩ := by
  have hread : ∃ script, Script.ofLine? "echo \x60grep\x60".toList = some script ∧
      script.tree.pieces = [.plain "echo".toList, .plain [' '],
        .substitution "\x60grep\x60".toList (some "grep".toList)] :=
    Option.map_eq_some_iff.mp (by decide +kernel)
  obtain ⟨script, hread, hpieces⟩ := hread
  have hrun : (outputOn Plan.usualInput "grep".toList).on filedWorld =
      (.error (.crash .noOperand), filedWorld) := by
    rw [on_outputOn_of_plan plan_searching]
    rfl
  have hsubstituted : (substituted "echo \x60grep\x60".toList).on filedWorld =
      (.error (.crash .noOperand), filedWorld) := by
    rw [on_substituted hread, hpieces, on_replaceAll_iff]
    exact .plain (.plain (.failed hrun))
  have houtput : (outputOf "echo \x60grep\x60".toList []).on filedWorld =
      (.error (.crash .noOperand), filedWorld) := by
    rw [outputOf_eq, on_bind, hsubstituted]
  exact congrArg (fun outcome => ofResult outcome.1) houtput

/-- A `grep` without operands in a substitution crashes, and is what has provoked it. -/
theorem evaluate_survives_grep : filedWorld.InOrder True ∧
    ∃ inner v given, Begins "echo \x60grep\x60".toList [] filedWorld inner v given ∧
      Provokes v given inner .noOperand := by
  refine ⟨inOrder_filedWorld, ?_⟩
  obtain ⟨⟨output, h⟩ | ⟨cause, h⟩ | h | ⟨cause, h, hprovokes⟩, -⟩ :=
    evaluate_survives "echo \x60grep\x60".toList [] filedWorld inOrder_filedWorld
  · cases congrArg failure (evaluate_searching.symm.trans h)
  · cases congrArg failure (evaluate_searching.symm.trans h)
  · cases evaluate_searching.symm.trans h
  · cases evaluate_searching.symm.trans h
    exact hprovokes

/-- A command with an empty name is not reported as unknown. -/
theorem evaluate_nameless : bareWorld.InOrder True ∧
    evaluate "\"\"".toList [] bareWorld = (⟨[], [], some (.crash .emptyName)⟩, bareWorld) :=
  ⟨inOrder_bareWorld, by cbv⟩

end Evaluation

end CommandShell

import CommandShell.Proofs.Files.Worlds
import CommandShell.Proofs.Session.Listening

/-!
# How commands crash

A command that runs in a world in order, on an input that is open, crashes for few reasons: a path
has a NUL character, a file does not hold text, an input cannot be read, and what its own arguments
bring about. What is allowed to happen is a predicate on crashes, so that each command is gone
through once.
-/

namespace CommandShell

/-! ## Allowed outcomes -/

/-- A result that is as it should be, or a failure that is allowed. -/
def Checked.Ends {α : Type} (x : Checked α) (F : Failure → Prop) (Q : α → Prop) : Prop :=
  match x with
  | .ok a => Q a
  | .error failure => F failure

/-- A result that is as it should be, a complaint, or a crash that is allowed. -/
def Checked.Within {α : Type} (x : Checked α) (P : Crash → Prop) (Q : α → Prop) : Prop :=
  match x with
  | .ok a => Q a
  | .error (.complaint _) => True
  | .error (.crash cause) => P cause

/-- A complaint, or a crash that is allowed. -/
def Failure.Crashes (P : Crash → Prop) : Failure → Prop
  | complaint _ => True
  | crash cause => P cause

namespace Checked

variable {α β : Type} {F : Failure → Prop} {P : Crash → Prop} {Q : α → Prop} {R : β → Prop}

theorem Ends.bind {x : Checked α} {f : α → Checked β} (h : x.Ends F Q)
    (hf : ∀ a, Q a → (f a).Ends F R) : (x >>= f).Ends F R := by
  cases x with
  | error failure => exact h
  | ok a => exact hf a h

theorem Ends.map {x : Checked α} {f : α → β} (h : x.Ends F fun a => R (f a)) :
    (f <$> x).Ends F R := by
  cases x with
  | error failure => exact h
  | ok a => exact h

theorem ends_foldlM {f : β → α → Checked β} {xs : List α} {b : β} (hb : R b)
    (hf : ∀ a ∈ xs, ∀ b, R b → (f b a).Ends F R) : (xs.foldlM f b).Ends F R := by
  induction xs generalizing b with
  | nil => exact hb
  | cons a xs ih =>
    rw [List.forall_mem_cons] at hf
    rw [List.foldlM_cons]
    exact (hf.1 b hb).bind fun b hb => ih hb hf.2

theorem within_iff_ends {x : Checked α} : x.Within P Q ↔ x.Ends (Failure.Crashes P) Q := by
  rcases x with (cause | cause) | a <;> rfl

theorem within_iff {x : Checked α} :
    x.Within P Q ↔ (∀ a, x = .ok a → Q a) ∧ ∀ cause, x = .error (.crash cause) → P cause := by
  rcases x with (cause | cause) | a <;> simp [Within]

theorem Within.mono {x : Checked α} (h : x.Within P Q) {R : α → Prop} (hR : ∀ a, Q a → R a) :
    x.Within P R := by
  rcases x with (cause | cause) | a
  · trivial
  · exact h
  · exact hR a h

theorem Within.bind {x : Checked α} {f : α → Checked β} (h : x.Within P Q)
    (hf : ∀ a, Q a → (f a).Within P R) : (x >>= f).Within P R :=
  within_iff_ends.2 ((within_iff_ends.1 h).bind fun a ha => within_iff_ends.1 (hf a ha))

theorem Within.map {x : Checked α} {f : α → β} (h : x.Within P fun a => R (f a)) :
    (f <$> x).Within P R :=
  within_iff_ends.2 (within_iff_ends.1 h).map

theorem within_foldlM {f : β → α → Checked β} {xs : List α} {b : β} (hb : R b)
    (hf : ∀ a ∈ xs, ∀ b, R b → (f b a).Within P R) : (xs.foldlM f b).Within P R :=
  within_iff_ends.2 (ends_foldlM hb fun a ha b hb => within_iff_ends.1 (hf a ha b hb))

end Checked

/-- What a command finds when it runs. -/
structure Scene.Running (textual : Prop) (P : Crash → Prop) (scene : Scene) : Prop where
  world : scene.world.InOrder textual
  input : scene.input.Usable P
  output : ∃ text, scene.output = .ended text

variable {path : Text}

namespace Action

/-- An action that keeps its scene as commands should find it, gives what it should, and crashes
only as is allowed. -/
def Within {α : Type} (action : Action α) (textual : Prop) (P : Crash → Prop) (Q : α → Prop) :
    Prop :=
  ∀ scene, scene.Running textual P →
    Checked.Within (action.on scene).1 P Q ∧ (action.on scene).2.Running textual P

variable {α β : Type} {textual : Prop} {P : Crash → Prop}

theorem Within.bind {action : Action α} {next : α → Action β}
    (h : action.Within textual P fun _ => True)
    (hnext : ∀ a, (next a).Within textual P fun _ => True) :
    (action >>= next).Within textual P fun _ => True := by
  intro scene hscene
  have h := h scene hscene
  rw [on_bind]
  rcases hon : action.on scene with ⟨(cause | cause) | a, after⟩ <;> rw [hon] at h
  · exact ⟨trivial, h.2⟩
  · exact h
  · exact hnext a after h.2

theorem Within.orUnwritable {work : Action Unit} (h : work.Within textual P fun _ => True)
    (refusal : ShowFailure → Complaint) :
    (work.orUnwritable refusal).Within textual P fun _ => True := by
  intro scene hscene
  have h := h scene hscene
  unfold Action.orUnwritable
  rw [on_tryCatch]
  rcases hon : work.on scene with ⟨(cause | cause) | a, after⟩ <;> rw [hon] at h
  · exact ⟨trivial, h.2⟩
  · dsimp only
    split
    · exact ⟨trivial, h.2⟩
    · exact h
  · exact h

private theorem within_onInput {use : Stream → Except Crash (α × Stream)} (h : Stream.Moves use) :
    (onInput use).Within textual P fun _ => True := by
  intro scene hscene
  have hinput := hscene.input
  rw [on_onInput]
  rcases hstream : scene.input with ⟨text, position, closed⟩ | closed | _ <;>
    rw [hstream] at hinput
  · cases hinput
    obtain ⟨a, position', huse⟩ := h.opened text position
    rw [huse]
    exact ⟨trivial, hscene.world, rfl, hscene.output⟩
  · rw [h.unreadable]
    exact ⟨hinput.2, hscene⟩
  · cases hinput

theorem within_onOutput {use : Stream → Except Crash Stream}
    (h : ∀ text, ∃ text', use (.ended text) = .ok (.ended text')) :
    (onOutput use).Within textual P fun _ => True := by
  intro scene hscene
  obtain ⟨text, houtput⟩ := hscene.output
  obtain ⟨text', huse⟩ := h text
  rw [on_onOutput, houtput, huse]
  exact ⟨trivial, hscene.world, hscene.input, text', rfl⟩

theorem Made.within {listens : Prop} {action : Action α}
    (h : Made ⟨listens, World.InOrder textual, P⟩ action) :
    action.Within textual P fun _ => True := by
  induction h with
  | result _ | complain _ => exact fun _ hscene => ⟨trivial, hscene⟩
  | crash allowed => exact fun _ hscene => ⟨allowed, hscene⟩
  | reading _ ih => exact fun scene hscene => ih scene.world hscene.world scene hscene
  | write s => exact within_onOutput fun text => ⟨_, Stream.write_ended text s⟩
  | writeAll texts => exact within_onOutput fun text => ⟨_, Stream.writeAll_ended text texts⟩
  | @look _ _ look allowed =>
    intro scene hscene
    rw [on_ofInput]
    cases hlook : look scene.input with
    | error cause => exact ⟨allowed _ hscene.input cause hlook, hscene⟩
    | ok a => exact ⟨trivial, hscene⟩
  | use _ moves => exact within_onInput moves
  | skip _ count =>
    intro scene hscene
    rw [on_modify]
    refine ⟨trivial, hscene.world, ?_, hscene.output⟩
    have hinput := hscene.input
    cases hstream : scene.input <;> rw [hstream] at hinput <;> exact hinput
  | andThen _ _ ih ihnext => exact ih.bind ihnext
  | orUnwritable _ _ ih => exact ih.orUnwritable _

end Action

/-! ## Commands -/

open CommandShell.Action

section Commands

variable {textual : Prop} {P : Crash → Prop}

theorem Cd.within_run {cd : Cd} (hnul : '\x00' ∈ cd.path → P .nulInPath) :
    cd.run.Within textual P fun _ => True := by
  intro scene hscene
  rw [on_run]
  rcases henter : scene.world.enter cd.path with (error | _) | w'
  · exact ⟨trivial, hscene⟩
  · exact ⟨hnul (World.onPath_eq_nul henter), hscene⟩
  · exact ⟨trivial, hscene.world.enter henter, hscene.input, hscene.output⟩

theorem Find.failure_andThen {first : Search} {second : Unit → Search} {failure : CallFailure}
    (h : (first.andThen second).failure = some failure) :
    first.failure = some failure ∨ (second ()).failure = some failure := by
  unfold Search.andThen at h
  split at h
  · exact .inl h
  · exact .inr h

mutual

/-- A search goes only into directories, and these have no NUL character in their paths. -/
theorem Find.search_nul {w : World} {pattern path : Text} {node : Node}
    (h : (Find.search w pattern path node).failure = some .nul) : '\x00' ∈ path := by
  cases node with
  | file content => cases h
  | dir entries =>
    rw [Find.search] at h
    cases hlist : w.list path with
    | error failure =>
      rw [hlist] at h
      cases h
      exact World.onPath_eq_nul hlist
    | ok names =>
      rw [hlist] at h
      exact (Find.searchEntries_nul h).elim

theorem Find.searchEntries_nul {w : World} {pattern path : Text} {entries : List (Text × Node)}
    (h : (Find.searchEntries w pattern path entries).failure = some .nul) : False := by
  cases entries with
  | nil => cases h
  | cons entry entries =>
    obtain ⟨name, node⟩ := entry
    rw [Find.searchEntries] at h
    dsimp only at h
    rcases Find.failure_andThen h with h | h
    · split at h
      · next hdir =>
          have hnul := Find.search_nul h
          simp [World.isDir, World.find?, hnul] at hdir
      · cases h
    · rcases Find.failure_andThen h with h | h
      · cases h
      · exact Find.searchEntries_nul h

end

theorem Find.results_nul {find : Find} {w : World}
    (h : (find.results w).failure = some .nul) : '\x00' ∈ find.path := by
  change (searchPath w find.pattern find.path).failure = _ at h
  unfold searchPath at h
  split at h
  · next failure hlist =>
      cases h
      exact World.onPath_eq_nul hlist
  · exact search_nul h
  · cases h

private theorem Path.nul_not_mem_ofLocation {place : Location} (h : NulFree place) :
    '\x00' ∉ Path.ofLocation place := by
  cases place with
  | nil => decide
  | cons name place =>
    intro hnul
    obtain ⟨name, hname, hnul⟩ := List.mem_flatMap.mp hnul
    rcases List.mem_cons.mp hnul with hslash | hnul
    · cases hslash
    · exact h name hname hnul

theorem stays_inOrder (listens : Prop) :
    Terms.Stays ⟨listens, World.InOrder textual, P⟩ := by
  have hpath : ∀ {w : World}, w.InOrder textual →
      w.workingDirectory = .ok (Path.ofLocation w.cwd) := fun hw => by
    simp [World.workingDirectory, World.fault?, hw.faultless, pure, Except.pure]
  refine ⟨fun w hw path hdir hnul => ?_, fun w hw error hdir => ?_⟩ <;> rw [hpath hw] at hdir <;>
    cases hdir
  exact (Path.nul_not_mem_ofLocation hw.cwd hnul).elim

def Value.HoldsTexts (value : Value) : Prop :=
  ∀ items, value = .list items → ∃ texts : List Text, items = texts.map .text

end Commands

/-! ## Arguments -/

/-- What makes a command crash by itself, in its flags and operands: `grep` without an expression,
an expression or a replacement that cannot be dealt with, and a `cut` whose flag is no list. -/
inductive Utility.Trips : Utility → List Flag → List Text → Crash → Prop
  | grepOperand {flags : List Flag} : Trips .grep flags [] .noOperand
  | grepPattern {flags : List Flag} {expression : Text} {files : List Text} {cause : Crash} :
      Pattern.ofText expression = .error (.crash cause) →
      Trips .grep flags (expression :: files) cause
  | sedPattern {flags : List Flag} {expression : Text} {files : List Text} {cause : Crash} :
      Sed.ofExpression expression files = .error (.crash cause) →
      Trips .sed flags (expression :: files) cause
  | sedReplacement {flags : List Flag} {expression : Text} {files : List Text} {sed : Sed}
      {cause : Crash} : Sed.ofExpression expression files = .ok sed →
      Regex.Template.ofText sed.pattern sed.replacement = .error cause →
      Trips .sed flags (expression :: files) cause
  | cutRanges {flag : Flag} {files : List Text} : (∀ items, flag.value ≠ .list items) →
      (∀ s, flag.value ≠ .text s) → Trips .cut [flag] files .notIterable

section Checks

variable {textual : Prop} {P : Crash → Prop} {flags : List Flag} {operands : List Text}

theorem Head.within_countFrom (count : Int) (flags : List Flag) :
    (Head.countFrom count flags).Within P fun _ => True := by
  induction flags generalizing count with
  | nil => trivial
  | cons flag flags ih =>
    unfold Head.countFrom
    split
    · split
      · exact ih _
      · trivial
    · trivial

theorem Tail.within_countOf (flags : List Flag) :
    (Tail.countOf flags).Within P fun _ => True := by
  cases flags with
  | nil => trivial
  | cons flag flags =>
    rw [Tail.countOf]
    split_ifs
    · split <;> trivial
    · trivial

theorem Wc.within_checkFlags (flags : List Flag) :
    (Wc.checkFlags flags).Within P fun _ => True := by
  unfold Wc.checkFlags
  split
  · trivial
  · split <;> trivial
  · trivial

theorem Find.within_checkPattern (flags : List Flag) :
    (Find.checkPattern flags).Within P fun _ => True := by
  unfold Find.checkPattern
  split
  · trivial
  · split
    · trivial
    · split <;> trivial
  · trivial

theorem Cd.within_check (w : World) :
    (Cd.check w ⟨some flags, some operands, true⟩).Within P fun cd => cd.path ∈ operands := by
  rcases operands with _ | ⟨path, _ | ⟨_, _⟩⟩
  · trivial
  · rw [check_singleton]
    split_ifs
    · trivial
    · trivial
    · exact List.mem_cons_self
  · trivial

theorem Sorting.within_check : (Sorting.check ⟨some flags, some operands, true⟩).Within P
    fun sort => sort.file? = operands.head? := by
  refine Checked.within_iff.mpr ⟨fun sort => file?_of_check, fun cause h => ?_⟩
  rw [check_eq] at h
  split_ifs at h <;> cases h

theorem Uniq.within_check : (Uniq.check ⟨some flags, some operands, true⟩).Within P
    fun uniq => uniq.file? = operands.head? := by
  refine Checked.within_iff.mpr ⟨fun uniq => file?_of_check, fun cause h => ?_⟩
  rw [check_eq] at h
  split_ifs at h <;> cases h

private theorem World.nul_not_mem_of_has {w : World} (h : w.has path = true) : '\x00' ∉ path := by
  intro hnul
  simp [World.has, World.find?, hnul] at h

private theorem Find.within_checkPath (w : World) (operands : List Text) :
    (Find.checkPath w operands).Within P fun path => '\x00' ∉ path := by
  unfold Find.checkPath
  split
  · exact (by decide : '\x00' ∉ ['.'])
  · split
    · next hpath => exact World.nul_not_mem_of_has hpath
    · trivial
  · trivial

/-- A command that is given flags and operands crashes at once or when it is run only for a reason
in them, or for one of those that every command has. -/
theorem Invocation.within_check (hspoilt : ¬ textual → P .notUtf8) {utility : Utility}
    (hnul : ∀ operand ∈ operands, '\x00' ∈ operand → P .nulInPath)
    (hlists : ∀ flag ∈ flags, flag.value.HoldsTexts)
    (htrips : ∀ cause, utility.Trips flags operands cause → P cause) (w : World) :
    (check utility ⟨some flags, some operands, true⟩ w).Within P fun invocation =>
      invocation.run.Within textual P fun _ => True := by
  let t : Terms := ⟨True, World.InOrder textual, P⟩
  have hopens : ∀ operand ∈ operands, t.Opens operand := fun operand hoperand =>
    ⟨hnul operand hoperand, fun w hw place hnone => hspoilt fun ht => by
      simpa [hnone] using hw.holdsText ht place⟩
  have hhead : ∀ file ∈ operands.head?, t.Opens file := fun file hfile =>
    hopens file (List.mem_of_head? hfile)
  have hlistens {p : Prop} : p → t.listens := fun _ => trivial
  cases utility with
  | cat =>
    refine Checked.Within.map ?_
    cases flags with
    | nil => exact (Cat.made_run (t := t) trivial hopens).within
    | cons flag flags => trivial
  | cd =>
    refine Checked.Within.map ?_
    exact (Cd.within_check w).mono fun cd hpath => Cd.within_run (hnul cd.path hpath)
  | cut =>
    refine Checked.Within.map ?_
    rcases flags with _ | ⟨flag, _ | ⟨_, _⟩⟩
    · trivial
    · exact (Cut.made_run (t := t) hlistens hopens
        (fun items hitems => .inl (hlists flag List.mem_cons_self items hitems))
        fun hlist htext => htrips _ (.cutRanges hlist htext)).within
    · trivial
  | echo => exact (Made.write (t := t) _).within
  | exit => exact (Made.complain (t := t) rfl).within
  | find =>
    refine Checked.Within.map ?_
    exact (Find.within_checkPath w operands).bind fun path hpath =>
      (Find.within_checkPattern flags).bind fun pattern _ =>
        (Find.made_run (t := t) fun w h => absurd (Find.results_nul h) hpath).within
  | grep =>
    refine Checked.Within.map ?_
    cases operands with
    | nil => exact htrips _ .grepOperand
    | cons expression files =>
      dsimp only [Grep.check, Arguments.operands, bind, Except.bind, pure, Except.pure]
      split
      · trivial
      · next cause hpattern => exact htrips _ (.grepPattern hpattern)
      · exact (Grep.made_run hlistens (List.forall_mem_cons.mp hopens).2).within
  | head =>
    refine Checked.Within.map ?_
    exact (Head.within_countFrom usualLineCount flags).bind fun count _ =>
      (made_selected hlistens hopens rfl _).within
  | ls => exact (Ls.made_run (t := t) (stays_inOrder True) hnul).within
  | pwd => exact (Pwd.made_run (t := t)).within
  | sed =>
    refine Checked.Within.map ?_
    cases operands with
    | nil => trivial
    | cons expression files =>
      refine Checked.within_iff.mpr ⟨fun sed hsed => ?_, fun cause hcause => ?_⟩
      · have hfiles := (List.forall_mem_cons.mp hopens).2
        rw [← Sed.files_of_ofExpression hsed] at hfiles
        exact (Sed.made_run hlistens hfiles fun cause hcause =>
          htrips cause (.sedReplacement hsed hcause)).within
      · exact htrips cause (.sedPattern hcause)
  | sort =>
    refine Checked.Within.map ?_
    exact Sorting.within_check.mono fun c hfile =>
      (Sorting.made_run hlistens (hfile ▸ hhead)).within
  | tail =>
    refine Checked.Within.map ?_
    exact (Tail.within_countOf flags).bind fun count _ =>
      (made_selected hlistens hopens rfl _).within
  | uniq =>
    refine Checked.Within.map ?_
    exact Uniq.within_check.mono fun c hfile => (Uniq.made_run hlistens (hfile ▸ hhead)).within
  | wc =>
    refine Checked.Within.map ?_
    exact (Wc.within_checkFlags flags).bind fun measure? _ =>
      (Wc.made_run hlistens hopens).within

end Checks

end CommandShell

import CommandShell.Proofs.Plan.Origins

/-!
# What declarations vouch for

A command is planned only with flags that it declares, each with a value of the type that it
declares. So planning has no complaint about the shell itself, unless a substitution is left in the
line, and the commands have few when they check their arguments: every command declares the flag
for help, and some of them do not expect it.
-/

namespace CommandShell

/-- A crash, or a complaint that is allowed. -/
def Failure.Complains (E : Complaint → Prop) : Failure → Prop
  | complaint cause => E cause
  | crash _ => True

/-! ## Declarations -/

/-- That a flag is declared, and has a value of the type that is declared for it. -/
def Specification.Declares (specification : Specification) (flag : Flag) : Prop :=
  ∃ type, .named flag.name type flag.help ∈ specification.flags ∧ type.accepts flag.value = true

variable {type : ValueType}

private theorem ValueType.accepts_of_read? {s : Text} {value : Value}
    (h : type.read? s = some value) : type.accepts value = true ∧ value ≠ .nothing := by
  cases type with
  | bool | text | texts =>
    cases h
    exact ⟨rfl, nofun⟩
  | int | float =>
    obtain ⟨n, -, rfl⟩ := Option.map_eq_some_iff.1 h
    exact ⟨rfl, nofun⟩
  | ints | floats =>
    obtain ⟨ns, -, hvalue⟩ := Option.bind_eq_some_iff.1 h
    cases hvalue
    exact ⟨rfl, nofun⟩

private theorem FlagSpec.withValue_of_accepts {value : Value} (h : type.accepts value = true)
    (hvalue : value ≠ .nothing) (name help : Text) :
    (named name type help).withValue value = .ok ⟨name, value, help⟩ := by
  cases value with
  | nothing => exact absurd rfl hvalue
  | _ =>
    rw [withValue, if_pos h]
    · rfl
    · exact hvalue

theorem FlagSpec.ofText_cases {specification : Specification} {name help : Text}
    (hmem : .named name type help ∈ specification.flags) (s : Text) :
    (∃ flag, (named name type help).ofText (some s) = .ok flag ∧ specification.Declares flag) ∨
      (named name type help).ofText (some s) = .error (.flagValue name s) := by
  unfold ofText
  dsimp only
  cases hread : type.read? s with
  | none => exact .inr rfl
  | some value =>
    obtain ⟨haccepts, hvalue⟩ := ValueType.accepts_of_read? hread
    exact .inl ⟨_, withValue_of_accepts haccepts hvalue name help, type, hmem, haccepts⟩

@[simp] theorem Simple.kind_addFlag {κ : Type} (flag : Flag) (simple : Simple κ) :
    (simple.addFlag flag).kind = simple.kind := by
  induction simple with
  | command c flags operands => rfl
  | redirect source sink child ih => exact ih

@[simp] theorem Simple.kind_addOperand {κ : Type} (operand : Text) (simple : Simple κ) :
    (simple.addOperand operand).kind = simple.kind := by
  induction simple with
  | command c flags operands => rfl
  | redirect source sink child ih => exact ih

def Plan.Declared {κ : Type} (catalog : Line.Catalog κ) (plan : Plan κ) : Prop :=
  ∀ simple ∈ plan.commands, ∀ flag ∈ simple.flags,
    (catalog.specification simple.kind).Declares flag

/-! ## Words -/

namespace Line

/-- That a word stands for a text, or has a substitution in it. -/
def Settles (x : Except Complaint Text) : Prop :=
  ∀ cause, x = .error cause → cause = .substitutionLeft

theorem settles_ok (s : Text) : Settles (.ok s) := nofun

theorem settles_left : Settles (.error .substitutionLeft) := by
  rintro _ ⟨⟩
  rfl

theorem settles_append {x y : Except Complaint Text} (hx : Settles x) (hy : Settles y) :
    Settles (do return (← x) ++ (← y)) := by
  cases x with
  | error cause => exact hx
  | ok s =>
    cases y with
    | error cause => exact hy
    | ok t => exact settles_ok _

theorem Body.settles_value (quote : Quote) (body : Body) : Settles (body.value quote) := by
  match body with
  | .done => exact settles_ok _
  | .mark rest | .literal token rest | .space t rest =>
    rw [Body.value]
    exact settles_append (settles_ok _) (rest.settles_value quote)
  | .substitution inner rest => exact settles_left

theorem Quoted.settles_value (q : Quoted) : Settles q.value := by
  cases q with
  | mk quote body => exact body.settles_value quote

theorem Strings.settles_value (run : Strings) : Settles run.value := by
  match run with
  | .one first => exact first.settles_value
  | .more first rest =>
    rw [Strings.value]
    exact settles_append first.settles_value rest.settles_value

theorem Word.settles_value (word : Word) : Settles word.value := by
  match word with
  | .chars t | .dash => exact settles_ok _
  | .substitution inner | .substitutionBefore inner rest => exact settles_left
  | .voidBefore gap rest | .charsBefore t rest =>
    rw [Word.value]
    exact settles_append (settles_ok _) rest.settles_value
  | .dashBefore rest =>
    rw [Word.value]
    exact settles_append (settles_ok ['-']) rest.settles_value
  | .strings run => exact run.settles_value
  | .stringBefore first rest =>
    rw [Word.value]
    exact settles_append first.settles_value rest.settles_value
  | .stringAfter front last =>
    rw [Word.value]
    exact settles_append front.settles_value last.settles_value
  | .voidAfter front gap =>
    rw [Word.value]
    exact settles_append front.settles_value (settles_ok _)
  | .substitutionAfter front inner =>
    have hfront := front.settles_value
    rw [Word.value]
    cases hvalue : front.value with
    | error cause => rwa [hvalue] at hfront
    | ok s => exact settles_left

theorem Word.backquote_of_value {word : Word} {cause : Complaint} (h : word.value = .error cause) :
    cause = .substitutionLeft ∧ .backquote ∈ word.tree.tokens := by
  refine ⟨word.settles_value cause h, ?_⟩
  by_contra hplain
  cases h.symm.trans (word.value_eq hplain)

/-! ## Planning -/

section Planning

variable {κ : Type} {E : Complaint → Prop}

theorem ends_orComplain {α : Type} {Q : α → Prop} {x : Except Complaint α}
    (herror : ∀ cause, x = .error cause → E cause) (hok : ∀ a, x = .ok a → Q a) :
    (orComplain x).Ends (Failure.Complains E) Q := by
  cases x with
  | error cause => exact herror cause rfl
  | ok a => exact hok a rfl

namespace Progress

/-- A command whose flags are declared, with a declared flag that waits. -/
structure Declared (command : κ) (specification : Specification) (progress : Progress κ) :
    Prop where
  kind : progress.simple.kind = command
  flags : ∀ flag ∈ progress.simple.flags, specification.Declares flag
  waiting : ∀ spec ∈ progress.waiting, spec ≠ .wildcard ∧ spec ∈ specification.flags

variable {command : κ} {specification : Specification} {progress : Progress κ}

theorem Declared.addFlag (h : progress.Declared command specification) {flag : Flag}
    (hflag : specification.Declares flag) {waiting : Option FlagSpec}
    (hwaiting : ∀ spec ∈ waiting, spec ≠ .wildcard ∧ spec ∈ specification.flags) :
    Declared command specification ⟨progress.simple.addFlag flag, waiting⟩ where
  kind := (Simple.kind_addFlag flag progress.simple).trans h.kind
  flags := by
    rw [Simple.flags_addFlag, List.forall_mem_append, List.forall_mem_singleton]
    exact ⟨h.flags, hflag⟩
  waiting := hwaiting

theorem Declared.addOperands (h : progress.Declared command specification) (operands : List Text) :
    Declared command specification
      ⟨operands.foldl (fun simple operand => simple.addOperand operand) progress.simple, none⟩ := by
  induction operands generalizing progress with
  | nil => exact ⟨h.kind, h.flags, nofun⟩
  | cons operand operands ih =>
    refine @ih ⟨progress.simple.addOperand operand, none⟩ ⟨?_, ?_, nofun⟩
    · exact (Simple.kind_addOperand operand progress.simple).trans h.kind
    · rw [(Simple.others_addOperand operand progress.simple).1]
      exact h.flags

variable (husual : ∀ cause, cause.isUsual = true → E cause)
include husual

theorem ends_needsValue {α : Type} {Q : α → Prop} {spec : FlagSpec} (h : spec ≠ .wildcard) :
    (needsValue spec : Checked α).Ends (Failure.Complains E) Q := by
  cases spec with
  | wildcard => exact absurd rfl h
  | named name type help => exact husual (.flagNeedsValue name) rfl

theorem Declared.ends_complete (h : progress.Declared command specification) {spec : FlagSpec}
    (hspec : spec ≠ .wildcard ∧ spec ∈ specification.flags) (value : Text) :
    (progress.complete spec value).Ends (Failure.Complains E)
      (Declared command specification) := by
  cases spec with
  | wildcard => exact absurd rfl hspec.1
  | named name type help =>
    unfold complete
    rcases FlagSpec.ofText_cases hspec.2 value with ⟨flag, hflag, hdeclared⟩ | herror
    · rw [hflag]
      exact h.addFlag hdeclared nofun
    · rw [herror]
      exact husual (.flagValue name value) rfl

private theorem Declared.ends_readFlag (h : progress.Declared command specification) (word : Text) :
    (progress.readFlag specification word).Ends (Failure.Complains E)
      (Declared command specification) := by
  unfold readFlag
  split
  · exact husual (.unknownFlag word) rfl
  · next spec _ hwaiting => exact h.ends_complete husual (h.waiting spec hwaiting) _
  · exact h.addOperands [_]
  · next hdeclared =>
      have hmem := List.mem_of_find?_eq_some hdeclared
      exact h.addFlag ⟨.bool, hmem, rfl⟩ h.waiting
  · next spec _ _ hwaiting => exact ends_needsValue husual (h.waiting spec hwaiting).1
  · next hwildcard _ hdeclared _ =>
      refine ⟨h.kind, h.flags, fun waiting hwaiting => ?_⟩
      cases hwaiting
      exact ⟨hwildcard, List.mem_of_find?_eq_some hdeclared⟩

private theorem Declared.ends_readArgument (h : progress.Declared command specification) (w : World)
    (argument : Text) : (progress.readArgument w argument).Ends (Failure.Complains E)
      (Declared command specification) := by
  unfold readArgument
  split
  · next spec hwaiting => exact h.ends_complete husual (h.waiting spec hwaiting) argument
  · split
    · trivial
    · exact h.addOperands _

theorem Declared.ends_read (h : progress.Declared command specification) (w : World)
    {modifier : Modifier} (hword : ∀ cause, modifier.word.value = .error cause → E cause) :
    (progress.read w specification modifier).Ends (Failure.Complains E)
      (Declared command specification) := by
  cases modifier with
  | flag name =>
    exact (ends_orComplain hword fun _ _ => trivial).bind fun word (_ : True) =>
      h.ends_readFlag husual word
  | arg value =>
    exact (ends_orComplain hword fun _ _ => trivial).bind fun argument (_ : True) =>
      h.ends_readArgument husual w argument

private theorem Declared.ends_finish (h : progress.Declared command specification) :
    progress.finish.Ends (Failure.Complains E) fun simple =>
      simple.kind = command ∧ ∀ flag ∈ simple.flags, specification.Declares flag := by
  unfold finish
  split
  · exact ⟨h.kind, h.flags⟩
  · next spec hwaiting => exact ends_needsValue husual (h.waiting spec hwaiting).1

end Progress

private theorem kind_wrap (redirects : List Redirect) (simple : Simple κ) :
    (redirects.foldl Redirect.wrap simple).kind = simple.kind ∧
      (redirects.foldl Redirect.wrap simple).flags = simple.flags := by
  induction redirects generalizing simple with
  | nil => exact ⟨rfl, rfl⟩
  | cons r redirects ih => rcases r with ⟨_ | _, gap, target⟩ <;> exact ih _

theorem Command.ends_plan (husual : ∀ cause, cause.isUsual = true → E cause) {x : Command}
    (hwords : ∀ word ∈ x.words, ∀ cause, word.value = .error cause → E cause) (catalog : Catalog κ)
    (w : World) : (x.plan catalog w).Ends (Failure.Complains E) (Plan.Declared catalog) := by
  obtain ⟨opening, name, ending⟩ := x
  rw [Command.words, List.forall_mem_cons, List.forall_mem_map] at hwords
  refine (ends_orComplain hwords.1 fun _ _ => trivial).bind fun s (_ : True) => ?_
  cases s with
  | nil => trivial
  | cons first rest =>
    dsimp only
    split
    · exact husual (.unknownCommand _) rfl
    · next command _ =>
        obtain ⟨hkind, hflags⟩ :=
          kind_wrap (opening.redirects ++ ending.redirects) (.command command [] [])
        have hstart : Progress.Declared command (catalog.specification command)
            ⟨(opening.redirects ++ ending.redirects).foldl Redirect.wrap
              (.command command [] []), none⟩ := by
          refine ⟨hkind, ?_, by rintro _ ⟨⟩⟩
          rw [hflags]
          exact List.forall_mem_nil _
        refine (Checked.ends_foldlM hstart fun m hm progress hprogress => ?_).bind
          fun progress hprogress => ?_
        · exact hprogress.ends_read husual w (hwords.2 m hm)
        · refine (hprogress.ends_finish husual).bind fun simple hsimple => ?_
          intro only honly
          have hmem : only = simple := by
            split_ifs at honly <;> exact List.mem_singleton.mp honly
          rw [hmem, hsimple.1]
          exact hsimple.2

end Planning

private theorem Script.mem_words {script : Script} {x : Command} (hx : x ∈ script.commands)
    {word : Word} (hword : word ∈ x.words) : word ∈ script.words := by
  obtain ⟨line?, trailing⟩ := script
  cases line? with
  | none => cases hx
  | some l => exact List.mem_flatMap.2 ⟨x, hx, hword⟩

/-- A line with a substitution in a name, a flag or an argument. -/
def Unsettled (line : Text) : Prop :=
  ∃ script, Script.ofLine? line = some script ∧ ∃ word ∈ script.words, .backquote ∈ word.tree.tokens

/-- Planning a line has only usual complaints, unless a substitution is left in the line. The
commands of the plan have flags that they declare. -/
theorem ends_plan (w : World) (line : Text) :
    (plan utilities w line).Ends
      (Failure.Complains fun cause =>
        cause.isUsual = true ∨ cause = .substitutionLeft ∧ Unsettled line)
      (Plan.Declared utilities) := by
  unfold plan Script.ofLine
  cases hread : Script.ofLine? line with
  | none => exact .inl rfl
  | some script =>
    change (script.plan utilities w).Ends _ _
    refine Script.ends_plan (.inl rfl) (fun p q hp hq => ?_) (fun p q hp hq => ?_) fun x hx => ?_
    · exact List.forall_mem_append.mpr ⟨hp, hq⟩
    · exact List.forall_mem_append.mpr ⟨hp, hq⟩
    · refine Command.ends_plan (fun cause => .inl) (fun word hword cause hcause => ?_) utilities w
      obtain ⟨rfl, hbackquote⟩ := Word.backquote_of_value hcause
      exact .inr ⟨rfl, script, hread, word, Script.mem_words hx hword, hbackquote⟩

end Line

/-! ## Checks -/

/-- What a command takes for a mistake of the shell: that it is given the flag for help, which it
declares like every other command. -/
inductive Utility.Mistakes : Utility → List Flag → Complaint → Prop
  | head {flags : List Flag} {flag : Flag} : flag ∈ flags → flag.name = ['h'] →
      Mistakes head flags (.headUnknownFlag ['h'])
  | tail {flag : Flag} {later : List Flag} : flag.name = ['h'] →
      Mistakes tail (flag :: later) (.tailUnknownFlag ['h'])
  | sort {flag : Flag} : flag.name = ['h'] → Mistakes sort [flag] .sortUnknownFlag
  | uniq {flag : Flag} : flag.name = ['h'] → Mistakes uniq [flag] .uniqUnknownFlag
  | find {flag : Flag} : flag.name = ['h'] → Mistakes find [flag] .findUnknownFlag

/-- A command with one flag of its own declares no other but the one for help. -/
theorem Specification.Declares.of_usual {name own help usage description : String} {flag : Flag}
    (h : (Utility.usual name [Utility.flag own type help] usage description).Declares flag) :
    flag.name = own.toList ∧ type.accepts flag.value = true ∨ flag.name = ['h'] := by
  obtain ⟨declared, hmem, haccepts⟩ := h
  rcases List.mem_pair.1 hmem with heq | heq
  · obtain ⟨hname, rfl, -⟩ := FlagSpec.named.inj heq
    exact .inl ⟨hname, haccepts⟩
  · exact .inr ((FlagSpec.named.inj heq).1.trans (by decide))

theorem Flag.eq_singleton_of_any {flags : List Flag} {p : Flag → Bool} (hone : ¬ flags.length > 1)
    (hany : flags.any p = true) : ∃ flag, flags = [flag] ∧ p flag = true := by
  rcases flags with _ | ⟨flag, _ | ⟨_, _⟩⟩
  · cases hany
  · exact ⟨flag, rfl, by simpa using hany⟩
  · simp at hone

section Checks

variable {E : Complaint → Prop} {flags : List Flag} {operands : List Text}

theorem Head.ends_countFrom
    (hflags : ∀ flag ∈ flags, flag.name = lineCountFlag ∧ flag.value.int?.isSome = true ∨
      flag.name = ['h'] ∧ E (.headUnknownFlag ['h'])) (count : Int) :
    (countFrom count flags).Ends (Failure.Complains E) fun _ => True := by
  induction flags generalizing count with
  | nil => trivial
  | cons flag flags ih =>
    rw [List.forall_mem_cons] at hflags
    unfold countFrom
    rcases hflags.1 with ⟨hname, hint⟩ | ⟨hname, hhelp⟩
    · obtain ⟨n, hn⟩ := Option.isSome_iff_exists.1 hint
      rw [if_pos hname, hn]
      exact ih hflags.2 n
    · rw [if_neg (by rw [hname]; decide), hname]
      exact hhelp

theorem Tail.ends_countOf (hflags : ∀ flag later, flags = flag :: later →
      flag.name = lineCountFlag ∧ flag.value.int?.isSome = true ∨
        flag.name = ['h'] ∧ E (.tailUnknownFlag ['h'])) :
    (countOf flags).Ends (Failure.Complains E) fun _ => True := by
  cases flags with
  | nil => trivial
  | cons flag later =>
    rw [countOf]
    rcases hflags flag later rfl with ⟨hname, hint⟩ | ⟨hname, hhelp⟩
    · obtain ⟨n, hn⟩ := Option.isSome_iff_exists.1 hint
      rw [if_pos hname, hn]
      trivial
    · rw [if_neg (by rw [hname]; decide), hname]
      exact hhelp

variable (husual : ∀ cause, cause.isUsual = true → E cause)
include husual

theorem Cd.ends_check (w : World) :
    (check w ⟨some flags, some operands, true⟩).Ends (Failure.Complains E) fun _ => True := by
  rcases operands with _ | ⟨path, _ | ⟨_, _⟩⟩
  · exact husual .cdOneOption rfl
  · rw [check_singleton]
    split_ifs
    · exact husual .cdNotFound rfl
    · exact husual (.cdNotDirectory path) rfl
    · trivial
  · exact husual .cdOneOption rfl

theorem Find.ends_check (hhelp : ∀ flag, flags = [flag] → flag.name ≠ "name".toList →
      E .findUnknownFlag) (w : World) :
    (check w ⟨some flags, some operands, true⟩).Ends (Failure.Complains E) fun _ => True := by
  have hpath : (checkPath w operands).Ends (Failure.Complains E) fun _ => True := by
    unfold checkPath
    split
    · trivial
    · split_ifs
      · trivial
      · exact husual .findNotFound rfl
    · exact husual .findManyPaths rfl
  have hpattern : (checkPattern flags).Ends (Failure.Complains E) fun _ => True := by
    unfold checkPattern
    split
    · trivial
    · next flag =>
        split_ifs with hname
        · exact hhelp flag rfl hname
        · split
          · trivial
          · exact husual .findPatternNotText rfl
    · exact husual .findManyFlags rfl
  exact hpath.bind fun _ _ => hpattern.bind fun _ _ => trivial

theorem Sed.ends_ofExpression (expression : Text) (files : List Text) :
    (ofExpression expression files).Ends (Failure.Complains E) fun _ => True := by
  unfold ofExpression
  split
  · split_ifs
    · exact husual .sedForm rfl
    · split
      · split
        · exact husual .sedPattern rfl
        · trivial
        · trivial
      · exact husual .sedParts rfl
  · exact husual .sedForm rfl

theorem Sorting.ends_check (hhelp : ∀ flag, flags = [flag] → flag.name ≠ reverseFlag →
      E .sortUnknownFlag) :
    (check ⟨some flags, some operands, true⟩).Ends (Failure.Complains E) fun _ => True := by
  rw [check_eq]
  split_ifs with hmany hother
  · exact husual .sortManyFlags rfl
  · obtain ⟨flag, hflag, hname⟩ := Flag.eq_singleton_of_any hmany hother
    exact hhelp flag hflag (by simpa using hname)
  · exact husual .sortManyFiles rfl
  · trivial

theorem Uniq.ends_check (hhelp : ∀ flag, flags = [flag] → flag.name ≠ ignoreCaseFlag →
      E .uniqUnknownFlag) :
    (check ⟨some flags, some operands, true⟩).Ends (Failure.Complains E) fun _ => True := by
  rw [check_eq]
  split_ifs with hmany hother
  · exact husual .uniqManyFlags rfl
  · obtain ⟨flag, hflag, hname⟩ := Flag.eq_singleton_of_any hmany hother
    exact hhelp flag hflag (by simpa using hname)
  · exact husual .uniqManyFiles rfl
  · trivial

private theorem Wc.ends_checkFlags : (checkFlags flags).Ends
    (Failure.Complains E) fun _ => True := by
  unfold checkFlags
  split
  · trivial
  · split
    · trivial
    · exact husual .wcUnknownFlag rfl
  · exact husual .wcManyFlags rfl

/-- A command with declared flags has only usual complaints about its arguments, unless it mistakes
the flag for help. -/
theorem Invocation.ends_check {utility : Utility}
    (hflags : ∀ flag ∈ flags, utility.specification.Declares flag)
    (hmistakes : ∀ cause, utility.Mistakes flags cause → E cause) (w : World) :
    (check utility ⟨some flags, some operands, true⟩ w).Ends (Failure.Complains E)
      fun _ => True := by
  cases utility with
  | cat =>
    cases flags with
    | nil => trivial
    | cons flag later => exact husual .catFlags rfl
  | cd => exact (Cd.ends_check husual w).map
  | cut =>
    rcases flags with _ | ⟨flag, _ | ⟨_, _⟩⟩
    · exact husual .cutNoList rfl
    · trivial
    · exact husual .cutManyLists rfl
  | echo | exit | ls | pwd => trivial
  | find =>
    refine (Find.ends_check husual (fun flag hflag hname => ?_) w).map
    subst hflag
    rcases (hflags flag List.mem_cons_self).of_usual with ⟨hown, -⟩ | hhelp
    · exact absurd hown hname
    · exact hmistakes _ (.find hhelp)
  | grep =>
    cases operands with
    | nil => trivial
    | cons expression files =>
      dsimp only [check, Grep.check, Arguments.operands, bind, Except.bind, pure, Except.pure,
        Functor.map, Except.map]
      cases Pattern.ofText expression with
      | error cause =>
        cases cause with
        | invalid => exact husual (.grepPattern expression) rfl
        | crash cause => trivial
      | ok pattern => trivial
  | head =>
    have hcount : ∀ flag ∈ flags, flag.name = lineCountFlag ∧ flag.value.int?.isSome = true ∨
        flag.name = ['h'] ∧ E (.headUnknownFlag ['h']) := by
      intro flag hflag
      rcases (hflags flag hflag).of_usual with hown | hhelp
      · exact .inl hown
      · exact .inr ⟨hhelp, hmistakes _ (.head hflag hhelp)⟩
    exact Checked.Ends.map ((Head.ends_countFrom hcount usualLineCount).bind fun _ _ => trivial)
  | sed =>
    cases operands with
    | nil => exact husual .sedNoExpression rfl
    | cons expression files => exact (Sed.ends_ofExpression husual expression files).map
  | sort =>
    refine (Sorting.ends_check husual fun flag hflag hname => ?_).map
    subst hflag
    rcases (hflags flag List.mem_cons_self).of_usual with ⟨hown, -⟩ | hhelp
    · exact absurd hown hname
    · exact hmistakes _ (.sort hhelp)
  | tail =>
    have hcount : ∀ flag later, flags = flag :: later →
        flag.name = lineCountFlag ∧ flag.value.int?.isSome = true ∨
          flag.name = ['h'] ∧ E (.tailUnknownFlag ['h']) := by
      rintro flag later rfl
      rcases (hflags flag List.mem_cons_self).of_usual with hown | hhelp
      · exact .inl hown
      · exact .inr ⟨hhelp, hmistakes _ (.tail hhelp)⟩
    exact Checked.Ends.map ((Tail.ends_countOf hcount).bind fun _ _ => trivial)
  | uniq =>
    refine (Uniq.ends_check husual fun flag hflag hname => ?_).map
    subst hflag
    rcases (hflags flag List.mem_cons_self).of_usual with ⟨hown, -⟩ | hhelp
    · exact absurd hown hname
    · exact hmistakes _ (.uniq hhelp)
  | wc => exact Checked.Ends.map ((Wc.ends_checkFlags husual).bind fun _ _ => trivial)

end Checks

end CommandShell

import CommandShell.Proofs.Substitution.Output

/-!
# Flags, values and operands

How the words after the name of a command become its flags and operands. A word with a dash refers
to a declaration of the command: a switch is set, a wildcard makes the word an operand, and a flag
that takes a value waits for it. `Assigned` says which flags and operands are made of which words,
and `Admissible` when there are any. Redirects stay around the command whatever it is given.
-/

namespace CommandShell.Line

open List

/-! ## What is given to a command -/

/-- What a modifier gives to a command: a word that has a dash before it, or an argument. -/
inductive Given where
  | dashed (word : Text)
  | plain (argument : Text)
deriving DecidableEq, Repr

def Modifier.given : Modifier → Except Complaint Given
  | .flag name => return .dashed (← name.value)
  | .arg value => return .plain (← value.value)

def Progress.take {κ : Type} (w : World) (specification : Specification) (progress : Progress κ) :
    Given → Checked (Progress κ)
  | .dashed word => progress.readFlag specification word
  | .plain argument => progress.readArgument w argument

section Reading

variable {κ : Type} (w : World) (specification : Specification)

theorem Progress.read_eq (progress : Progress κ) (m : Modifier) :
    progress.read w specification m =
      orComplain m.given >>= progress.take w specification := by
  cases m with
  | flag name =>
    simp only [Progress.read, Modifier.given]
    cases name.value <;> rfl
  | arg value =>
    simp only [Progress.read, Modifier.given]
    cases value.value <;> rfl

@[simp] theorem orComplain_eq_ok {α : Type} {x : Except Complaint α} {a : α} :
    orComplain x = .ok a ↔ x = .ok a := by
  cases x with
  | error cause => exact ⟨nofun, nofun⟩
  | ok b => exact ⟨fun h => by cases h; rfl, fun h => by cases h; rfl⟩

theorem mapM_given_cons {m : Modifier} {modifiers : List Modifier} {givens : List Given} :
    (m :: modifiers).mapM Modifier.given = .ok givens ↔
      ∃ given later, m.given = .ok given ∧ modifiers.mapM Modifier.given = .ok later ∧
        givens = given :: later := by
  rw [mapM_cons]
  cases m.given with
  | error cause => exact ⟨nofun, fun ⟨_, _, h, _⟩ => nomatch h⟩
  | ok given =>
    cases modifiers.mapM Modifier.given with
    | error cause => exact ⟨nofun, fun ⟨_, _, _, h, _⟩ => nomatch h⟩
    | ok later =>
      exact ⟨fun h => ⟨given, later, rfl, rfl, by cases h; rfl⟩,
        fun ⟨_, _, h, h', heq⟩ => by cases h; cases h'; rw [heq]; rfl⟩

theorem Progress.foldlM_read_eq_ok {modifiers : List Modifier} {progress last : Progress κ} :
    modifiers.foldlM (Progress.read w specification) progress = .ok last ↔
      ∃ givens, modifiers.mapM Modifier.given = .ok givens ∧
        givens.foldlM (Progress.take w specification) progress = .ok last := by
  induction modifiers generalizing progress with
  | nil => exact ⟨fun h => ⟨[], rfl, h⟩, fun ⟨_, hgivens, h⟩ => by cases hgivens; exact h⟩
  | cons m modifiers ih =>
    rw [foldlM_cons, Progress.read_eq, Checked.bind_eq_ok]
    constructor
    · rintro ⟨next, hnext, hlater⟩
      obtain ⟨given, hgiven, hnext⟩ := Checked.bind_eq_ok.mp hnext
      obtain ⟨givens, hgivens, hlater⟩ := ih.mp hlater
      refine ⟨given :: givens, mapM_given_cons.mpr
        ⟨given, givens, orComplain_eq_ok.mp hgiven, hgivens, rfl⟩, ?_⟩
      rw [foldlM_cons]
      exact Checked.bind_eq_ok.mpr ⟨next, hnext, hlater⟩
    · rintro ⟨_, hgivens, h⟩
      obtain ⟨given, later, hgiven, hlaterGivens, rfl⟩ := mapM_given_cons.mp hgivens
      rw [foldlM_cons] at h
      obtain ⟨next, hnext, hlater⟩ := Checked.bind_eq_ok.mp h
      exact ⟨next, Checked.bind_eq_ok.mpr ⟨given, orComplain_eq_ok.mpr hgiven, hnext⟩,
        ih.mpr ⟨later, hlaterGivens, hlater⟩⟩

end Reading

/-! ## Redirects around a command -/

section Redirects

variable {κ : Type} (redirects : List Redirect)

/-- Puts redirects around a command, the first of them innermost. -/
def wrapAll (simple : Simple κ) : Simple κ := redirects.foldl Redirect.wrap simple

@[simp] theorem addFlag_wrapAll (flag : Flag) (simple : Simple κ) :
    (wrapAll redirects simple).addFlag flag = wrapAll redirects (simple.addFlag flag) := by
  induction redirects generalizing simple with
  | nil => rfl
  | cons r redirects ih =>
    change (wrapAll redirects (r.wrap simple)).addFlag flag =
      wrapAll redirects (r.wrap (simple.addFlag flag))
    rw [ih]
    obtain ⟨direction, gap, target⟩ := r
    cases direction <;> rfl

@[simp] theorem addOperand_wrapAll (operand : Text) (simple : Simple κ) :
    (wrapAll redirects simple).addOperand operand =
      wrapAll redirects (simple.addOperand operand) := by
  induction redirects generalizing simple with
  | nil => rfl
  | cons r redirects ih =>
    change (wrapAll redirects (r.wrap simple)).addOperand operand =
      wrapAll redirects (r.wrap (simple.addOperand operand))
    rw [ih]
    obtain ⟨direction, gap, target⟩ := r
    cases direction <;> rfl

theorem foldl_addOperand_wrapAll (operands : List Text) (simple : Simple κ) :
    operands.foldl (fun simple operand => simple.addOperand operand) (wrapAll redirects simple) =
      wrapAll redirects (operands.foldl (fun simple operand => simple.addOperand operand)
        simple) := by
  induction operands generalizing simple with
  | nil => rfl
  | cons operand operands ih => rw [foldl_cons, foldl_cons, addOperand_wrapAll, ih]

namespace Progress

def wrapAll (progress : Progress κ) : Progress κ :=
  ⟨Line.wrapAll redirects progress.simple, progress.waiting⟩

theorem complete_wrapAll (progress : Progress κ) (spec : FlagSpec) (value : Text) :
    (progress.wrapAll redirects).complete spec value =
      wrapAll redirects <$> progress.complete spec value := by
  unfold complete
  cases spec.ofText (some value) with
  | error cause => rfl
  | ok flag =>
    change (.ok _ : Checked _) = .ok _
    rw [wrapAll, addFlag_wrapAll]
    rfl

private theorem readFlag_wrapAll (specification : Specification) (word : Text)
    (progress : Progress κ) : (progress.wrapAll redirects).readFlag specification word =
      wrapAll redirects <$> progress.readFlag specification word := by
  obtain ⟨simple, waiting⟩ := progress
  unfold readFlag
  cases specification.declaration? word with
  | none => rfl
  | some d =>
    cases d with
    | wildcard =>
      cases waiting with
      | none =>
        change (.ok _ : Checked _) = .ok _
        rw [wrapAll, addOperand_wrapAll]
        rfl
      | some spec => exact complete_wrapAll redirects ⟨simple, some spec⟩ spec _
    | named name type help =>
      cases type with
      | bool =>
        change (.ok _ : Checked _) = .ok _
        rw [wrapAll, addFlag_wrapAll]
        rfl
      | _ =>
        cases waiting with
        | none => rfl
        | some spec =>
          change needsValue spec = _ <$> needsValue spec
          unfold needsValue
          cases spec.name <;> rfl

private theorem readArgument_wrapAll (w : World) (argument : Text) (progress : Progress κ) :
    (progress.wrapAll redirects).readArgument w argument =
      wrapAll redirects <$> progress.readArgument w argument := by
  obtain ⟨simple, waiting⟩ := progress
  cases waiting with
  | some spec => exact complete_wrapAll redirects ⟨simple, some spec⟩ spec argument
  | none =>
    simp only [readArgument, wrapAll]
    cases Expansion.paths w argument with
    | error cause => rfl
    | ok paths =>
      change (.ok _ : Checked _) = .ok _
      rw [foldl_addOperand_wrapAll]
      rfl

private theorem read_wrapAll (w : World) (specification : Specification) (progress : Progress κ)
    (m : Modifier) : (progress.wrapAll redirects).read w specification m =
      wrapAll redirects <$> progress.read w specification m := by
  rw [read_eq, read_eq]
  cases m.given with
  | error cause => rfl
  | ok given =>
    cases given with
    | dashed word => exact readFlag_wrapAll redirects specification word progress
    | plain argument => exact readArgument_wrapAll redirects w argument progress

theorem foldlM_read_wrapAll (w : World) (specification : Specification) (progress : Progress κ)
    (modifiers : List Modifier) :
    modifiers.foldlM (Progress.read w specification) (progress.wrapAll redirects) =
      wrapAll redirects <$> modifiers.foldlM (Progress.read w specification) progress := by
  induction modifiers generalizing progress with
  | nil => rfl
  | cons m modifiers ih =>
    rw [foldlM_cons, foldlM_cons, read_wrapAll]
    cases progress.read w specification m with
    | error failure => rfl
    | ok next => exact ih next

@[simp] theorem finish_wrapAll (progress : Progress κ) :
    (progress.wrapAll redirects).finish = Line.wrapAll redirects <$> progress.finish := by
  obtain ⟨simple, waiting⟩ := progress
  cases waiting with
  | none => rfl
  | some spec =>
    change needsValue spec = _ <$> needsValue spec
    unfold needsValue
    cases spec.name <;> rfl

end Progress

end Redirects

/-! ## What a word refers to -/

section Words

variable (s : Specification)

/-- A word with a dash refers to the first declaration that is a wildcard or has its name. -/
def Refers (word : Text) (d : FlagSpec) : Prop :=
  (d = .wildcard ∨ ∃ type help, d = .named word type help) ∧
    ∃ before after, s.flags = before ++ d :: after ∧
      ∀ e ∈ before, e ≠ .wildcard ∧ ∀ type help, e ≠ .named word type help

variable {d : FlagSpec} {word text : Text} {flags : List Flag} {operands : List Text} {w : World}

theorem FlagSpec.answersTo_iff :
    d.answersTo word = true ↔ d = .wildcard ∨ ∃ type help, d = .named word type help := by
  cases d with
  | wildcard => simp [FlagSpec.answersTo]
  | named name type help =>
    simp only [FlagSpec.answersTo, decide_eq_true_eq, reduceCtorEq, FlagSpec.named.injEq,
      false_or]
    constructor
    · rintro rfl
      exact ⟨type, help, rfl, rfl, rfl⟩
    · rintro ⟨_, _, h, -, -⟩
      exact h

theorem declaration?_eq_some_iff : s.declaration? word = some d ↔ Refers s word d := by
  unfold Specification.declaration? Refers
  rw [List.find?_eq_some_iff_append, FlagSpec.answersTo_iff]
  have hnot : ∀ e : FlagSpec, (!e.answersTo word) = true ↔
      e ≠ .wildcard ∧ ∀ type help, e ≠ .named word type help := by
    intro e
    rw [Bool.not_eq_true', ← Bool.not_eq_true, FlagSpec.answersTo_iff]
    simp
  simp only [hnot]

/-- A word that sets a switch. -/
inductive Switches : Given → Flag → Prop where
  | mk {word help : Text} (h : Refers s word (.named word .bool help)) :
      Switches (.dashed word) ⟨word, .bool true, help⟩

/-- A word for a flag that takes a value. -/
inductive Asks : Given → FlagSpec → Prop where
  | mk {word help : Text} {type : ValueType} (h : Refers s word (.named word type help))
      (htype : type ≠ .bool) : Asks (.dashed word) (.named word type help)

/-- The text that a word offers as a value: an argument, or a word for the wildcard with its
dash. -/
inductive Offers : Given → Text → Prop where
  | plain (argument : Text) : Offers (.plain argument) argument
  | dashed {word : Text} (h : Refers s word .wildcard) : Offers (.dashed word) ('-' :: word)

inductive Converts : FlagSpec → Text → Flag → Prop where
  | mk {name help text : Text} {type : ValueType} {value : Value}
      (h : type.read? text = some value) : Converts (.named name type help) text ⟨name, value, help⟩

/-- The operands that an argument stands for: the paths that fit it, or itself if there are
none. -/
def Expands (w : World) (argument : Text) (operands : List Text) : Prop :=
  ∃ paths, Expansion.paths w argument = .ok paths ∧
    operands = if paths = [] then [argument] else paths

/-- The flags and operands that words stand for. The flags come in the order in which they are
complete, so a flag with a value comes after the switches between it and its value. -/
inductive Assigned (w : World) : List Given → List Flag → List Text → Prop where
  | nil : Assigned w [] [] []
  | switch {g : Given} {gs : List Given} {flag : Flag} {flags : List Flag} {operands : List Text}
      (h : Switches s g flag) (later : Assigned w gs flags operands) :
      Assigned w (g :: gs) (flag :: flags) operands
  | verbatim {word : Text} {gs : List Given} {flags : List Flag} {operands : List Text}
      (h : Refers s word .wildcard) (later : Assigned w gs flags operands) :
      Assigned w (.dashed word :: gs) flags (('-' :: word) :: operands)
  | argument {argument : Text} {gs : List Given} {flags : List Flag} {group operands : List Text}
      (h : Expands w argument group) (later : Assigned w gs flags operands) :
      Assigned w (.plain argument :: gs) flags (group ++ operands)
  | valued {g v : Given} {d : FlagSpec} {switches gs : List Given} {set flags : List Flag}
      {text : Text} {flag : Flag} {operands : List Text} (hasks : Asks s g d)
      (hswitches : List.Forall₂ (Switches s) switches set) (hoffers : Offers s v text)
      (hconverts : Converts d text flag) (later : Assigned w gs flags operands) :
      Assigned w (g :: (switches ++ v :: gs)) (set ++ flag :: flags) operands

/-! ## One word at a time -/

/-- What reading one word does: the flag that waits before and after it, and what is added. -/
inductive Step (w : World) : Given → Option FlagSpec → Option FlagSpec → List Flag → List Text →
    Prop where
  | switch {g : Given} {flag : Flag} (waiting : Option FlagSpec) (h : Switches s g flag) :
      Step w g waiting waiting [flag] []
  | value {g : Given} {d : FlagSpec} {text : Text} {flag : Flag} (hoffers : Offers s g text)
      (hconverts : Converts d text flag) : Step w g (some d) none [flag] []
  | verbatim {word : Text} (h : Refers s word .wildcard) :
      Step w (.dashed word) none none [] ['-' :: word]
  | argument {argument : Text} {group : List Text} (h : Expands w argument group) :
      Step w (.plain argument) none none [] group
  | asks {g : Given} {d : FlagSpec} (h : Asks s g d) : Step w g none (some d) [] []

/-- What reading words in a row does. -/
inductive Steps (w : World) : List Given → Option FlagSpec → Option FlagSpec → List Flag →
    List Text → Prop where
  | nil (waiting : Option FlagSpec) : Steps w [] waiting waiting [] []
  | cons {g : Given} {gs : List Given} {before middle after : Option FlagSpec}
      {flags flags' : List Flag} {operands operands' : List Text}
      (first : Step s w g before middle flags operands)
      (later : Steps w gs middle after flags' operands') :
      Steps w (g :: gs) before after (flags ++ flags') (operands ++ operands')

private theorem withValue_of_read? {name help : Text} {type : ValueType} {value : Value}
    (h : type.read? text = some value) :
    (FlagSpec.named name type help).withValue value = .ok ⟨name, value, help⟩ := by
  cases type with
  | bool | text | texts => cases h; rfl
  | int | float =>
    obtain ⟨_, -, rfl⟩ := Option.map_eq_some_iff.mp h
    rfl
  | ints | floats =>
    obtain ⟨_, -, h⟩ := Option.bind_eq_some_iff.mp h
    cases h
    rfl

theorem ofText_eq_ok_iff {flag : Flag} :
    d.ofText (some text) = .ok flag ↔ Converts d text flag := by
  cases d with
  | wildcard => exact ⟨nofun, nofun⟩
  | named name type help =>
    simp only [FlagSpec.ofText]
    cases hread : type.read? text with
    | none =>
      refine ⟨nofun, ?_⟩
      rintro ⟨h⟩
      rw [hread] at h
      cases h
    | some value =>
      simp only [withValue_of_read? hread]
      constructor
      · rintro ⟨⟩
        exact .mk hread
      · rintro ⟨h⟩
        rw [hread] at h
        cases h
        rfl

variable {g : Given} {gs : List Given}

section Machine

variable {κ : Type} {w : World} {command : κ} {flags : List Flag} {operands : List Text}

variable {waiting : Option FlagSpec}

theorem complete_eq_ok_iff {q : Progress κ} :
    (Progress.mk (.command command flags operands) waiting).complete d text = .ok q ↔
      ∃ flag, Converts d text flag ∧
        q = ⟨.command command (flags ++ [flag]) operands, none⟩ := by
  unfold Progress.complete
  rw [Checked.bind_eq_ok]
  simp only [orComplain_eq_ok, ofText_eq_ok_iff]
  constructor
  · rintro ⟨flag, hflag, hq⟩
    cases hq
    exact ⟨flag, hflag, rfl⟩
  · rintro ⟨flag, hflag, rfl⟩
    exact ⟨flag, hflag, rfl⟩

theorem needsValue_ne_ok {α : Type} (d : FlagSpec) (a : α) : Progress.needsValue d ≠ .ok a := by
  unfold Progress.needsValue
  cases d.name <;> nofun

private theorem step_of_readFlag {q : Progress κ}
    (h : (Progress.mk (.command command flags operands) waiting).readFlag s word = .ok q) :
    ∃ waiting' set added, Step s w (.dashed word) waiting waiting' set added ∧
      q = ⟨.command command (flags ++ set) (operands ++ added), waiting'⟩ := by
  unfold Progress.readFlag at h
  cases hd : s.declaration? word with
  | none => rw [hd] at h; cases h
  | some d =>
    have hrefers := (declaration?_eq_some_iff s).mp hd
    rw [hd] at h
    rcases hrefers.1 with rfl | ⟨type, help, rfl⟩
    · cases waiting with
      | none =>
        cases h
        exact ⟨none, [], _, .verbatim hrefers, by simp [Simple.addOperand]⟩
      | some d =>
        obtain ⟨flag, hflag, rfl⟩ := complete_eq_ok_iff.mp h
        exact ⟨none, [flag], [], .value (.dashed hrefers) hflag, by simp⟩
    · by_cases htype : type = .bool
      · subst htype
        cases h
        exact ⟨waiting, _, [], .switch waiting (.mk hrefers), by simp [Simple.addFlag]⟩
      · cases waiting with
        | none =>
          have hq : q = ⟨.command command flags operands, some (.named word type help)⟩ := by
            cases type with
            | bool => exact absurd rfl htype
            | _ => cases h; rfl
          exact ⟨_, [], [], .asks (.mk hrefers htype), by simp [hq]⟩
        | some d =>
          have hneeds : Progress.needsValue d = .ok q := by
            cases type with
            | bool => exact absurd rfl htype
            | _ => exact h
          exact absurd hneeds (needsValue_ne_ok d q)

private theorem step_of_readArgument {argument : Text} {q : Progress κ}
    (h : (Progress.mk (.command command flags operands) waiting).readArgument w argument = .ok q) :
    ∃ waiting' set added, Step s w (.plain argument) waiting waiting' set added ∧
      q = ⟨.command command (flags ++ set) (operands ++ added), waiting'⟩ := by
  cases waiting with
  | some d =>
    obtain ⟨flag, hflag, rfl⟩ := complete_eq_ok_iff.mp h
    exact ⟨none, [flag], [], .value (.plain argument) hflag, by simp⟩
  | none =>
    simp only [Progress.readArgument] at h
    cases hpaths : Expansion.paths w argument with
    | error cause => rw [hpaths] at h; cases h
    | ok paths =>
      rw [hpaths] at h
      cases h
      refine ⟨none, [], _, .argument ⟨paths, hpaths, rfl⟩, ?_⟩
      rw [foldl_addOperand, append_nil]
      simp only [List.isEmpty_iff]

/-- One word is read in one of the ways that `Step` lists. -/
theorem take_eq_ok_iff {q : Progress κ} :
    (Progress.mk (.command command flags operands) waiting).take w s g = .ok q ↔
      ∃ waiting' set added, Step s w g waiting waiting' set added ∧
        q = ⟨.command command (flags ++ set) (operands ++ added), waiting'⟩ := by
  constructor
  · cases g with
    | dashed word => exact step_of_readFlag s
    | plain argument => exact step_of_readArgument s
  · rintro ⟨waiting', set, added, hstep, rfl⟩
    cases hstep with
    | switch _ h =>
      cases h with
      | mk h =>
        simp only [Progress.take, Progress.readFlag, (declaration?_eq_some_iff s).mpr h]
        simp [orComplain, FlagSpec.withValue, ValueType.accepts, Simple.addFlag, pure,
          Except.pure, bind, Except.bind]
    | value hoffers hconverts =>
      cases hoffers with
      | plain _ =>
        simp only [Progress.take, Progress.readArgument, append_nil]
        exact complete_eq_ok_iff.mpr ⟨_, hconverts, rfl⟩
      | dashed h =>
        simp only [Progress.take, Progress.readFlag, (declaration?_eq_some_iff s).mpr h,
          append_nil]
        exact complete_eq_ok_iff.mpr ⟨_, hconverts, rfl⟩
    | verbatim h =>
      simp only [Progress.take, Progress.readFlag, (declaration?_eq_some_iff s).mpr h]
      simp [Simple.addOperand, pure, Except.pure]
    | argument h =>
      obtain ⟨paths, hpaths, rfl⟩ := h
      simp only [Progress.take, Progress.readArgument, hpaths, foldl_addOperand,
        List.isEmpty_iff, append_nil]
      rfl
    | asks h =>
      cases h with
      | @mk word help type h htype =>
        simp only [Progress.take, Progress.readFlag, (declaration?_eq_some_iff s).mpr h,
          append_nil]
        cases type with
        | bool => exact absurd rfl htype
        | _ => rfl

theorem foldlM_take_eq_ok_iff {q : Progress κ} :
    gs.foldlM (Progress.take w s) ⟨.command command flags operands, waiting⟩ = .ok q ↔
      ∃ waiting' set added, Steps s w gs waiting waiting' set added ∧
        q = ⟨.command command (flags ++ set) (operands ++ added), waiting'⟩ := by
  induction gs generalizing waiting flags operands with
  | nil =>
    constructor
    · intro h
      cases h
      exact ⟨waiting, [], [], .nil waiting, by simp⟩
    · rintro ⟨_, _, _, hsteps, rfl⟩
      cases hsteps
      simp only [append_nil]
      rfl
  | cons g gs ih =>
    rw [foldlM_cons, Checked.bind_eq_ok]
    constructor
    · rintro ⟨_, hfirst, hlater⟩
      obtain ⟨middle, set, added, hstep, rfl⟩ := (take_eq_ok_iff s).mp hfirst
      obtain ⟨last, set', added', hsteps, rfl⟩ := ih.mp hlater
      exact ⟨last, set ++ set', added ++ added', .cons hstep hsteps, by simp⟩
    · rintro ⟨_, _, _, hsteps, rfl⟩
      cases hsteps with
      | cons hstep hsteps =>
        refine ⟨_, (take_eq_ok_iff s).mpr ⟨_, _, _, hstep, rfl⟩,
          ih.mpr ⟨_, _, _, hsteps, ?_⟩⟩
        simp

end Machine

theorem Steps.append {gs' : List Given} {before middle after : Option FlagSpec} {flags' : List Flag}
    {operands' : List Text} (h : Steps s w gs before middle flags operands)
    (h' : Steps s w gs' middle after flags' operands') :
    Steps s w (gs ++ gs') before after (flags ++ flags') (operands ++ operands') := by
  induction h with
  | nil waiting => exact h'
  | cons first _ ih =>
    rw [append_assoc, append_assoc]
    exact .cons first (ih h')

private theorem steps_of_switches {switches : List Given} {set : List Flag}
    (h : List.Forall₂ (Switches s) switches set) (waiting : Option FlagSpec) :
    Steps s w switches waiting waiting set [] := by
  induction h with
  | nil => exact .nil waiting
  | cons hfirst _ ih => exact .cons (.switch waiting hfirst) ih

theorem Assigned.steps (h : Assigned s w gs flags operands) :
    Steps s w gs none none flags operands := by
  induction h with
  | nil => exact .nil none
  | switch h _ ih => exact .cons (.switch none h) ih
  | verbatim h _ ih => exact .cons (.verbatim h) ih
  | argument h _ ih => exact .cons (.argument h) ih
  | valued hasks hswitches hoffers hconverts _ ih =>
    exact .cons (.asks hasks) ((steps_of_switches s hswitches _).append s
      (.cons (.value hoffers hconverts) ih))

/-- What has been read when nothing waits in the end: if a flag waits in the beginning, it is
given a value after some switches. -/
theorem assigned_of_steps {before after : Option FlagSpec}
    (h : Steps s w gs before after flags operands) (hafter : after = none) :
    (before = none → Assigned s w gs flags operands) ∧
      ∀ d, before = some d → ∃ switches v rest set text flag later,
        gs = switches ++ v :: rest ∧ flags = set ++ flag :: later ∧
        List.Forall₂ (Switches s) switches set ∧ Offers s v text ∧ Converts d text flag ∧
        Assigned s w rest later operands := by
  induction h with
  | nil waiting => exact ⟨fun _ => .nil, fun d hd => by rw [hafter] at hd; cases hd⟩
  | cons first _ ih =>
    obtain ⟨hnone, hsome⟩ := ih hafter
    cases first with
    | switch waiting h =>
      refine ⟨fun hwaiting => .switch h (hnone hwaiting), fun d hd => ?_⟩
      obtain ⟨switches, v, rest, set, text, flag, later, rfl, rfl, hswitches, hrest⟩ :=
        hsome d hd
      exact ⟨_ :: switches, v, rest, _ :: set, text, flag, later, rfl, rfl,
        .cons h hswitches, hrest⟩
    | value hoffers hconverts =>
      refine ⟨nofun, fun d hd => ?_⟩
      cases hd
      exact ⟨[], _, _, [], _, _, _, rfl, rfl, .nil, hoffers, hconverts, hnone rfl⟩
    | verbatim h => exact ⟨fun _ => .verbatim h (hnone rfl), nofun⟩
    | argument h => exact ⟨fun _ => .argument h (hnone rfl), nofun⟩
    | asks h =>
      refine ⟨fun _ => ?_, nofun⟩
      obtain ⟨switches, v, rest, set, text, flag, later, rfl, rfl, hswitches, hoffers,
        hconverts, hlater⟩ := hsome _ rfl
      exact .valued h hswitches hoffers hconverts hlater

theorem steps_iff_assigned :
    Steps s w gs none none flags operands ↔ Assigned s w gs flags operands :=
  ⟨fun h => (assigned_of_steps s h rfl).1 rfl, Assigned.steps s⟩

/-! ## Words that can be assigned -/

/-- Words in a row that set switches. -/
def AllSwitches (gs : List Given) : Prop := ∀ g ∈ gs, ∃ flag, Switches s g flag

/-- Among these words is a flag that still waits for its value after the last of them. -/
def Awaited (front : List Given) : Prop :=
  ∃ g d switches, Asks s g d ∧ AllSwitches s switches ∧ g :: switches <:+ front

/-- Switches, and then a text that converts to the type of a flag's value. -/
def Supplies (d : FlagSpec) (back : List Given) : Prop :=
  ∃ switches v rest text flag, back = switches ++ v :: rest ∧ AllSwitches s switches ∧
    Offers s v text ∧ Converts d text flag

/-- Words of which flags and operands can be made. -/
structure Admissible (w : World) (gs : List Given) : Prop where
  /-- every word with a dash has a declaration -/
  declared : ∀ word, .dashed word ∈ gs → ∃ d, Refers s word d
  /-- every flag that takes a value is followed by one, but for switches -/
  valued : ∀ g d back, Asks s g d → g :: back <:+ gs → Supplies s d back
  /-- every argument that no flag waits for can be expanded -/
  expandable : ∀ front argument back, gs = front ++ .plain argument :: back →
    ¬ Awaited s front → ∃ operands, Expands w argument operands

variable {s}

theorem Refers.unique {e : FlagSpec} (hd : Refers s word d) (he : Refers s word e) : d = e := by
  rw [← declaration?_eq_some_iff] at hd he
  exact Option.some.inj (hd.symm.trans he)

theorem Asks.unique {g : Given} {d e : FlagSpec} (hd : Asks s g d) (he : Asks s g e) : d = e := by
  cases hd with
  | mk hd _ =>
    cases he with
    | mk he _ => exact hd.unique he

theorem Asks.not_switches (h : Asks s g d) (flag : Flag) : ¬ Switches s g flag := by
  rintro ⟨hswitch⟩
  cases h with
  | mk h htype =>
    cases h.unique hswitch
    exact htype rfl

theorem Offers.not_switches (h : Offers s g text) (flag : Flag) : ¬ Switches s g flag := by
  rintro ⟨hswitch⟩
  cases h with
  | dashed h => cases h.unique hswitch

theorem Offers.not_asks (h : Offers s g text) (d : FlagSpec) : ¬ Asks s g d := by
  rintro ⟨hasks, -⟩
  cases h with
  | dashed h => cases h.unique hasks

variable {front : List Given}

theorem awaited_cons :
    Awaited s (g :: front) ↔ (∃ d, Asks s g d ∧ AllSwitches s front) ∨ Awaited s front := by
  constructor
  · rintro ⟨g', d, switches, hasks, hall, hsuffix⟩
    rcases suffix_cons_iff.mp hsuffix with heq | hsuffix
    · cases heq
      exact .inl ⟨d, hasks, hall⟩
    · exact .inr ⟨g', d, switches, hasks, hall, hsuffix⟩
  · rintro (⟨d, hasks, hall⟩ | ⟨g', d, switches, hasks, hall, hsuffix⟩)
    · exact ⟨g, d, front, hasks, hall, suffix_refl _⟩
    · exact ⟨g', d, switches, hasks, hall, hsuffix.trans (suffix_cons _ _)⟩

theorem Awaited.append (gs : List Given) (h : Awaited s front) : Awaited s (gs ++ front) := by
  obtain ⟨g, d, switches, hasks, hall, hsuffix⟩ := h
  exact ⟨g, d, switches, hasks, hall, hsuffix.trans (suffix_append _ _)⟩

variable {v : Given}

theorem Awaited.of_offers (hv : Offers s v text) (gs : List Given)
    (h : Awaited s (gs ++ v :: front)) : Awaited s front := by
  induction gs with
  | nil =>
    rcases awaited_cons.mp h with ⟨d, hasks, -⟩ | h
    · exact absurd hasks (hv.not_asks d)
    · exact h
  | cons g gs ih =>
    rcases awaited_cons.mp h with ⟨d, -, hall⟩ | h
    · obtain ⟨flag, hflag⟩ := hall v (mem_append_right _ mem_cons_self)
      exact absurd hflag (hv.not_switches flag)
    · exact ih h

/-- A word in front for which no flag waits and that does not wait itself. -/
theorem admissible_cons (hg : ∀ d, ¬ Asks s g d) :
    Admissible s w (g :: gs) ↔ (∀ word, g = .dashed word → ∃ d, Refers s word d) ∧
      (∀ argument, g = .plain argument → ∃ operands, Expands w argument operands) ∧
      Admissible s w gs := by
  have hawaited : ∀ front, Awaited s (g :: front) → Awaited s front := by
    intro front h
    rcases awaited_cons.mp h with ⟨d, hasks, -⟩ | h
    · exact absurd hasks (hg d)
    · exact h
  constructor
  · rintro ⟨hdeclared, hvalued, hexpandable⟩
    refine ⟨fun word hword => hdeclared word (hword ▸ mem_cons_self), ?_,
      fun word hword => hdeclared word (mem_cons_of_mem _ hword), ?_, ?_⟩
    · rintro argument rfl
      refine hexpandable [] argument gs rfl ?_
      rintro ⟨_, _, _, -, -, hsuffix⟩
      cases suffix_nil.mp hsuffix
    · exact fun g' d back hasks hsuffix =>
        hvalued g' d back hasks (hsuffix.trans (suffix_cons _ _))
    · rintro front argument back rfl hfront
      exact hexpandable (g :: front) argument back rfl fun h => hfront (hawaited front h)
  · rintro ⟨hdeclared, hexpands, hlater⟩
    refine ⟨fun word hword => ?_, fun g' d back hasks hsuffix => ?_, ?_⟩
    · rcases mem_cons.mp hword with hword | hword
      · exact hdeclared word hword.symm
      · exact hlater.declared word hword
    · rcases suffix_cons_iff.mp hsuffix with heq | hsuffix
      · cases heq
        exact absurd hasks (hg d)
      · exact hlater.valued g' d back hasks hsuffix
    · intro front argument back heq hfront
      cases front with
      | nil =>
        cases heq
        exact hexpands argument rfl
      | cons g' front =>
        cases heq
        exact hlater.expandable front argument back rfl fun h => hfront (h.append [_])

theorem Offers.unique {text' : Text} (h : Offers s g text) (h' : Offers s g text') :
    text = text' := by
  cases h <;> cases h' <;> rfl

variable {rest : List Given}

private theorem suffix_cases {back : List Given} (h : g :: back <:+ gs ++ v :: rest) :
    g ∈ gs ∨ g = v ∨ g :: back <:+ rest := by
  induction gs with
  | nil =>
    rcases suffix_cons_iff.mp h with heq | h
    · exact .inr (.inl (List.cons.inj heq).1)
    · exact .inr (.inr h)
  | cons g' gs ih =>
    rcases suffix_cons_iff.mp h with heq | h
    · exact .inl ((List.cons.inj heq).1 ▸ mem_cons_self)
    · exact (ih h).imp_left (mem_cons_of_mem _)

theorem split_cases {back : List Given} (h : gs ++ v :: rest = front ++ g :: back) :
    g ∈ gs ∨ (g = v ∧ front = gs) ∨ ∃ later, front = gs ++ v :: later ∧
      rest = later ++ g :: back := by
  induction gs generalizing front with
  | nil =>
    cases front with
    | nil =>
      cases h
      exact .inr (.inl ⟨rfl, rfl⟩)
    | cons v' front =>
      cases h
      exact .inr (.inr ⟨front, rfl, rfl⟩)
  | cons g' gs ih =>
    cases front with
    | nil =>
      cases h
      exact .inl mem_cons_self
    | cons g'' front =>
      obtain ⟨rfl, hlater⟩ := List.cons.inj h
      rcases ih hlater with hmem | ⟨rfl, rfl⟩ | ⟨later, rfl, rfl⟩
      · exact .inl (mem_cons_of_mem _ hmem)
      · exact .inr (.inl ⟨rfl, rfl⟩)
      · exact .inr (.inr ⟨later, rfl, rfl⟩)

/-- A flag that takes a value, together with the words up to its value. -/
theorem admissible_valued {switches : List Given} (hasks : Asks s g d)
    (hswitches : AllSwitches s switches) (hoffers : Offers s v text) :
    Admissible s w (g :: (switches ++ v :: rest)) ↔
      (∃ flag, Converts d text flag) ∧ Admissible s w rest := by
  constructor
  · rintro ⟨hdeclared, hvalued, hexpandable⟩
    refine ⟨?_, fun word hword => hdeclared word ?_, fun g' e back hasks' hsuffix => ?_, ?_⟩
    · obtain ⟨switches', v', rest', text', flag, heq, hswitches', hoffers', hconverts⟩ :=
        hvalued g d _ hasks (suffix_refl _)
      rcases split_cases heq with hmem | ⟨rfl, -⟩ | ⟨later, rfl, -⟩
      · obtain ⟨flag', hflag⟩ := hswitches v' hmem
        exact absurd hflag (hoffers'.not_switches flag')
      · exact ⟨flag, hoffers'.unique hoffers ▸ hconverts⟩
      · obtain ⟨flag', hflag⟩ := hswitches' v (mem_append_right _ mem_cons_self)
        exact absurd hflag (hoffers.not_switches flag')
    · exact mem_cons_of_mem _ (mem_append_right _ (mem_cons_of_mem _ hword))
    · refine hvalued g' e back hasks' (hsuffix.trans ?_)
      exact ((suffix_cons _ _).trans (suffix_append _ _)).trans (suffix_cons _ _)
    · rintro front argument back rfl hfront
      refine hexpandable (g :: (switches ++ v :: front)) argument back (by simp) fun h => hfront ?_
      exact Awaited.of_offers hoffers (g :: switches) h
  · rintro ⟨⟨flag, hconverts⟩, hrest⟩
    refine ⟨fun word hword => ?_, fun g' e back hasks' hsuffix => ?_, ?_⟩
    · rcases mem_cons.mp hword with rfl | hword
      · cases hasks with
        | mk h _ => exact ⟨_, h⟩
      rcases mem_append.mp hword with hword | hword
      · obtain ⟨flag', hflag⟩ := hswitches _ hword
        cases hflag with
        | mk h => exact ⟨_, h⟩
      rcases mem_cons.mp hword with rfl | hword
      · cases hoffers with
        | dashed h => exact ⟨_, h⟩
      · exact hrest.declared word hword
    · rcases suffix_cons_iff.mp hsuffix with heq | hsuffix
      · cases heq
        cases hasks.unique hasks'
        exact ⟨switches, v, rest, text, flag, rfl, hswitches, hoffers, hconverts⟩
      rcases suffix_cases hsuffix with hmem | rfl | hsuffix
      · obtain ⟨flag', hflag⟩ := hswitches g' hmem
        exact absurd hflag (hasks'.not_switches flag')
      · exact absurd hasks' (hoffers.not_asks e)
      · exact hrest.valued g' e back hasks' hsuffix
    · intro front argument back heq hfront
      rw [← cons_append] at heq
      rcases split_cases heq with hmem | ⟨-, rfl⟩ | ⟨later, rfl, rfl⟩
      · rcases mem_cons.mp hmem with rfl | hmem
        · cases hasks
        · obtain ⟨flag', hflag⟩ := hswitches _ hmem
          cases hflag
      · exact absurd ⟨g, d, switches, hasks, hswitches, suffix_refl _⟩ hfront
      · refine hrest.expandable later argument back rfl fun h => hfront ?_
        rw [append_cons]
        exact h.append _

theorem forall₂_switches : (∃ set, List.Forall₂ (Switches s) gs set) ↔ AllSwitches s gs := by
  induction gs with
  | nil => exact ⟨fun _ => by simp [AllSwitches], fun _ => ⟨[], .nil⟩⟩
  | cons g gs ih =>
    constructor
    · rintro ⟨_, hset⟩
      cases hset with
      | cons h hset =>
        rintro g' hmem
        rcases mem_cons.mp hmem with rfl | hmem
        · exact ⟨_, h⟩
        · exact ih.mp ⟨_, hset⟩ g' hmem
    · intro h
      obtain ⟨flag, hflag⟩ := h g mem_cons_self
      obtain ⟨set, hset⟩ := ih.mpr fun g' hmem => h g' (mem_cons_of_mem _ hmem)
      exact ⟨flag :: set, .cons hflag hset⟩

theorem Assigned.admissible (h : Assigned s w gs flags operands) : Admissible s w gs := by
  induction h with
  | nil =>
    refine ⟨by simp, fun g d back _ hsuffix => ?_, fun front argument back heq _ => ?_⟩
    · cases suffix_nil.mp hsuffix
    · cases front <;> cases heq
  | @switch g gs flag flags operands h _ ih =>
    refine (admissible_cons fun d hasks => hasks.not_switches flag h).mpr ⟨?_, ?_, ih⟩
    · rintro word rfl
      cases h with
      | mk h => exact ⟨_, h⟩
    · rintro argument rfl
      cases h
  | verbatim h _ ih =>
    refine (admissible_cons (Offers.dashed h).not_asks).mpr ⟨?_, nofun, ih⟩
    rintro word ⟨⟩
    exact ⟨_, h⟩
  | @argument argument gs flags group operands h _ ih =>
    refine (admissible_cons (Offers.plain (s := s) argument).not_asks).mpr ⟨nofun, ?_, ih⟩
    rintro _ ⟨⟩
    exact ⟨group, h⟩
  | valued hasks hswitches hoffers hconverts _ ih =>
    exact (admissible_valued hasks (forall₂_switches.mp ⟨_, hswitches⟩) hoffers).mpr
      ⟨⟨_, hconverts⟩, ih⟩

/-- Flags and operands can be made of words exactly if the words are admissible. -/
theorem exists_assigned_iff :
    (∃ flags operands, Assigned s w gs flags operands) ↔ Admissible s w gs := by
  refine ⟨fun ⟨_, _, h⟩ => h.admissible, ?_⟩
  induction hn : gs.length using Nat.strongRecOn generalizing gs with
  | _ n ih =>
    intro h
    cases gs with
    | nil => exact ⟨[], [], .nil⟩
    | cons g gs =>
      have hone : (∀ d, ¬ Asks s g d) → ∃ flags operands, Assigned s w gs flags operands :=
        fun hg => ih gs.length (by simp [← hn]) rfl ((admissible_cons hg).mp h).2.2
      cases g with
      | plain argument =>
        have hg := (Offers.plain (s := s) argument).not_asks
        obtain ⟨group, hgroup⟩ := ((admissible_cons hg).mp h).2.1 argument rfl
        obtain ⟨flags, operands, hlater⟩ := hone hg
        exact ⟨_, _, .argument hgroup hlater⟩
      | dashed word =>
        obtain ⟨d, hd⟩ := h.declared word mem_cons_self
        rcases hd.1 with rfl | ⟨type, help, rfl⟩
        · obtain ⟨flags, operands, hlater⟩ := hone (Offers.dashed hd).not_asks
          exact ⟨_, _, .verbatim hd hlater⟩
        · by_cases htype : type = .bool
          · subst htype
            obtain ⟨flags, operands, hlater⟩ :=
              hone fun d hasks => hasks.not_switches _ (.mk hd)
            exact ⟨_, _, .switch (.mk hd) hlater⟩
          · obtain ⟨switches, v, rest, text, flag, rfl, hswitches, hoffers, hconverts⟩ :=
              h.valued _ _ gs (.mk hd htype) (suffix_refl _)
            have hrest := ((admissible_valued (.mk hd htype) hswitches hoffers).mp h).2
            obtain ⟨set, hset⟩ := forall₂_switches.mpr hswitches
            obtain ⟨flags, operands, hlater⟩ := ih rest.length (by
              simp only [← hn, length_cons, length_append]; omega) rfl hrest
            exact ⟨_, _, .valued (.mk hd htype) hset hoffers hconverts hlater⟩

end Words

/-! ## Plans of commands -/

/-- A plan that is tolerant if the name of its command begins with an underscore. -/
def tolerated {κ : Type} (c : Char) (plan : Plan κ) : Plan κ :=
  if c = '_' then .tolerant plan else plan

private theorem finish_eq_ok_iff {progress : Progress κ} {simple : Simple κ} :
    progress.finish = .ok simple ↔ progress = ⟨simple, none⟩ := by
  obtain ⟨simple', waiting⟩ := progress
  cases waiting with
  | none => exact ⟨fun h => by cases h; rfl, fun h => by cases h; rfl⟩
  | some d => exact ⟨fun h => absurd h (needsValue_ne_ok d simple), nofun⟩

section Plans

variable {κ : Type} {catalog : Catalog κ} {w : World} {opening : Opening} {name : Word}
  {ending : Ending} {c : Char} {rest : Text} {command : κ}
  (hname : name.value = .ok (c :: rest))
  (hcommand : catalog.find? (if c = '_' then rest else c :: rest) = some command)
include hname hcommand

theorem Command.plan_eq_wrapAll :
    (Command.mk opening name ending).plan catalog w =
      (fun simple => tolerated c (.simple (wrapAll (opening.redirects ++ ending.redirects)
        simple))) <$> (do
          (← ending.modifiers.foldlM (Progress.read w (catalog.specification command))
            ⟨.command command [] [], none⟩).finish) := by
  have hread := Progress.foldlM_read_wrapAll (opening.redirects ++ ending.redirects) w
    (catalog.specification command) ⟨.command command [] [], none⟩ ending.modifiers
  simp only [Progress.wrapAll, wrapAll] at hread
  rw [Command.plan_named hname hcommand, hread]
  cases ending.modifiers.foldlM (Progress.read w (catalog.specification command))
    ⟨.command command [] [], none⟩ with
  | error failure => rfl
  | ok progress =>
    simp only [Functor.map, Except.map, bind, Except.bind]
    rw [Progress.finish_wrapAll]
    cases progress.finish <;> rfl

theorem Command.plan_eq_ok_iff_assigned {p : Plan κ} :
    (Command.mk opening name ending).plan catalog w = .ok p ↔
      ∃ givens flags operands, ending.modifiers.mapM Modifier.given = .ok givens ∧
        Assigned (catalog.specification command) w givens flags operands ∧
        p = tolerated c (.simple (wrapAll (opening.redirects ++ ending.redirects)
          (.command command flags operands))) := by
  rw [Command.plan_eq_wrapAll hname hcommand, Checked.map_eq_ok]
  simp only [Checked.bind_eq_ok, Progress.foldlM_read_eq_ok, finish_eq_ok_iff,
    foldlM_take_eq_ok_iff]
  constructor
  · rintro ⟨simple, ⟨_, ⟨givens, hgivens, waiting, flags, operands, hsteps, rfl⟩, heq⟩, rfl⟩
    cases heq
    exact ⟨givens, flags, operands, hgivens, (steps_iff_assigned _).mp hsteps, rfl⟩
  · rintro ⟨givens, flags, operands, hgivens, hassigned, rfl⟩
    exact ⟨_, ⟨_, ⟨givens, hgivens, none, flags, operands, hassigned.steps, rfl⟩, rfl⟩, rfl⟩

/-- A known command has a plan exactly if its words are admissible, and then the plan has the flags
and operands that the words stand for, inside the redirects. -/
theorem Command.plan_eq_ok_iff :
    ((∃ p, (Command.mk opening name ending).plan catalog w = .ok p) ↔
      ∃ givens, ending.modifiers.mapM Modifier.given = .ok givens ∧
        Admissible (catalog.specification command) w givens) ∧
    ∀ p, (Command.mk opening name ending).plan catalog w = .ok p ↔
      ∃ givens flags operands, ending.modifiers.mapM Modifier.given = .ok givens ∧
        Assigned (catalog.specification command) w givens flags operands ∧
        p = tolerated c (.simple (wrapAll (opening.redirects ++ ending.redirects)
          (.command command flags operands))) := by
  refine ⟨⟨?_, ?_⟩, fun p => Command.plan_eq_ok_iff_assigned hname hcommand⟩
  · rintro ⟨p, hp⟩
    obtain ⟨givens, flags, operands, hgivens, hassigned, -⟩ :=
      (Command.plan_eq_ok_iff_assigned hname hcommand).mp hp
    exact ⟨givens, hgivens, hassigned.admissible⟩
  · rintro ⟨givens, hgivens, hadmissible⟩
    obtain ⟨flags, operands, hassigned⟩ := exists_assigned_iff.mpr hadmissible
    exact ⟨_, (Command.plan_eq_ok_iff_assigned hname hcommand).mpr
      ⟨givens, flags, operands, hgivens, hassigned, rfl⟩⟩

end Plans

/-- A command with a switch `a`, a flag `n` that takes a number, and a wildcard. -/
def sampler : Catalog Unit :=
  ⟨[()], fun _ => ⟨['x'], [.named ['a'] .bool [], .named ['n'] .int [], .wildcard], [], []⟩⟩

/-- The line `_x -n -a 12 -z b > f`: the number comes after a switch, and the word `-z` is an
operand. -/
theorem Command.plan_eq_ok_iff_switch_between :
    (Command.mk .done (.chars ['_', 'x'])
      (.modifier [' '] (.flag (.chars ['n'])) (.modifier [' '] (.flag (.chars ['a']))
        (.modifier [' '] (.arg (.chars ['1', '2'])) (.modifier [' '] (.flag (.chars ['z']))
          (.modifier [' '] (.arg (.chars ['b'])) (.redirect [[' ']]
            (.mk .output (some [' ']) (.chars ['f'])) .done))))))).plan sampler
        ⟨.dir [], [], []⟩ =
      .ok (.tolerant (.simple (.redirect none (some ['f']) (.command ()
        [⟨['a'], .bool true, []⟩, ⟨['n'], .int 12, []⟩] [['-', 'z'], ['b']])))) := by
  have ha : Refers (sampler.specification ()) ['a'] (.named ['a'] .bool []) :=
    ⟨.inr ⟨_, _, rfl⟩, [], _, rfl, by simp⟩
  have hn : Refers (sampler.specification ()) ['n'] (.named ['n'] .int []) :=
    ⟨.inr ⟨_, _, rfl⟩, [.named ['a'] .bool []], _, rfl, by simp⟩
  have hz : Refers (sampler.specification ()) ['z'] .wildcard :=
    ⟨.inl rfl, [.named ['a'] .bool [], .named ['n'] .int []], _, rfl, by simp⟩
  have hnumber : ValueType.int.read? ['1', '2'] = some (.int 12) := by cbv
  have hfile : Expands ⟨.dir [], [], []⟩ ['b'] [['b']] := ⟨[], by cbv, rfl⟩
  exact ((Command.plan_eq_ok_iff (c := '_') rfl rfl).2 _).mpr ⟨_, _, _, rfl,
    .valued (.mk hn (by decide)) (.cons (.mk ha) .nil) (.plain _) (.mk hnumber)
      (.verbatim hz (.argument hfile .nil)), rfl⟩

/-- The only word is an argument, but its directory has a name that cannot be looked for. -/
theorem Command.plan_unexpandable :
    (Command.mk .done (.chars "echo".toList)
      (.modifier [' '] (.arg (.chars "a\x00/*".toList)) .done)).plan utilities
        ⟨.dir [], [], []⟩ = .error (.crash .nulInPath) ∧
    [Modifier.arg (.chars "a\x00/*".toList)].mapM Modifier.given =
      .ok [.plain "a\x00/*".toList] := by
  constructor
  · rw [Command.plan_utility .echo rfl]
    cbv
  · cbv

end CommandShell.Line

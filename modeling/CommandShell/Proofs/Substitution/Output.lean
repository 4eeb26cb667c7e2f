import CommandShell.Proofs.Session.Sequencing
import CommandShell.Proofs.Substitution.Splicing

/-!
# A substituted output

A line with a substitution is read twice: once to find what is to be run, and once more with the
output in its place. Here the output of `cat` is put after `echo`. What `echo` is given are the
words of the file, expanded, exactly when the text of the file is inert.
-/

namespace CommandShell.Line

open Shell List

/-! ## The plan of an `echo` -/

/-- What an argument becomes: the paths that it fits, or itself. -/
def Becomes (w : World) (word : Text) (group : List Text) : Prop :=
  group = [word] ∨ (Expansion.paths w word = .ok group ∧ group ≠ [])

theorem foldl_addOperand {κ : Type} (command : κ) (flags : List Flag) (operands more : List Text) :
    more.foldl (fun simple operand => simple.addOperand operand) (.command command flags operands) =
      Simple.command command flags (operands ++ more) := by
  induction more generalizing operands with
  | nil => rw [append_nil, foldl_nil]
  | cons operand more ih => rw [foldl_cons, Simple.addOperand, ih, append_assoc]; rfl

def echoed (operands : List Text) : Progress Utility := ⟨.command .echo [] operands, none⟩

section Echo

variable {w : World}

private theorem read_echoed {modifier : Modifier} {word : Text} (hvalue : modifier.value = .ok word)
    (operands : List Text) : (∃ group, Becomes w word group ∧
      (echoed operands).read w (utilities.specification .echo) modifier =
        .ok (echoed (operands ++ group))) ∨
    ∃ cause, Expansion.paths w word = .error cause ∧
      (echoed operands).read w (utilities.specification .echo) modifier =
        .error (.crash cause) := by
  cases modifier with
  | flag name =>
    cases hname : name.value with
    | error cause =>
      rw [Modifier.value, hname] at hvalue
      cases hvalue
    | ok n =>
      rw [Modifier.value, hname] at hvalue
      cases hvalue
      refine .inl ⟨['-' :: n], .inl rfl, ?_⟩
      rw [Progress.read, hname]
      rfl
  | arg value =>
    rw [Modifier.value] at hvalue
    rw [Progress.read, hvalue]
    cases hpaths : Expansion.paths w word with
    | error cause =>
      refine .inr ⟨cause, rfl, ?_⟩
      change Progress.readArgument w word (echoed operands) = _
      rw [Progress.readArgument, hpaths]
      rfl
    | ok paths =>
      refine .inl ⟨if paths.isEmpty then [word] else paths, ?_, ?_⟩
      · cases paths with
        | nil => exact .inl rfl
        | cons path paths => exact .inr ⟨hpaths, by simp⟩
      · change Progress.readArgument w word (echoed operands) = _
        rw [Progress.readArgument, hpaths]
        simp only [echoed, foldl_addOperand]
        rfl

private theorem foldlM_echoed {modifiers : List Modifier} {words : List Text}
    (hvalues : modifiers.map Modifier.value = words.map .ok) (operands : List Text) :
    (∃ groups, List.Forall₂ (Becomes w) words groups ∧
      modifiers.foldlM (Progress.read w (utilities.specification .echo)) (echoed operands) =
        .ok (echoed (operands ++ groups.flatten))) ∨
    ∃ word ∈ words, ∃ cause, Expansion.paths w word = .error cause ∧
      modifiers.foldlM (Progress.read w (utilities.specification .echo)) (echoed operands) =
        .error (.crash cause) := by
  induction words generalizing modifiers operands with
  | nil =>
    rw [map_nil, map_eq_nil_iff] at hvalues
    subst hvalues
    exact .inl ⟨[], .nil, by rw [flatten_nil, append_nil]; rfl⟩
  | cons word words ih =>
    rw [map_cons] at hvalues
    obtain ⟨modifier, modifiers, rfl, hvalue, hvalues⟩ := map_eq_cons_iff.mp hvalues
    rcases read_echoed hvalue operands with ⟨group, hgroup, hread⟩ | ⟨cause, hpaths, hread⟩
    · have hstep := ih hvalues (operands ++ group)
      rw [foldlM_cons, hread]
      rcases hstep with ⟨groups, hgroups, hfold⟩ | ⟨word', hmem, cause, hpaths, hfold⟩
      · refine .inl ⟨group :: groups, .cons hgroup hgroups, ?_⟩
        rw [flatten_cons, ← append_assoc]
        exact hfold
      · exact .inr ⟨word', mem_cons_of_mem word hmem, cause, hpaths, hfold⟩
    · refine .inr ⟨word, mem_cons_self, cause, hpaths, ?_⟩
      rw [foldlM_cons, hread]
      rfl

theorem Script.Echoes.plan_eq {script : Script} {words : List Text} (h : script.Echoes words) :
    (∃ groups, List.Forall₂ (Becomes w) words groups ∧
      script.plan utilities w = .ok (.simple (.command .echo [] groups.flatten))) ∨
    ∃ word ∈ words, ∃ cause, Expansion.paths w word = .error cause ∧
      script.plan utilities w = .error (.crash cause) := by
  obtain ⟨opening, name, ending, hline, hopening, hname, hending, hwords⟩ := h
  have hfind : utilities.find? ('e' :: "cho".toList) = some .echo := by decide
  have hplan : script.plan utilities w = do
      let progress ← ending.modifiers.foldlM (Progress.read w (utilities.specification .echo))
        (echoed [])
      return .simple (← progress.finish) := by
    rw [Script.plan, hline]
    exact (Command.plan_named hname hfind).trans (by rw [hopening, hending]; rfl)
  rw [hplan]
  rcases foldlM_echoed hwords [] with ⟨groups, hgroups, hfold⟩ | ⟨word, hmem, cause, hpaths, hfold⟩
  · exact .inl ⟨groups, hgroups, by rw [hfold]; rfl⟩
  · exact .inr ⟨word, hmem, cause, hpaths, by rw [hfold]; rfl⟩

end Echo

/-! ## The first reading -/

/-- A file name that stands for itself in a line. -/
structure PlainName (f : Text) : Prop where
  solid : f ≠ []
  plain : ∀ c ∈ f, Token.isPlain c = true ∧ c ≠ '\t' ∧ c ≠ '\\'
  literal : Wildcard.hasAny f = false

def catLine (f : Text) : Text := "cat ".toList ++ f

def echoLine (f : Text) : Text := "echo ".toList ++ '\x60' :: (catLine f ++ ['\x60'])

def catCommand (f : Text) : Command :=
  .mk .done (.chars "cat".toList) (.modifier [' '] (.arg (.chars f)) .done)

def echoCommand (f : Text) : Command :=
  .mk .done (.chars "echo".toList) (.modifier [' ']
    (.arg (.substitution (.run none (.command (catCommand f)) none))) .done)

section First

variable {f : Text} (hf : PlainName f)
include hf

theorem PlainName.unquoted : ∀ c ∈ f, isQuote c = false := by
  intro c hc
  have hplain := (hf.plain c hc).1
  by_contra hquote
  simp only [isQuote, Bool.not_eq_false, Bool.or_eq_true, decide_eq_true_eq] at hquote
  rcases hquote with rfl | rfl <;> cases hplain

theorem PlainName.escape_eq : escape f = f := mark_of_neg hf.unquoted

theorem PlainName.unescape_eq : unescape f = f := by
  have hcollapse := collapse_append_of_ne (fun c hc => (hf.plain c hc).2.2) []
  rw [append_nil] at hcollapse
  rw [← hf.escape_eq, unescape_escape, hf.escape_eq, hcollapse]
  exact append_nil f

theorem PlainName.lexed {x : Text} {ts : List Token} (hx : ∀ c, x.head? = some c → isBody c = false)
    (h : Lexed x ts) : Lexed ("cat".toList ++ ([' '] ++ (f ++ x)))
      (.chars "cat".toList :: .space [' '] :: .chars f :: ts) := by
  obtain ⟨c, rest, hcons⟩ := exists_cons_of_ne_nil hf.solid
  have hc := hf.plain c (by rw [hcons]; exact mem_cons_self)
  have hname : Lexed (f ++ x) (.chars f :: ts) := by
    have hbody : ∀ c ∈ f, isBody c = true := fun c hc => by simp [isBody, (hf.plain c hc).1]
    have hchars := Lexed.chars hbody hx ⟨c, by rw [hcons]; exact mem_cons_self, hc.2.1⟩ h
    rwa [hf.escape_eq] at hchars
  have hblank : ∀ c, (f ++ x).head? = some c → Token.isBlank c = false := by
    rw [hcons]
    rintro d ⟨⟩
    exact isBlank_of_isBody (by simp [isBody, hc.1]) hc.2.1
  have hspace : Lexed ([' '] ++ (f ++ x)) (.space [' '] :: .chars f :: ts) :=
    .space (by simp) (by simp [Token.isBlank]) hblank (by simp) hname
  exact .chars (all_eq_true.mp (by decide)) (by simp [isBody, Token.isPlain, isQuote])
    ⟨'c', by decide, by decide⟩ hspace

theorem PlainName.read_catLine :
    Script.ofLine? (catLine f) = some ⟨some (.command (catCommand f)), []⟩ := by
  have hlexed := hf.lexed (by simp) Lexed.nil
  rw [append_nil] at hlexed
  have hescape : catLine f = escape ("cat".toList ++ ([' '] ++ f)) := by
    rw [escape, mark_append, mark_append, ← escape, hf.escape_eq]
    rfl
  rw [Script.ofLine?, hescape, hlexed.ofLine_eq]
  cbv

theorem PlainName.read_echoLine :
    Script.ofLine? (echoLine f) = some ⟨some (.command (echoCommand f)), []⟩ := by
  have hback : Lexed ['\x60'] [.backquote] := .special rfl rfl .nil
  have hcat := hf.lexed (by simp [isBody, Token.isPlain, isQuote, Token.ofSpecial?]) hback
  have hspace : Lexed ([' '] ++ '\x60' :: _) (.space [' '] :: .backquote :: _) :=
    .space (by simp) (by simp [Token.isBlank]) (by simp [Token.isBlank]) (by simp)
      (.special rfl rfl hcat)
  have hecho : Lexed ("echo".toList ++ _) (.chars "echo".toList :: _) :=
    .chars (all_eq_true.mp (by decide)) (by simp [isBody, Token.isPlain, isQuote])
      ⟨'e', by decide, by decide⟩ hspace
  have hescape : echoLine f = escape ("echo".toList ++ ([' '] ++ '\x60' ::
      ("cat".toList ++ ([' '] ++ (f ++ ['\x60']))))) := by
    have happend : ∀ s t, escape (s ++ t) = escape s ++ escape t := mark_append isQuote
    have hcons : ∀ s, escape ('\x60' :: s) = '\x60' :: escape s := mark_cons_of_neg rfl
    rw [happend, happend, hcons, happend, happend, happend, hf.escape_eq]
    change "echo ".toList ++ '\x60' :: (("cat ".toList ++ f) ++ ['\x60']) = _
    rw [append_assoc]
    rfl
  rw [Script.ofLine?, hescape, hecho.ofLine_eq]
  cbv

end First

/-! ## Running `cat` -/

section Cat

variable {f : Text} {w : World}

theorem paths_of_hasAny (h : Wildcard.hasAny f = false) (w : World) :
    Expansion.paths w f = .ok [] ∨ Expansion.paths w f = .ok [f] := by
  have hmatching : Expansion.matching w f false = .ok (Expansion.existing w f) := by
    rw [Expansion.matching]
    simp [h, pure, Except.pure]
  have hexisting : Expansion.existing w f = [] ∨ Expansion.existing w f = [f] := by
    unfold Expansion.existing
    dsimp only
    split_ifs
    · exact .inr rfl
    · exact .inl rfl
    · exact .inr rfl
    · exact .inl rfl
  unfold Expansion.paths
  rw [hmatching]
  rcases hexisting with h | h
  · exact .inl (by simp [h, bind, Except.bind, pure, Except.pure])
  · exact .inr (by simp [h, bind, Except.bind, pure, Except.pure])

theorem PlainName.plan_catLine (hf : PlainName f) (w : World) :
    plan utilities w (catLine f) = .ok (.simple (.command .cat [] [f])) := by
  have hname : (Word.chars "cat".toList).value = .ok ('c' :: "at".toList) := by cbv
  have hfind : utilities.find? ('c' :: "at".toList) = some .cat := by decide
  have hvalue : (Word.chars f).value = .ok f := congrArg Except.ok hf.unescape_eq
  have hread : Progress.read w (utilities.specification .cat) ⟨.command Utility.cat [] [], none⟩
      (.arg (.chars f)) = .ok ⟨.command .cat [] [f], none⟩ := by
    rw [Progress.read, hvalue]
    change Progress.readArgument w f ⟨.command Utility.cat [] [], none⟩ = _
    rw [Progress.readArgument]
    rcases paths_of_hasAny hf.literal w with h | h
    · rw [h]
      rfl
    · rw [h]
      rfl
  rw [plan, Script.ofLine, hf.read_catLine]
  refine (Command.plan_named hname hfind).trans ?_
  change (List.foldlM (Progress.read w (utilities.specification .cat))
    ⟨.command Utility.cat [] [], none⟩ [.arg (.chars f)] >>= _) = _
  rw [foldlM_cons, hread]
  rfl

theorem unifyLineEnds_eq {s : Text} (h : '\r' ∉ s) : Text.unifyLineEnds s = s := by
  fun_induction Text.unifyLineEnds s with
  | case1 => rfl
  | case2 rest ih => simp at h
  | case3 rest hrest ih => simp at h
  | case4 c rest hc hc' ih => rw [ih fun hr => h (mem_cons_of_mem c hr)]

variable {out : Text} {place : Location}

private theorem on_cat (hopen : w.openToRead f = .ok place)
    (hout : Content.text? (w.content place) = some out) :
    (Cat.run ⟨[f]⟩).on ⟨w, .empty, .empty⟩ = (.ok (), ⟨w, .empty, .ended out⟩) := by
  have hread : (Action.readFile f).on ⟨w, .empty, .empty⟩ = (.ok out, ⟨w, .empty, .empty⟩) := by
    unfold Action.readFile Action.openFile
    rw [Action.on_bind, Action.on_bind, Action.on_world]
    dsimp only
    rw [Action.on_bind, Action.on_ofCall, hopen]
    dsimp only [Except.mapError]
    rw [Action.on_pure]
    dsimp only
    rw [Action.decode, hout]
    rfl
  have hwrite : (Action.write out).on ⟨w, .empty, .empty⟩ = (.ok (), ⟨w, .empty, .ended out⟩) := by
    have hempty : Stream.empty.write out = .ok (.ended out) := Stream.write_ended [] out
    unfold Action.write
    rw [Action.on_onOutput, hempty]
  have hexhausted : Action.inputIsExhausted.on ⟨w, .empty, .empty⟩ =
      (.ok true, ⟨w, .empty, .empty⟩) := rfl
  unfold Cat.run
  rw [Action.on_bind, hexhausted]
  change (List.forM [f] fun file => do Action.write (← Action.readFile file)).on _ = _
  rw [List.forM, Action.on_bind, Action.on_bind, hread]
  dsimp only
  rw [hwrite]
  rfl

theorem PlainName.on_substitute (hf : PlainName f) (hopen : w.openToRead f = .ok place)
    (hout : Content.text? (w.content place) = some out) :
    (substitute (catLine f)).on w = (.ok (splice out), w) := by
  obtain ⟨result, job', w', input', added, hruns⟩ := Job.appends_command (.cat ⟨[f]⟩) w .empty
  have hrun := (Job.run_command (.cat ⟨[f]⟩) ⟨w, .empty, .empty⟩).symm.trans (hruns.run_eq [])
  rw [Invocation.run, on_cat hopen hout] at hrun
  cases hrun
  have hjob := Job.on_outputWith_of_runs hruns rfl
  have hbuild : (Plan.build (.simple (.command .cat [] [f])) .both).on w =
      (.ok (.command (.cat ⟨[f]⟩)), w) := rfl
  unfold substitute
  rw [on_bind, on_get]
  dsimp only
  rw [on_bind, on_ofChecked, hf.plan_catLine]
  dsimp only
  rw [on_bind, hbuild]
  dsimp only
  rw [on_bind]
  rw [Plan.usualInput, hjob]
  · rfl
  · simp

theorem PlainName.on_substituted (hf : PlainName f) (hopen : w.openToRead f = .ok place)
    (hout : Content.text? (w.content place) = some out) :
    (substituted (echoLine f)).on w = (.ok ("echo ".toList ++ splice out), w) := by
  unfold substituted
  rw [Script.ofLine, hf.read_echoLine, on_bind, on_ofChecked]
  change (Script.tree ⟨some (.command (echoCommand f)), []⟩).substituted.on w = _
  have htree : (Script.tree ⟨some (.command (echoCommand f)), []⟩).substituted =
      (do return "echo ".toList ++ (← substitute (catLine f))) := by
    simp [Script.tree, gapLeaves, spaceLeaf, Tree.substituted, Tree.substitutedAll,
      Tree.innerLine?, Tree.hasLabel, Tree.text, Token.text, echoCommand, catCommand, catLine]
  rw [htree, on_bind, hf.on_substitute hopen hout]
  rfl

/-- The plan of `echo` with a substituted `cat`: the file is put after `echo` and the line is read
again. It is read as an `echo` of the words of the file exactly when the text of the file is inert,
and then each argument is a word, or the paths that it fits. -/
theorem planOf_echo_cat {place : Location} {out : Text} (hf : PlainName f)
    (hopen : w.openToRead f = .ok place) (hout : Content.characters? (w.content place) = some out)
    (hsolid : Text.trim out ≠ []) (hreturn : '\r' ∉ out) (hback : '\x60' ∉ out) :
    (planOf utilities (echoLine f)).on w = (plan utilities w ("echo ".toList ++ splice out), w) ∧
    ((∃ script, Script.ofLine? ("echo ".toList ++ splice out) = some script ∧
      script.Echoes (wordsOf out)) ↔ Inert out) ∧
    (Inert out →
      (∃ groups, List.Forall₂ (Becomes w) (wordsOf out) groups ∧
        plan utilities w ("echo ".toList ++ splice out) =
          .ok (.simple (.command .echo [] groups.flatten))) ∨
      ∃ word ∈ wordsOf out, ∃ cause, Expansion.paths w word = .error cause ∧
        plan utilities w ("echo ".toList ++ splice out) = .error (.crash cause)) := by
  have htext : Content.text? (w.content place) = some out := by
    rw [Content.text?, hout, Option.map_some, unifyLineEnds_eq hreturn]
  refine ⟨?_, echoes_iff hback hreturn hsolid, fun hinert => ?_⟩
  · unfold planOf
    rw [on_bind, hf.on_substituted hopen htext]
    dsimp only
    rw [on_bind, on_get]
    exact on_ofChecked _ w
  · obtain ⟨script, hread, hechoes⟩ := (echoes_iff hback hreturn hsolid).mpr hinert
    have hplan : plan utilities w ("echo ".toList ++ splice out) = script.plan utilities w := by
      rw [plan, Script.ofLine, hread]
      rfl
    rw [hplan]
    exact hechoes.plan_eq

end Cat

/-! ## Two files -/

def worldWith (out : Text) : World := ⟨.dir [(['f'], .file (Content.ofText out))], [], []⟩

theorem plainName_f : PlainName ['f'] :=
  ⟨by decide, forall_mem_singleton.mpr (by decide), by decide⟩

def quotingText : Text := ['a', ' ', '"', '\\', 'b', '"', '\n', '\t', '-', '\'', 'c']

/-- Quotes and backslashes arrive as they are. -/
theorem planOf_echo_cat_quoting :
    Inert quotingText ∧ ∃ script,
      Script.ofLine? ("echo ".toList ++ splice quotingText) = some script ∧
        script.Echoes [['a'], ['"', '\\', 'b', '"'], ['-', '\'', 'c']] := by
  have hinert : Inert quotingText := ⟨by simp [quotingText], by decide, by cbv, by cbv⟩
  have hopen : (worldWith quotingText).openToRead ['f'] = .ok [['f']] := by cbv
  have hsolid : Text.trim quotingText = quotingText := by cbv
  have hwords : wordsOf quotingText = [['a'], ['"', '\\', 'b', '"'], ['-', '\'', 'c']] := by cbv
  rw [← hwords]
  exact ⟨hinert, (planOf_echo_cat plainName_f hopen (by cbv) (hsolid ▸ by decide) (by decide)
    (by decide)).2.1.mpr hinert⟩

/-- A semicolon in the file ends the command. -/
theorem planOf_echo_cat_semicolon :
    (planOf utilities (echoLine ['f'])).on (worldWith ['a', ';', 'b']) =
      (.error (.complaint (.unknownCommand ['b'])), worldWith ['a', ';', 'b']) := by
  have hopen : (worldWith ['a', ';', 'b']).openToRead ['f'] = .ok [['f']] := by cbv
  have htext : Content.text? ((worldWith ['a', ';', 'b']).content [['f']]) =
      some ['a', ';', 'b'] := by cbv
  have hread : Script.ofLine? ("echo ".toList ++ splice ['a', ';', 'b']) =
      some ⟨some (.sequence (.commands (.mk .done (.chars "echo".toList)
        (.modifier [' '] (.arg (.chars ['a'])) .done)) none none
        (.mk .done (.chars ['b']) .done))), []⟩ := by decide +kernel
  have hechoes : (Command.mk .done (.chars "echo".toList) (.modifier [' '] (.arg (.chars ['a']))
      .done)).plan utilities (worldWith ['a', ';', 'b']) =
      .ok (.simple (.command .echo [] [['a']])) := by
    rw [Command.plan_utility .echo rfl]
    cbv
  have hunknown : (Command.mk .done (.chars ['b']) .done).plan utilities
      (worldWith ['a', ';', 'b']) = .error (.complaint (.unknownCommand ['b'])) := by
    have hname : (Word.chars ['b']).value = .ok ['b'] := by cbv
    have hnone : utilities.find? ['b'] = none := by decide
    rw [Command.plan, hname]
    simp only [orComplain, pure, Except.pure, bind, Except.bind, Char.reduceEq, if_false, hnone]
    rfl
  unfold planOf
  rw [on_bind, plainName_f.on_substituted hopen htext]
  dsimp only
  rw [on_bind, on_get]
  dsimp only
  rw [on_ofChecked, plan, Script.ofLine, hread]
  change (Sequence.plan utilities _ (.commands _ none none _), _) = _
  rw [Sequence.plan, hechoes, hunknown]
  rfl

end CommandShell.Line

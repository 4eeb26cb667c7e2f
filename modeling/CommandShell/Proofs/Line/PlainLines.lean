import CommandShell.Line.Substitution
import CommandShell.Proofs.Line.Pieces
import CommandShell.Proofs.Plan.Assembly

/-!
# Lines without substitutions

A line without backquotes is planned as it stands, but for its line breaks. If its plan is made of
the commands of the shell, then its first command does not begin with a tab, so two such lines can
be put together with a semicolon: the plan is the sequence of their plans.
-/

namespace CommandShell

/-! ## Substitution -/

namespace Tree

private theorem backquote_mem_of_subcommand {children : List Tree}
    (h : (node .subcommand children).Conforms) : .backquote ∈ tokensOf children := by
  cases h with
  | node e known matched below =>
    rw [Rule.alternatives, List.mem_singleton] at known
    subst known
    cases matched with
    | seq first last =>
      cases last with
      | symbol fits =>
        cases fits
        simp [tokensOf, tokens]

mutual

theorem substituted_eq (t : Tree) (ht : t.Conforms) (h : .backquote ∉ t.tokens) :
    t.substituted = pure t.text := by
  cases t with
  | leaf token | endOfLine => simp [substituted, text, tokens]
  | node rule children =>
    have hbelow : ∀ t ∈ children, t.Conforms := by
      cases ht with
      | node e known matched below => exact below
    have hall := substitutedAll_eq children hbelow h
    cases rule with
    | subcommand => exact absurd (backquote_mem_of_subcommand ht) h
    | _ => exact hall

theorem substitutedAll_eq (ts : List Tree) (hts : ∀ t ∈ ts, t.Conforms)
    (h : .backquote ∉ tokensOf ts) :
    substitutedAll ts = pure ((tokensOf ts).flatMap Token.text) := by
  cases ts with
  | nil => rfl
  | cons t ts =>
    rw [tokensOf, List.mem_append, not_or] at h
    rw [substitutedAll, substituted_eq t (hts t List.mem_cons_self) h.1,
      substitutedAll_eq ts (fun t ht => hts t (List.mem_cons_of_mem _ ht)) h.2]
    simp [tokensOf, text]

end

end Tree

namespace Line

/-- A line as it is read: its line breaks leave no trace. -/
def unbroken (line : Text) : Text := line.filter (!Token.isLineBreak ·)

open Shell

variable {κ : Type} {script : Script} {line : Text} {catalog : Catalog κ} {p : Plan κ} {w : World}

theorem Script.tokens_of_ofTokens? {ts : List Token} (h : Script.ofTokens? ts = some script) :
    script.tree.tokens = ts := by
  obtain ⟨-, hterminals⟩ := Script.forms_of_ofTokens? h
  rw [Tree.tokens_eq_filterMap, hterminals, List.filterMap_append, List.filterMap_map]
  simp [Tree.Terminal.token?, Function.comp_def]

theorem Script.tokens_of_ofLine? (h : Script.ofLine? line = some script) :
    script.tree.tokens = Token.ofLine line :=
  Script.tokens_of_ofTokens? h

theorem substituted_of_plain (h : '\x60' ∉ line) :
    substituted line = ofChecked (Script.ofLine line) >>= fun _ => pure (unbroken line) := by
  unfold substituted Script.ofLine
  cases hread : Script.ofLine? line with
  | none => rfl
  | some script =>
    obtain ⟨hconforms, -⟩ := Script.forms_of_ofTokens? hread
    have htokens := Script.tokens_of_ofLine? hread
    have hplain : .backquote ∉ script.tree.tokens :=
      htokens ▸ backquote_not_mem_ofLine h
    change script.tree.substituted = pure _
    rw [Tree.substituted_eq _ hconforms hplain, Tree.text, htokens, Token.text_ofLine]
    rfl

theorem on_planOf (catalog : Catalog κ) (h : '\x60' ∉ line) (w : World) :
    (planOf catalog line).on w =
      (Script.ofLine line >>= fun _ => plan catalog w (unbroken line), w) := by
  unfold planOf
  rw [substituted_of_plain h, bind_assoc, on_bind, on_ofChecked]
  cases Script.ofLine line with
  | error failure => rfl
  | ok script =>
    dsimp only
    rw [pure_bind, on_bind, on_get]
    exact on_ofChecked _ w

theorem unbroken_eq (hreturn : '\r' ∉ line) (hfeed : '\n' ∉ line) : unbroken line = line := by
  apply List.filter_eq_self.mpr
  intro c hc
  have hr : c ≠ '\r' := fun h => hreturn (h ▸ hc)
  have hn : c ≠ '\n' := fun h => hfeed (h ▸ hc)
  simp [Token.isLineBreak, hr, hn]

/-- Without backquotes and line breaks there is nothing to substitute: reading the line, writing
its tree down again and planning the text gives the plan of the line itself or the same failure,
and leaves the world alone. -/
theorem planOf_eq_plan {κ : Type} (catalog : Catalog κ) (w : World) (line : Text)
    (hplain : '\x60' ∉ line) (hreturn : '\r' ∉ line) (hfeed : '\n' ∉ line) :
    (planOf catalog line).on w = (plan catalog w line, w) := by
  rw [on_planOf catalog hplain, unbroken_eq hreturn hfeed]
  unfold plan
  cases Script.ofLine line with
  | error failure => rfl
  | ok script => rfl

/-- Quotes, an escape and a tab survive the way through the tree. -/
theorem planOf_eq_plan_quoting :
    ('\x60' ∉ "echo \"a;\tb\"\\'c | wc -l >f".toList ∧
      '\r' ∉ "echo \"a;\tb\"\\'c | wc -l >f".toList ∧
      '\n' ∉ "echo \"a;\tb\"\\'c | wc -l >f".toList) ∧
    (planOf utilities "echo \"a;\tb\"\\'c | wc -l >f".toList).on ⟨.dir [], [], []⟩ =
      (plan utilities ⟨.dir [], [], []⟩ "echo \"a;\tb\"\\'c | wc -l >f".toList,
        ⟨.dir [], [], []⟩) :=
  ⟨⟨by decide, by decide, by decide⟩,
    planOf_eq_plan utilities _ _ (by decide) (by decide) (by decide)⟩

theorem plan_of_planOf (h : '\x60' ∉ line) (hp : ((planOf catalog line).on w).1 = .ok p) :
    (planOf catalog line).on w = (.ok p, w) ∧ plan catalog w (unbroken line) = .ok p := by
  rw [on_planOf catalog h] at hp ⊢
  obtain ⟨script, -, hplan⟩ := Checked.bind_eq_ok.mp hp
  exact ⟨congrArg (·, w) hp, hplan⟩

theorem on_planOf_of_script (hplain : '\x60' ∉ line) (hbreak : unbroken line = line)
    (hread : Script.ofLine? line = some script) (hplan : script.plan catalog w = .ok p) :
    (planOf catalog line).on w = (.ok p, w) := by
  rw [on_planOf catalog hplain, hbreak, plan, Script.ofLine, hread]
  exact congrArg (·, w) hplan

theorem Sequence.plan_commands {left right : Command} (before after : Option Text) {q : Plan κ}
    (hl : left.plan catalog w = .ok p) (hr : right.plan catalog w = .ok q) :
    (Sequence.commands left before after right).plan catalog w = .ok (.seq p q) := by
  rw [Sequence.plan, hl, hr]
  rfl

theorem plan_of_sequence {left right : Command} (before after : Option Text) {q : Plan κ}
    (hread : Script.ofLine? line = some ⟨some (.sequence (.commands left before after right)), []⟩)
    (hl : left.plan catalog w = .ok p) (hr : right.plan catalog w = .ok q) :
    plan catalog w line = .ok (.seq p q) :=
  (plan_of_ofLine? catalog w hread).trans (Sequence.plan_commands before after hl hr)

/-! ## The commands of the shell -/

@[simp] private theorem find?_utilities_name (utility : Utility) :
    utilities.find? utility.specification.name = some utility := by
  cases utility <;> decide

/-- A command of the shell is found by its name, before which there is no underscore. -/
theorem Command.plan_utility {opening : Opening} {name : Word} {ending : Ending}
    (utility : Utility) (hname : name.value = .ok utility.specification.name) :
    (Command.mk opening name ending).plan utilities w = (do
      let progress ← ending.modifiers.foldlM (Progress.read w utility.specification)
        ⟨(opening.redirects ++ ending.redirects).foldl Redirect.wrap (.command utility [] []), none⟩
      return .simple (← progress.finish)) := by
  obtain ⟨c, rest, hstart, hc⟩ : ∃ c rest, utility.specification.name = c :: rest ∧ c ≠ '_' := by
    cases utility <;> exact ⟨_, _, rfl, by decide⟩
  have hfind := find?_utilities_name utility
  rw [hstart] at hname hfind
  rw [Command.plan_named hname (by rwa [if_neg hc])]
  simp only [if_neg hc]
  rfl

/-! ## Tabs

A tab at the beginning of a line can belong to the first word, and only there: after a semicolon
and a blank it is a blank. -/

theorem head?_unescape_tab (t : Text) : (unescape ('\t' :: t)).head? = some '\t' := by
  have hpair : ∀ a b c s, a ≠ '\t' →
      (Text.replacePair a b c ('\t' :: s)).head? = some '\t' ∧
        ∃ s', Text.replacePair a b c ('\t' :: s) = '\t' :: s' := by
    intro a b c s ha
    cases s with
    | nil => exact ⟨rfl, [], rfl⟩
    | cons x s => simp [Text.replacePair, ha.symm]
  unfold unescape
  obtain ⟨-, s, hs⟩ := hpair '\\' '\'' '\'' t (by decide)
  obtain ⟨-, s', hs'⟩ := hpair '\\' '"' '"' s (by decide)
  rw [hs, hs']
  exact (hpair _ _ _ s' (by decide)).1

theorem Quoted.head?_tokens (q : Quoted) (t : Text) : q.tree.tokens.head? ≠ some (.chars t) := by
  cases q with
  | mk quote body => cases quote <;> simp [Quote.token]

theorem head?_append_value (front later : Except Complaint Text) {v : Text}
    (hv : (do return (← front) ++ (← later)) = Except.ok v)
    (hfront : ∀ u, front = .ok u → u.head? = some '\t') : v.head? = some '\t' := by
  cases front with
  | error cause => cases hv
  | ok u =>
    cases later with
    | error cause => cases hv
    | ok u' =>
      cases hv
      rw [List.head?_append, hfront u rfl]
      rfl

theorem Word.head?_value {t : Text} : (word : Word) → {v : Text} →
    word.tree.tokens.head? = some (.chars ('\t' :: t)) → word.value = .ok v →
    v.head? = some '\t'
  | .chars s, v, hword, hv => by
    cases hword
    cases hv
    exact head?_unescape_tab t
  | .charsBefore s rest, v, hword, hv => by
    cases hword
    refine head?_append_value (.ok (unescape ('\t' :: t))) rest.value hv fun u hu => ?_
    cases hu
    exact head?_unescape_tab t
  | .stringAfter front last, v, hword, hv => by
    have hfront : front.tree.tokens.head? = some (.chars ('\t' :: t)) := by
      rwa [tree, Tree.tokens, Tree.tokensOf,
        List.head?_append_of_ne_nil _ front.tokens_ne_nil] at hword
    exact head?_append_value front.value last.value hv fun u hu => front.head?_value hfront hu
  | .voidAfter front gap, v, hword, hv => by
    have hfront : front.tree.tokens.head? = some (.chars ('\t' :: t)) := by
      rwa [tree, Tree.tokens, Tree.tokensOf,
        List.head?_append_of_ne_nil _ front.tokens_ne_nil] at hword
    exact head?_append_value front.value (.ok (gapText gap)) hv
      fun u hu => front.head?_value hfront hu
  | .substitutionAfter front inner, v, hword, hv => by
    rw [value] at hv
    cases hfront : front.value with
    | error cause | ok u => rw [hfront] at hv; cases hv
  | .dash, v, hword, hv => by cases hword
  | .dashBefore rest, v, hword, hv => by cases hword
  | .voidBefore gap rest, v, hword, hv => by cases hword
  | .strings (.one first), v, hword, hv | .strings (.more first rest), v, hword, hv => by
    rw [tree, Tree.tokens, Strings.trees, Tree.tokensOf,
      List.head?_append_of_ne_nil _ first.tokens_ne_nil] at hword
    exact absurd hword (first.head?_tokens _)
  | .stringBefore first rest, v, hword, hv => by
    rw [tree, Tree.tokens, Tree.tokensOf,
      List.head?_append_of_ne_nil _ first.tokens_ne_nil] at hword
    exact absurd hword (first.head?_tokens _)
  | .substitution inner, v, hword, hv => by cases hv
  | .substitutionBefore inner rest, v, hword, hv => by cases hv

private theorem find?_utilities_tab (t : Text) : utilities.find? ('\t' :: t) = none := by
  have hnames : ∀ utility ∈ Utility.all.reverse,
      utility.specification.name.head? ≠ some '\t' := by decide
  unfold Catalog.find?
  rw [List.find?_eq_none]
  intro utility hmem hname
  apply hnames utility hmem
  rw [decide_eq_true_eq] at hname
  exact congrArg List.head? hname

theorem Opening.eq_done {opening : Opening} {ts : List Token} {t : Text}
    (h : (Tree.tokensOf opening.trees ++ ts).head? = some (.chars t)) : opening = .done := by
  cases opening with
  | done => rfl
  | space text rest => cases h
  | redirect first rest =>
    cases first with
    | mk direction gap target => cases direction <;> cases h

theorem Command.plan_tab {command : Command} {t : Text} {p : Plan Utility}
    (hcommand : command.tree.tokens.head? = some (.chars ('\t' :: t))) :
    command.plan utilities w ≠ .ok p := by
  cases command with
  | mk opening name ending =>
    rw [tree, Tree.tokens, Tree.tokensOf_append] at hcommand
    obtain rfl := Opening.eq_done hcommand
    rw [Opening.trees, Tree.tokensOf, List.nil_append, Tree.tokensOf, Tree.tokens,
      Tree.tokensOf, Tree.tokensOf, List.append_nil,
      List.head?_append_of_ne_nil _ name.tokens_ne_nil] at hcommand
    intro hplan
    rw [plan] at hplan
    cases hvalue : name.value with
    | error cause => rw [hvalue] at hplan; cases hplan
    | ok v =>
      have hv := name.head?_value hcommand hvalue
      rw [hvalue] at hplan
      cases v with
      | nil => cases hv
      | cons c v =>
        cases hv
        have hnone := find?_utilities_tab v
        simp [orComplain, pure, Except.pure, bind, Except.bind, hnone,
          Checked.complain] at hplan

theorem CommandLine.tokens_ne_nil (l : CommandLine) : l.tree.tokens ≠ [] := by
  induction l using CommandLine.induction with
  | command only => simpa [tree] using only.tokens_ne_nil
  | joined l left right h ihleft _ =>
    obtain ⟨joint, htokens⟩ := h.tokens
    rw [htokens]
    exact List.append_ne_nil_of_left_ne_nil ihleft _

theorem CommandLine.plan_tab {l : CommandLine} {t : Text} {w : World} {p : Plan Utility}
    (hl : l.tree.tokens.head? = some (.chars ('\t' :: t))) : l.plan utilities w ≠ .ok p := by
  induction l using CommandLine.induction generalizing p with
  | command only =>
    simp only [tree, Tree.tokens, Tree.tokensOf, List.append_nil] at hl
    exact Command.plan_tab hl
  | joined l left right h ihleft _ =>
    obtain ⟨joint, htokens⟩ := h.tokens
    obtain ⟨join, hplan⟩ := h.plan utilities w
    rw [htokens, List.head?_append_of_ne_nil _ left.tokens_ne_nil] at hl
    intro hp
    rw [hplan] at hp
    obtain ⟨q, hq, -⟩ := Checked.bind_eq_ok.mp hp
    exact ihleft hl hq

private theorem ofLine_ne_tab {p : Plan Utility} (h : plan utilities w line = .ok p) (t : Text)
    (ts : List Token) : Token.ofLine line ≠ .chars ('\t' :: t) :: ts := by
  obtain ⟨script, l, hread, hline, hp⟩ := script_of_plan h
  intro htab
  have htokens := Script.tokens_of_ofLine? hread
  rw [Script.tree, hline, htab, Tree.tokens] at htokens
  have hhead := congrArg List.head? htokens
  simp only [List.cons_append, List.nil_append, Tree.tokensOf, List.head?_cons] at hhead
  rw [List.head?_append_of_ne_nil _ l.tokens_ne_nil] at hhead
  exact CommandLine.plan_tab hhead hp

theorem planOf_joined {l r : Text} (hl : '\x60' ∉ l) (hr : '\x60' ∉ r) {p q s : Plan Utility}
    (hp : ((planOf utilities l).on w).1 = .ok p) (hq : ((planOf utilities r).on w).1 = .ok q)
    (hs : ((planOf utilities (l ++ " ; ".toList ++ r)).on w).1 = .ok s) :
    (planOf utilities (l ++ " ; ".toList ++ r)).on w = (.ok (p.sequence q), w) := by
  have hjoined : '\x60' ∉ l ++ " ; ".toList ++ r := by simp [hl, hr]
  obtain ⟨-, hp⟩ := plan_of_planOf hl hp
  obtain ⟨-, hq⟩ := plan_of_planOf hr hq
  obtain ⟨hon, hs⟩ := plan_of_planOf hjoined hs
  have hunbroken : unbroken (l ++ " ; ".toList ++ r) =
      unbroken l ++ " ; ".toList ++ unbroken r := by
    rw [unbroken, List.filter_append, List.filter_append]
    rfl
  obtain ⟨script, -, hread, -, -⟩ := script_of_plan hs
  rw [hunbroken] at hread hs
  have hsequence := plan_joined hp hq (by rw [hread]; rfl) (fun h => hl (List.mem_of_mem_filter h))
    (fun h => hr (List.mem_of_mem_filter h)) (ofLine_ne_tab hq)
  rw [hs] at hsequence
  rw [hon, Except.ok.inj hsequence]

end Line

end CommandShell

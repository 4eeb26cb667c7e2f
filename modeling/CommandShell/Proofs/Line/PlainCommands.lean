import CommandShell.Proofs.Chart.Completeness
import CommandShell.Proofs.Line.PlainLines
import CommandShell.Proofs.Token.Escaping

/-!
# Commands made of plain words

A command whose words have neither quotes nor backquotes in them: it can be read whenever single
blanks separate its words, and however it is read, its arguments are what its tokens say.
-/

namespace CommandShell.Line

open List

/-- The tokens that plain words are made of. -/
def isPart : Token → Bool
  | .chars _ => true
  | .dash => true
  | _ => false

/-- Tokens with a blank before every word, and the texts that the words stand for. -/
inductive Spelled : List Token → List Text → Prop where
  | nil : Spelled [] []
  | cons {space : Text} {word rest : List Token} {values : List Text} (solid : word ≠ [])
      (parts : ∀ t ∈ word, isPart t = true) (later : Spelled rest values) :
      Spelled (.space space :: (word ++ rest)) (word.flatMap tokenValue :: values)

/-! ## Reading -/

theorem atoms_of_parts {word : List Token} (solid : word ≠ [])
    (parts : ∀ t ∈ word, isPart t = true) : Atoms word := by
  induction word with
  | nil => exact absurd rfl solid
  | cons token word ih =>
    have hpart := parts token mem_cons_self
    have hatom : Atom [token] := by
      cases token with
      | chars t => exact .chars t
      | dash => exact .dash
      | _ => cases hpart
    by_cases hword : word = []
    · exact .one (by rw [hword]; exact hatom)
    · exact .cons hatom (ih hword fun t ht => parts t (mem_cons_of_mem token ht))

theorem Spelled.covers_ending {ts : List Token} {values : List Text} (h : Spelled ts values) :
    Covers (·.ending) ts := by
  induction h with
  | nil => exact covers_ending_nil
  | cons solid parts _ ih => exact (atoms_of_parts solid parts).covers_arg.ending_modifier _ ih

theorem Spelled.exists_script {ts : List Token} {values : List Text} (h : Spelled ts values)
    {token : Token} (hpart : isPart token = true) :
    ∃ script, Script.ofTokens? (token :: ts) = some script ∧ script.line.isSome = true := by
  have hname : Atoms [token] := atoms_of_parts (cons_ne_nil token []) (by simpa using hpart)
  have hline := Covers.commandLine (.inl (hname.covers_command h.covers_ending))
  simpa using Script.exists_of_covers hline []

/-! ## Meaning -/

/-- Tokens without quotes and backquotes. -/
def Unquoted (ts : List Token) : Prop :=
  .backquote ∉ ts ∧ .doubleQuote ∉ ts ∧ .singleQuote ∉ ts

@[simp] theorem unquoted_append {ts us : List Token} :
    Unquoted (ts ++ us) ↔ Unquoted ts ∧ Unquoted us := by
  simp only [Unquoted, mem_append, not_or]
  tauto

theorem Unquoted.tail {token : Token} {ts : List Token} (h : Unquoted (token :: ts)) :
    Unquoted ts :=
  (unquoted_append.mp (show Unquoted ([token] ++ ts) from h)).2

theorem not_unquoted_quoted (q : Quoted) : ¬ Unquoted q.tree.tokens := by
  cases q with
  | mk quote body =>
    cases quote <;> simp [Unquoted, Quote.token]

theorem not_unquoted_strings (s : Strings) : ¬ Unquoted (Tree.tokensOf s.trees) := by
  cases s with
  | one first | more first rest =>
    rw [Strings.trees, Tree.tokensOf, unquoted_append]
    exact fun h => not_unquoted_quoted first h.1

theorem Word.value_of_unquoted (word : Word) (h : Unquoted word.tree.tokens) :
    word.value = .ok (word.tree.tokens.flatMap tokenValue) ∧
      ∀ t ∈ word.tree.tokens, isPart t = true := by
  induction word.plain h.1 with
  | chars text | dash => simp [value, tokenValue, isPart, pure, Except.pure, Token.text]
  | charsBefore _ _ ih | dashBefore _ ih =>
    obtain ⟨hvalue, hparts⟩ := ih (Unquoted.tail (by simpa using h))
    rw [value, hvalue]
    simpa [tokenValue, isPart, pure, Except.pure, bind, Except.bind, Token.text] using hparts
  | strings run hrun => exact absurd h (not_unquoted_strings run)
  | stringBefore first _ _ _ | stringAfter _ _ last _ _ =>
    simp [not_unquoted_quoted] at h

def Modifier.value : Modifier → Except Complaint Text
  | .flag name => return '-' :: (← name.value)
  | .arg value => value.value

theorem Modifier.value_of_unquoted (modifier : Modifier) (h : Unquoted modifier.tree.tokens) :
    modifier.value = .ok (modifier.tree.tokens.flatMap tokenValue) ∧
      modifier.tree.tokens ≠ [] ∧ ∀ t ∈ modifier.tree.tokens, isPart t = true := by
  cases modifier with
  | flag name =>
    simp only [tree, Tree.tokens, Tree.tokensOf, append_nil] at h ⊢
    obtain ⟨hvalue, hparts⟩ := name.value_of_unquoted (unquoted_append.mp h).2
    rw [value, hvalue]
    simpa [tokenValue, isPart, pure, Except.pure, bind, Except.bind, Token.text] using hparts
  | arg word =>
    simp only [tree, Tree.tokens, Tree.tokensOf, append_nil] at h ⊢
    obtain ⟨hvalue, hparts⟩ := word.value_of_unquoted h
    exact ⟨hvalue, word.tokens_ne_nil, hparts⟩

theorem Ending.spelled : (ending : Ending) → Unquoted (Tree.tokensOf ending.trees) →
    ending.redirects = [] → ∃ values, ending.modifiers.map Modifier.value = values.map .ok ∧
      Spelled (Tree.tokensOf ending.trees) values
  | .done, _, _ => ⟨[], rfl, .nil⟩
  | .redirect spaces first rest, _, hredirects => by cases hredirects
  | .modifier space first rest, h, hredirects => by
    simp only [trees, Tree.tokensOf, spaceLeaf, Tree.tokens, unquoted_append] at h
    obtain ⟨hvalue, hsolid, hparts⟩ := first.value_of_unquoted h.2.1
    obtain ⟨values, hvalues, hspelled⟩ := rest.spelled h.2.2 hredirects
    refine ⟨first.tree.tokens.flatMap tokenValue :: values, ?_, .cons hsolid hparts hspelled⟩
    rw [modifiers, map_cons, hvalue, hvalues, map_cons]

theorem Ending.redirects_eq_nil : (ending : Ending) → .less ∉ Tree.tokensOf ending.trees →
    .greater ∉ Tree.tokensOf ending.trees → ending.redirects = []
  | .done, _, _ => rfl
  | .redirect spaces (.mk direction gap target) rest, hless, hgreater => by
    cases direction
    · simp [trees, Direction.token] at hless
    · simp [trees, Direction.token] at hgreater
  | .modifier space first rest, hless, hgreater => by
    simp only [trees, Tree.tokensOf, mem_append, not_or] at hless hgreater
    exact rest.redirects_eq_nil hless.2.2 hgreater.2.2

theorem Pipe.bar_mem (p : Pipe) : .bar ∈ p.tree.tokens := by
  cases p <;> simp [Pipe.tree, jointLeaves]

theorem Sequence.semicolon_mem (s : Sequence) : .semicolon ∈ s.tree.tokens := by
  cases s <;> simp [Sequence.tree, jointLeaves]

/-- A line that is read as a single `echo` of some words. -/
def Script.Echoes (script : Script) (words : List Text) : Prop :=
  ∃ opening name ending, script.line = some (.command (.mk opening name ending)) ∧
    opening.redirects = [] ∧ name.value = .ok "echo".toList ∧ ending.redirects = [] ∧
    ending.modifiers.map Modifier.value = words.map .ok

section Commands

variable {opening : Opening} {name : Word} {ending : Ending} {n s : Text} {rest : List Token}

theorem Command.tokens_name (hq : Unquoted (Command.mk opening name ending).tree.tokens)
    {more : List Token}
    (h : (Command.mk opening name ending).tree.tokens ++ more = .chars n :: .space s :: rest) :
    opening = .done ∧ name.tree.tokens = [.chars n] ∧
      Tree.tokensOf ending.trees ++ more = .space s :: rest := by
  have htokens : (Command.mk opening name ending).tree.tokens =
      Tree.tokensOf opening.trees ++ (name.tree.tokens ++ Tree.tokensOf ending.trees) := by
    simp
  rw [htokens, append_assoc] at h
  rw [htokens] at hq
  obtain rfl := Opening.eq_done (congrArg List.head? h)
  obtain ⟨-, hparts⟩ := name.value_of_unquoted (unquoted_append.mp (unquoted_append.mp hq).2).1
  simp only [Opening.trees, Tree.tokensOf, nil_append, append_assoc] at h
  have hsolid := name.tokens_ne_nil
  generalize name.tree.tokens = front at h hparts hsolid ⊢
  rcases front with _ | ⟨token, _ | ⟨token', front⟩⟩
  · exact absurd rfl hsolid
  · rw [singleton_append, List.cons.injEq] at h
    exact ⟨rfl, by rw [h.1], h.2⟩
  · simp only [cons_append, List.cons.injEq] at h
    have hpart := hparts token' (by simp)
    rw [h.2.1] at hpart
    cases hpart

end Commands

section Scripts

variable {line : Text} {script : Script} {n s : Text} {rest : List Token}

theorem Script.tokens_of_line {l : CommandLine} (hread : Script.ofLine? line = some script)
    (hline : script.line = some l) :
    Token.ofLine line = l.tree.tokens ++ script.trailing.map .space := by
  have hspaces : ∀ ts : List Text,
      Tree.tokensOf (ts.map spaceLeaf ++ [Tree.endOfLine]) = ts.map .space := by
    intro ts
    induction ts with
    | nil => rfl
    | cons t ts ih =>
      rw [map_cons, cons_append, Tree.tokensOf, ih]
      rfl
  rw [← Script.tokens_of_ofLine? hread, Script.tree, hline, Tree.tokens]
  simp only [cons_append, nil_append, Tree.tokensOf, hspaces]

@[simp] theorem CommandLine.tokens_command (c : Command) :
    (CommandLine.command c).tree.tokens = c.tree.tokens := by
  simp

theorem Script.Echoes.spelled {words : List Text} (h : script.Echoes words)
    (hread : Script.ofLine? line = some script)
    (htokens : Token.ofLine line = .chars n :: .space s :: rest)
    (hq : Unquoted (Token.ofLine line))
    (hlast : ∀ t, (Token.ofLine line).getLast? ≠ some (.space t)) :
    Spelled (.space s :: rest) words := by
  obtain ⟨opening, name, ending, hline, -, -, hredirects, hwords⟩ := h
  have hsplit := Script.tokens_of_line hread hline
  rw [CommandLine.tokens_command] at hsplit
  have htrailing : script.trailing = [] := by
    rcases eq_nil_or_concat script.trailing with h | ⟨ts, t, h⟩
    · exact h
    · exact absurd (by rw [hsplit, h]; simp) (hlast t)
  rw [htrailing, map_nil] at hsplit
  obtain ⟨-, -, hending⟩ := Command.tokens_name (unquoted_append.mp (hsplit ▸ hq)).1
    (hsplit.symm.trans htokens)
  rw [append_nil] at hending
  have hquoted : Unquoted (Tree.tokensOf ending.trees) := by
    rw [htokens, ← singleton_append, unquoted_append] at hq
    exact hending ▸ hq.2
  obtain ⟨values, hvalues, hspelled⟩ := ending.spelled hquoted hredirects
  obtain rfl : words = values := by
    have hmap := hwords.symm.trans hvalues
    exact map_injective_iff.mpr (fun a b h => Except.ok.inj h) hmap
  rwa [hending] at hspelled

theorem Script.exists_echoes (hread : Script.ofLine? line = some script)
    (hsome : script.line.isSome = true)
    (htokens : Token.ofLine line = .chars n :: .space s :: rest)
    (hn : unescape n = "echo".toList) (hq : Unquoted (Token.ofLine line))
    (hbar : .bar ∉ Token.ofLine line) (hsemicolon : .semicolon ∉ Token.ofLine line)
    (hless : .less ∉ Token.ofLine line) (hgreater : .greater ∉ Token.ofLine line) :
    ∃ words, script.Echoes words := by
  obtain ⟨l, hline⟩ := Option.isSome_iff_exists.mp hsome
  have hsplit := Script.tokens_of_line hread hline
  cases l with
  | pipe all =>
    have hmem : .bar ∈ (CommandLine.pipe all).tree.tokens := by
      simpa using all.bar_mem
    exact absurd (hsplit ▸ mem_append_left _ hmem) hbar
  | sequence all =>
    have hmem : .semicolon ∈ (CommandLine.sequence all).tree.tokens := by
      simpa using all.semicolon_mem
    exact absurd (hsplit ▸ mem_append_left _ hmem) hsemicolon
  | command only =>
    rw [CommandLine.tokens_command] at hsplit
    cases only with
    | mk opening name ending =>
      have hcommand := (unquoted_append.mp (hsplit ▸ hq)).1
      obtain ⟨rfl, hname, hending⟩ := Command.tokens_name hcommand (hsplit.symm.trans htokens)
      have hsub : ∀ t ∈ Tree.tokensOf ending.trees, t ∈ Token.ofLine line := by
        intro t ht
        rw [htokens, ← hending]
        exact mem_cons_of_mem _ (mem_append_left _ ht)
      have hredirects := ending.redirects_eq_nil (fun h => hless (hsub _ h))
        (fun h => hgreater (hsub _ h))
      obtain ⟨values, hvalues, -⟩ := ending.spelled ⟨fun h => hq.1 (hsub _ h),
        fun h => hq.2.1 (hsub _ h), fun h => hq.2.2 (hsub _ h)⟩ hredirects
      have hunquoted : Unquoted name.tree.tokens := by
        rw [hname]
        simp [Unquoted]
      refine ⟨values, .done, name, ending, hline, rfl, ?_, hredirects, hvalues⟩
      rw [(name.value_of_unquoted hunquoted).1, hname, ← hn]
      simp [tokenValue]

end Scripts

end CommandShell.Line

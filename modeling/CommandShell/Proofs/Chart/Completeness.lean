import CommandShell.Proofs.Chart.Derivations
import CommandShell.Proofs.Chart.Extents

/-!
# Charts miss nothing

Every token list that the grammar derives can be read. What the readings of a rule can take is
closed under the alternatives of the grammar, the left-recursive ones included, so it has in it
everything that the grammar derives.
-/

namespace CommandShell.Line

open Grammar List

/-! ## Rules -/

/-- What the chart makes of the tokens that the grammar derives for a rule. -/
def Readable : Rule → List Token → Prop
  | .start, _ => True
  | .commandLine, c => Covers (·.commandLine) c
  | .command, c => Covers (·.command) c
  | .pipe, c => ∃ (first d : List Token) (ds : List (List Token)),
      c = first ++ (d ++ ds.flatten) ∧ Covers (·.command) first ∧
      ∀ joint ∈ d :: ds, Covers (·.barCommand) joint
  | .sequence, c => ∃ (first d : List Token) (ds : List (List Token)),
      c = first ++ (d ++ ds.flatten) ∧
      (Covers (·.command) first ∨ Covers (·.pipe) first) ∧
      (Covers (·.semicolonCommand) d ∨ Covers (·.semicolonPipe) d) ∧
      ∀ joint ∈ ds, Covers (·.semicolonCommand) joint
  | .modifier, c => Covers (·.modifier) c ∨
      ∃ (direction : Direction) (d : List Token), c = direction.token :: d ∧ Covers (·.redirect) c
  | .flag, c | .arg, c => Covers (·.modifier) c
  | .redirect, c =>
    ∃ (direction : Direction) (d : List Token), c = direction.token :: d ∧ Covers (·.redirect) c
  | .subcommand, c => ∃ d, c = .backquote :: d ∧ Covers (·.substitution) c
  | .phrase, c | .name, c => Atoms c
  | .literal, c => ∃ token literal, c = [token] ∧ Literal.ofToken? token = some literal
  | .string, c => ∃ (quote : Quote) (d : List Token), c = quote.token :: d ∧
      Covers (·.body quote) d
  | .doubleQuoted, c => ∃ d, c = .doubleQuote :: d ∧ Covers (·.body .double) d
  | .singleQuoted, c => ∃ d, c = .singleQuote :: d ∧ Covers (·.body .single) d

section Closed

variable {e : Expr} {c : List Token}

theorem gap_tokens (h : gap.Spells Readable c) : ∃ gap, c = gapTokens gap := by
  rcases h.gap_cases with rfl | ⟨text, rfl⟩
  · exact ⟨none, rfl⟩
  · exact ⟨some text, rfl⟩

theorem joined_tokens {left right : Rule} {separator : Token}
    (h : (joined left separator right).Spells Readable c) :
    ∃ first before after second, c = first ++ jointTokens separator before after second ∧
      Readable left first ∧ Readable right second := by
  obtain ⟨_, second, rfl, h, hright⟩ := h.split
  obtain ⟨_, _, rfl, h, hafter⟩ := h.split
  obtain ⟨_, _, rfl, h, hseparator⟩ := h.split
  obtain ⟨first, _, rfl, hleft, hbefore⟩ := h.split
  obtain ⟨before, rfl⟩ := gap_tokens hbefore
  obtain ⟨after, rfl⟩ := gap_tokens hafter
  rw [hseparator.eq_exactly]
  exact ⟨first, before, after, second, by simp [jointTokens], hleft.known, hright.known⟩

theorem covers_of_readable_pipe (h : Readable .pipe c) : Covers (·.pipe) c := by
  obtain ⟨first, d, ds, rfl, hfirst, hjoints⟩ := h
  exact hfirst.pipe (hjoints d mem_cons_self)
    (covers_bars ds fun joint hmem => hjoints joint (mem_cons_of_mem d hmem))

theorem covers_of_readable_sequence (h : Readable .sequence c) : Covers (·.sequence) c := by
  obtain ⟨first, d, ds, rfl, hfirst, hd, hjoints⟩ := h
  exact Covers.sequence hfirst hd (covers_semicolons ds hjoints)

theorem readable_pipe (known : e ∈ Rule.pipe.alternatives) (h : e.Spells Readable c) :
    Readable .pipe c := by
  rw [Rule.alternatives, mem_cons, mem_singleton] at known
  rcases known with rfl | rfl
  · obtain ⟨first, before, after, second, rfl, hleft, hright⟩ := joined_tokens h
    exact ⟨first, jointTokens .bar before after second, [], by simp, hleft,
      by simpa using hright.barCommand before after⟩
  · obtain ⟨_, before, after, second, rfl, ⟨first, d, ds, rfl, hfirst, hjoints⟩, hright⟩ :=
      joined_tokens h
    refine ⟨first, d, ds ++ [jointTokens .bar before after second], by simp, hfirst, ?_⟩
    intro joint hmem
    rw [← cons_append, mem_append, mem_singleton] at hmem
    rcases hmem with hmem | rfl
    · exact hjoints joint hmem
    · exact hright.barCommand before after

theorem readable_sequence (known : e ∈ Rule.sequence.alternatives) (h : e.Spells Readable c) :
    Readable .sequence c := by
  simp only [Rule.alternatives, mem_cons, not_mem_nil, or_false] at known
  rcases known with rfl | rfl | rfl | rfl | rfl <;>
    obtain ⟨first, before, after, second, rfl, hleft, hright⟩ := joined_tokens h
  · exact ⟨first, _, [], by simp, .inl hleft, .inl (hright.semicolonCommand before after),
      by simp⟩
  · obtain ⟨first, d, ds, rfl, hfirst, hd, hjoints⟩ := hleft
    refine ⟨first, d, ds ++ [jointTokens .semicolon before after second], by simp, hfirst, hd, ?_⟩
    intro joint hmem
    rw [mem_append, mem_singleton] at hmem
    rcases hmem with hmem | rfl
    · exact hjoints joint hmem
    · exact hright.semicolonCommand before after
  · exact ⟨first, _, [], by simp, .inr (covers_of_readable_pipe hleft),
      .inl (hright.semicolonCommand before after), by simp⟩
  · exact ⟨first, _, [], by simp, .inr (covers_of_readable_pipe hleft),
      .inr ((covers_of_readable_pipe hright).semicolonPipe before after), by simp⟩
  · exact ⟨first, _, [], by simp, .inl hleft,
      .inr ((covers_of_readable_pipe hright).semicolonPipe before after), by simp⟩

theorem readable_subcommand (known : e ∈ Rule.subcommand.alternatives) (h : e.Spells Readable c) :
    Readable .subcommand c := by
  rw [Rule.alternatives, mem_singleton] at known
  subst known
  obtain ⟨_, _, rfl, h, hclose⟩ := h.split
  obtain ⟨_, _, rfl, h, hafter⟩ := h.split
  obtain ⟨_, line, rfl, h, hline⟩ := h.split
  obtain ⟨_, _, rfl, hopen, hbefore⟩ := h.split
  obtain ⟨before, rfl⟩ := gap_tokens hbefore
  obtain ⟨after, rfl⟩ := gap_tokens hafter
  rw [hopen.eq_exactly, hclose.eq_exactly]
  have hread := Covers.substitution before after (hline.opt_cases.imp_right fun h => h.known)
  exact ⟨_, rfl, by simpa using hread⟩

theorem readable_phrase (known : e ∈ Rule.phrase.alternatives) (h : e.Spells Readable c) :
    Atoms c := by
  have hstring : ∀ {d}, (ref .string).Spells Readable d → Atom d := by
    intro d hd
    obtain ⟨quote, body, rfl, hbody⟩ := hd.known
    exact .string hbody
  have hsubcommand : ∀ {d}, (ref .subcommand).Spells Readable d → Atom d := by
    intro d hd
    obtain ⟨inner, rfl, hinner⟩ := hd.known
    exact .substitution hinner
  have hvoid : ∀ {d}, Grammar.void.Spells Readable d → Atom d := by
    intro d hd
    obtain ⟨_, _, rfl, hd, hclose⟩ := hd.split
    obtain ⟨_, _, rfl, hopen, hgap⟩ := hd.split
    obtain ⟨gap, rfl⟩ := gap_tokens hgap
    rw [hopen.eq_exactly, hclose.eq_exactly]
    have hcovers := Covers.substitution (c := []) gap none (.inl rfl)
    exact .substitution (by simpa [gapTokens] using hcovers)
  simp only [Rule.alternatives, mem_cons, not_mem_nil, or_false] at known
  rcases known with rfl | rfl | rfl | rfl | rfl | rfl | rfl | rfl | rfl | rfl | rfl | rfl
  · obtain ⟨d, f, rfl, hd, hf⟩ := h.split
    exact hd.known.append (.one (hstring hf))
  · obtain ⟨text, rfl⟩ := h.eq_chars
    exact .one (.chars text)
  · rw [h.eq_exactly]
    exact .one .dash
  · obtain ⟨d, f, rfl, hd, hf⟩ := h.split
    exact .cons (hvoid hd) hf.known
  · obtain ⟨d, f, rfl, hd, hf⟩ := h.split
    exact hd.known.append (.one (hvoid hf))
  · obtain ⟨d, f, rfl, hd, hf⟩ := h.split
    exact .cons (hsubcommand hd) hf.known
  · obtain ⟨d, f, rfl, hd, hf⟩ := h.split
    exact hd.known.append (.one (hsubcommand hf))
  · exact .one (hsubcommand h)
  · cases h with
    | plus first later =>
      refine later.star_induction (P := fun d => ∀ f, Atom f → Atoms (f ++ d)) ?_ ?_ _
        (hstring first)
      · intro f hf
        simpa using Atoms.one hf
      · intro d f hd ih g hg
        exact .cons hg (ih d (hstring hd))
  · obtain ⟨d, f, rfl, hd, hf⟩ := h.split
    exact .cons (hstring hd) hf.known
  · obtain ⟨d, f, rfl, hd, hf⟩ := h.split
    obtain ⟨text, rfl⟩ := hd.eq_chars
    exact .cons (.chars text) hf.known
  · obtain ⟨d, f, rfl, hd, hf⟩ := h.split
    rw [hd.eq_exactly]
    exact .cons .dash hf.known

theorem readable_literal (known : e ∈ Rule.literal.alternatives) (h : e.Spells Readable c) :
    Readable .literal c := by
  simp only [Rule.alternatives, mem_cons, not_mem_nil, or_false] at known
  rcases known with rfl | rfl | rfl | rfl | rfl | rfl
  · obtain ⟨text, rfl⟩ := h.eq_chars
    exact ⟨_, _, rfl, rfl⟩
  all_goals
    rw [h.eq_exactly]
    exact ⟨_, _, rfl, rfl⟩

theorem readable_quoted (quote : Quote)
    (h : (Grammar.quoted quote.token quote.other.token).Spells Readable c) :
    ∃ d, c = quote.token :: d ∧ Covers (·.body quote) d := by
  obtain ⟨_, _, rfl, h, hclose⟩ := h.split
  obtain ⟨_, body, rfl, hopen, hbody⟩ := h.split
  rw [hopen.eq_exactly, hclose.eq_exactly]
  refine ⟨body ++ [quote.token], by simp, ?_⟩
  refine hbody.star_induction (P := fun d => Covers (·.body quote) (d ++ [quote.token]))
    (covers_body_end quote) ?_
  intro d f hd ih
  rw [append_assoc]
  rcases hd.alt_cases with hd | hd
  · rw [hd.eq_exactly]
    exact ih.body_mark
  rcases hd.alt_cases with hd | hd
  · refine hd.star_of_plus.star_induction
      (P := fun d => Covers (·.body quote) (d ++ (f ++ [quote.token]))) ih ?_
    intro d g hd ih
    obtain ⟨token, literal, rfl, hliteral⟩ := hd.known
    exact ih.body_literal hliteral
  rcases hd.alt_cases with hd | hd
  · obtain ⟨texts, rfl⟩ := hd.star_of_plus.spaces
    exact ih.body_spaces texts
  · obtain ⟨inner, rfl, hinner⟩ := hd.known
    exact Covers.body_substitution hinner ih

theorem readable_redirect (known : e ∈ Rule.redirect.alternatives) (h : e.Spells Readable c) :
    Readable .redirect c := by
  rw [Rule.alternatives, mem_singleton] at known
  subst known
  obtain ⟨_, target, rfl, h, htarget⟩ := h.split
  obtain ⟨arrow, _, rfl, harrow, hgap⟩ := h.split
  obtain ⟨gap, rfl⟩ := gap_tokens hgap
  have hdirection : ∃ direction : Direction, arrow = [direction.token] := by
    rcases harrow.alt_cases with harrow | harrow
    · exact ⟨.input, harrow.eq_exactly⟩
    · exact ⟨.output, harrow.eq_exactly⟩
  obtain ⟨direction, rfl⟩ := hdirection
  exact ⟨direction, _, rfl, by simpa using Atoms.covers_redirect direction gap htarget.known⟩

theorem readable_modifier (known : e ∈ Rule.modifier.alternatives) (h : e.Spells Readable c) :
    Readable .modifier c := by
  simp only [Rule.alternatives, mem_cons, not_mem_nil, or_false] at known
  rcases known with rfl | rfl | rfl
  · exact .inr h.known
  · exact .inl h.known
  · exact .inl h.known

theorem covers_ending (h : (Expr.star endingItem).Spells Readable c) : Covers (·.ending) c := by
  refine h.star_induction (P := Covers (·.ending)) covers_ending_nil ?_
  intro d f hd ih
  rcases hd.alt_cases with hd | hd
  · obtain ⟨_, _, rfl, hspaces, hredirect⟩ := hd.split
    obtain ⟨spaces, rfl⟩ := hspaces.spaces
    obtain ⟨direction, target, rfl, hcovers⟩ := hredirect.known
    exact (hcovers.spacedRedirect spaces).ending_redirect ih
  · obtain ⟨_, _, rfl, hspace, hmodifier⟩ := hd.split
    obtain ⟨text, rfl⟩ := hspace.eq_space
    rcases hmodifier.known with hcovers | ⟨direction, target, rfl, hcovers⟩
    · exact hcovers.ending_modifier text ih
    · exact (hcovers.spacedRedirect [text]).ending_redirect ih

theorem covers_opened {name : List Token} (hname : Atoms name)
    (h : (Expr.star openingItem).Spells Readable c) : Covers (·.opened) (c ++ name) := by
  refine h.star_induction (P := fun c => Covers (·.opened) (c ++ name)) hname.covers_opened ?_
  intro d f hd ih
  obtain ⟨_, _, rfl, hd, hafter⟩ := hd.split
  obtain ⟨_, _, rfl, hbefore, hredirect⟩ := hd.split
  obtain ⟨before, rfl⟩ := hbefore.spaces
  obtain ⟨after, rfl⟩ := hafter.spaces
  obtain ⟨direction, target, rfl, hcovers⟩ := hredirect.known
  have hread := (Covers.opened_redirect hcovers (ih.opened_spaces after)).opened_spaces before
  simpa using hread

private theorem readable_command (known : e ∈ Rule.command.alternatives) (h : e.Spells Readable c) :
    Covers (·.command) c := by
  rw [Rule.alternatives, mem_singleton] at known
  subst known
  obtain ⟨_, ending, rfl, h, hending⟩ := h.split
  obtain ⟨opening, name, rfl, hopening, hname⟩ := h.split
  have hcovers := covers_ending hending
  cases hopening with
  | nil => exact hname.known.covers_command hcovers
  | cons first later =>
    obtain ⟨_, _, rfl, hd, hafter⟩ := first.split
    obtain ⟨_, _, rfl, hbefore, hredirect⟩ := hd.split
    obtain ⟨before, rfl⟩ := hbefore.spaces
    obtain ⟨after, rfl⟩ := hafter.spaces
    obtain ⟨direction, target, rfl, hredirect⟩ := hredirect.known
    have hopened := (covers_opened hname.known later).opened_spaces after
    simpa using (hredirect.spacedRedirect before).command_redirect hopened hcovers

theorem closed_readable : Closed Readable := by
  intro rule e c known h
  cases rule with
  | start => trivial
  | commandLine =>
    rw [Rule.alternatives, mem_singleton] at known
    subst known
    apply Covers.commandLine
    rcases h.alt_cases with h | h
    · exact .inl h.known
    rcases h.alt_cases with h | h
    · exact .inr (.inl (covers_of_readable_pipe h.known))
    · exact .inr (.inr (covers_of_readable_sequence h.known))
  | command => exact readable_command known h
  | pipe => exact readable_pipe known h
  | sequence => exact readable_sequence known h
  | modifier => exact readable_modifier known h
  | flag =>
    rw [Rule.alternatives, mem_singleton] at known
    subst known
    obtain ⟨_, name, rfl, hdash, hname⟩ := h.split
    rw [hdash.eq_exactly]
    exact hname.known.covers_flag
  | arg =>
    rw [Rule.alternatives, mem_singleton] at known
    subst known
    exact h.known.covers_arg
  | name =>
    rw [Rule.alternatives, mem_singleton] at known
    subst known
    exact h.known
  | redirect => exact readable_redirect known h
  | subcommand => exact readable_subcommand known h
  | phrase => exact readable_phrase known h
  | literal => exact readable_literal known h
  | string =>
    rw [Rule.alternatives, mem_singleton] at known
    subst known
    rcases h.alt_cases with h | h
    · obtain ⟨d, rfl, hd⟩ := h.known
      exact ⟨.double, d, rfl, hd⟩
    · obtain ⟨d, rfl, hd⟩ := h.known
      exact ⟨.single, d, rfl, hd⟩
  | doubleQuoted =>
    rw [Rule.alternatives, mem_singleton] at known
    subst known
    exact readable_quoted .double h
  | singleQuoted =>
    rw [Rule.alternatives, mem_singleton] at known
    subst known
    exact readable_quoted .single h

end Closed

/-! ## Whole lines -/

theorem Row.blanks?_spaces (spaces : List Text) :
    (Row.ofTokens (spaces.map .space)).blanks? = some spaces := by
  induction spaces with
  | nil => rfl
  | cons text spaces ih =>
    rw [map_cons, Row.ofTokens_cons]
    change (((Chart.ofTokens (spaces.map .space)).row _).blanks?.map (text :: ·)) = _
    rw [Chart.size_ofTokens, Chart.row_ofTokens (suffix_refl _), ih]
    rfl

theorem Script.exists_of_covers {c : List Token} (h : Covers (·.commandLine) c)
    (spaces : List Text) : ∃ script, Script.ofTokens? (c ++ spaces.map .space) = some script ∧
      script.line.isSome = true := by
  obtain ⟨line, hline⟩ := h (spaces.map .space)
  have hrow := Chart.row_ofTokens (suffix_append c (spaces.map .space))
  have hmem : (⟨some line, spaces⟩ : Script) ∈
      (Row.ofTokens (c ++ spaces.map .space)).commandLine.filterMap fun reading =>
        ((Chart.ofTokens (c ++ spaces.map .space)).row reading.2).blanks?.map
          fun trailing => (⟨some reading.1, trailing⟩ : Script) := by
    refine mem_filterMap.mpr ⟨(line, _), hline, ?_⟩
    simp only [hrow, Row.blanks?_spaces, Option.map_some]
  unfold Script.ofTokens?
  dsimp only
  split
  · next script later hlines =>
      refine ⟨script, rfl, ?_⟩
      have hfirst : script ∈ script :: later := mem_cons_self
      rw [← hlines, mem_filterMap] at hfirst
      obtain ⟨⟨line', left⟩, -, hscript⟩ := hfirst
      obtain ⟨trailing, -, rfl⟩ := Option.map_eq_some_iff.mp hscript
      rfl
  · next hlines =>
      exact absurd hmem (eq_nil_iff_forall_not_mem.mp hlines _)

theorem Script.exists_of_spaces (spaces : List Text) :
    ∃ script, Script.ofTokens? (spaces.map .space) = some script := by
  have hblanks := Row.blanks?_spaces spaces
  unfold Script.ofTokens?
  dsimp only
  split
  · exact ⟨_, rfl⟩
  · rw [Row.ofTokens] at hblanks
    rw [hblanks]
    exact ⟨_, rfl⟩

/-- Some tree of the grammar has the tokens of a line, and then its end, at the ends of its
branches. -/
def Derivable (line : Text) : Prop :=
  ∃ children, (Tree.node .start children).Conforms ∧
    Tree.terminals (.node .start children) = (Token.ofLine line).map .token ++ [.endOfLine]

theorem Derivable.exists_script {line : Text} (h : Derivable line) :
    ∃ script, Script.ofLine? line = some script := by
  obtain ⟨children, hconforms, hterminals⟩ := h
  obtain ⟨c, spaces, htokens, hline⟩ := hconforms.start_cases closed_readable hterminals
  rw [Script.ofLine?, htokens]
  rcases hline with rfl | hline
  · exact Script.exists_of_spaces spaces
  · obtain ⟨script, hscript, -⟩ := Script.exists_of_covers hline spaces
    exact ⟨script, hscript⟩

private theorem derivable_of_ofLine? {line : Text} {script : Script}
    (h : Script.ofLine? line = some script) : Derivable line :=
  ⟨_, Script.forms_of_ofTokens? h⟩

/-- A line is read if the grammar derives its tokens, by whatever derivation, and it is refused
only if there is none. -/
theorem Script.ofLine_iff_derivable (line : Text) :
    ((∃ script, Script.ofLine line = .ok script) ↔ Derivable line) ∧
      (Script.ofLine line = Checked.complain .badLine ↔ ¬ Derivable line) := by
  unfold Script.ofLine
  cases hread : Script.ofLine? line with
  | none =>
      have hnot : ¬ Derivable line := by
        intro h
        obtain ⟨script, hscript⟩ := h.exists_script
        rw [hread] at hscript
        cases hscript
      exact ⟨⟨fun ⟨_, h⟩ => (nomatch h), fun h => absurd h hnot⟩, fun _ => hnot, fun _ => rfl⟩
  | some script =>
      have hderivable := derivable_of_ofLine? hread
      exact ⟨⟨fun _ => hderivable, fun _ => ⟨script, rfl⟩⟩,
        fun h => (nomatch h), fun h => absurd hderivable h⟩

end CommandShell.Line

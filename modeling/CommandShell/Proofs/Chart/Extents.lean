import CommandShell.Proofs.Line.Pieces

/-!
# What readings can take

Which tokens the readings of a row can take, whatever follows them. A chart keeps one reading for
each place where a reading ends, so all that counts is where readings end: one lemma for each way
of putting phrases together says that if the parts can be taken, then so can the whole.

Words hold only some suffixes inside certain prefixes. This excludes no word: each is a row of
atoms, and an atom in front of a word can always be read as a prefix of it.
-/

namespace CommandShell.Line

open List

/-! ## Reaching a place -/

variable {α : Type} {left : Nat} {c rest ts d : List Token} {token : Token}

namespace Readings

variable {α β : Type}

/-- Some reading ends where `left` tokens are left. -/
def Reaches (xs : Readings α) (left : Nat) : Prop := ∃ a, (a, left) ∈ xs

theorem Reaches.distinct {xs : Readings α} (h : xs.Reaches left) : xs.distinct.Reaches left := by
  induction xs with
  | nil => exact h
  | cons x xs ih =>
    obtain ⟨b, k⟩ := x
    rw [distinct_cons]
    by_cases hk : k = left
    · exact ⟨b, by simp [hk]⟩
    · obtain ⟨a, ha⟩ := h
      have hmem : (a, left) ∈ xs := by
        simpa [Ne.symm hk] using ha
      obtain ⟨a', ha'⟩ := ih ⟨a, hmem⟩
      exact ⟨a', mem_cons_of_mem _ (mem_filter.mpr ⟨ha', by simpa using Ne.symm hk⟩)⟩

theorem Reaches.as {xs : Readings α} (h : xs.Reaches left) (f : α → β) :
    (Readings.as f xs).Reaches left := by
  obtain ⟨a, ha⟩ := h
  exact ⟨f a, mem_as.mpr ⟨a, ha, rfl⟩⟩

theorem Reaches.andThen {xs : Readings α} {middle : Nat} {next : α → Nat → Readings β}
    (h : xs.Reaches middle) (hnext : ∀ a, (next a middle).Reaches left) :
    (xs.andThen next).Reaches left := by
  obtain ⟨a, ha⟩ := h
  obtain ⟨b, hb⟩ := hnext a
  exact ⟨b, mem_andThen.mpr ⟨a, middle, ha, hb⟩⟩

theorem Reaches.append_left {xs : Readings α} (h : xs.Reaches left) (ys : Readings α) :
    Reaches (xs ++ ys) left := by
  obtain ⟨a, ha⟩ := h
  exact ⟨a, mem_append_left ys ha⟩

theorem Reaches.append_right {ys : Readings α} (h : ys.Reaches left) (xs : Readings α) :
    Reaches (xs ++ ys) left := by
  obtain ⟨a, ha⟩ := h
  exact ⟨a, mem_append_right xs ha⟩

theorem reaches_singleton (a : α) (left : Nat) : Reaches [(a, left)] left :=
  ⟨a, mem_singleton.mpr rfl⟩

end Readings

open Readings

/-- Readings of a kind can take the tokens `c`, whatever follows them. -/
def Covers {α : Type} (kind : Row → Readings α) (c : List Token) : Prop :=
  ∀ rest, (kind (Row.ofTokens (c ++ rest))).Reaches rest.length

theorem Covers.ne_nil {kind : Row → Readings α} (h : Covers kind c)
    (htakes : ∀ ts, (kind (Row.ofTokens ts)).Takes ts) : c ≠ [] := by
  rintro rfl
  obtain ⟨a, ha⟩ := h []
  exact absurd ((htakes []).lt_length ha) (Nat.lt_irrefl _)

/-- Goes on with a kind of reading where the tokens that it covers begin. -/
theorem Readings.Reaches.row {β γ : Type} {xs : Readings α} {kind : Row → Readings β}
    (h : xs.Reaches (c ++ rest).length) (hkind : Covers kind c) (hsuffix : c ++ rest <:+ ts)
    (f : α → β → γ) :
    (xs.andThen fun a left => (kind ((Chart.ofTokens ts).row left)).as (f a)).Reaches
      rest.length := by
  refine h.andThen fun a => ?_
  rw [Chart.row_ofTokens hsuffix]
  exact (hkind rest).as _

/-! ## Blanks and separators -/

namespace Chart

variable {chart : Chart} {ts rest : List Token}

theorem reaches_gaps (h : chart.Tracks ts) (gap : Option Text)
    (hrest : gapTokens gap ++ rest <:+ ts) :
    (chart.gaps (gapTokens gap ++ rest).length).Reaches rest.length := by
  cases gap with
  | some text =>
    rw [show chart.gaps (gapTokens (some text) ++ rest).length = _ from gaps_space h hrest]
    exact ⟨some text, mem_cons_self⟩
  | none =>
    by_cases hspace : ∃ text later, rest = .space text :: later
    · obtain ⟨text, later, rfl⟩ := hspace
      rw [show chart.gaps (gapTokens none ++ .space text :: later).length = _ from
        gaps_space h hrest]
      exact ⟨none, by simp⟩
    · rw [show chart.gaps (gapTokens none ++ rest).length = _ from
        gaps_eq_none h hrest fun text later hrest => hspace ⟨text, later, hrest⟩]
      exact reaches_singleton none _

theorem gap_eq (h : chart.Tracks ts) (gap : Option Text)
    (hspace : ∀ text later, rest ≠ .space text :: later) (hrest : gapTokens gap ++ rest <:+ ts) :
    chart.gap (gapTokens gap ++ rest).length = (gap, rest.length) := by
  cases gap with
  | some text => exact gap_space h hrest
  | none => exact gap_eq_none h hrest hspace

theorem reaches_gapThen (h : chart.Tracks ts) (gap : Option Text)
    (htoken : ∀ text, token ≠ .space text) (hrest : gapTokens gap ++ token :: rest <:+ ts) :
    (chart.gapThen token (gapTokens gap ++ token :: rest).length).Reaches rest.length := by
  have hsuffix : token :: rest <:+ ts := (suffix_append _ _).trans hrest
  unfold gapThen
  rw [gap_eq h gap (fun text later heq => htoken text (List.cons.inj heq).1) hrest]
  apply Reaches.as
  unfold expect holds
  rw [h _ hsuffix]
  simp only [List.head?_cons, decide_true, if_true]
  exact reaches_singleton () _

theorem reaches_joint {right : Row → Readings α} (h : chart.Tracks ts) {separator : Token}
    (hseparator : ∀ text, separator ≠ .space text) (before after : Option Text)
    (hrest : gapTokens before ++ separator :: (gapTokens after ++ rest) <:+ ts)
    (hright : (right (chart.row rest.length)).Reaches left) :
    (chart.joint separator right
      (gapTokens before ++ separator :: (gapTokens after ++ rest)).length).Reaches left := by
  have hafter : gapTokens after ++ rest <:+ ts :=
    ((suffix_cons _ _).trans (suffix_append _ _)).trans hrest
  unfold joint
  refine (reaches_gapThen h before hseparator hrest).andThen fun before => ?_
  refine (reaches_gaps h after hafter).andThen fun after => ?_
  exact hright.as _

end Chart

/-! ## Strings -/

section Strings

variable {quote : Quote} {c : List Token}

theorem reaches_body
    (h : (readBody (Chart.ofTokens ts) token ts.length (Row.ofTokens (token :: ts)).substitution
      quote).Reaches left) : ((Row.ofTokens (token :: ts)).body quote).Reaches left := by
  rw [Row.body_cons]
  exact h.distinct

theorem covers_body_end (quote : Quote) : Covers (·.body quote) [quote.token] := by
  intro rest
  apply reaches_body
  unfold readBody
  rw [if_pos rfl]
  exact reaches_singleton _ _

theorem Covers.body_mark (h : Covers (·.body quote) c) :
    Covers (·.body quote) (quote.other.token :: c) := by
  intro rest
  apply reaches_body
  unfold readBody
  rw [if_neg (by cases quote <;> decide), if_pos rfl]
  exact (h rest).as _

private theorem Covers.body_space (text : Text) (h : Covers (·.body quote) c) :
    Covers (·.body quote) (.space text :: c) := by
  intro rest
  apply reaches_body
  unfold readBody
  rw [if_neg (by cases quote <;> exact nofun), if_neg (by cases quote <;> exact nofun),
    if_neg nofun]
  exact (h rest).as _

theorem Covers.body_spaces (texts : List Text) (h : Covers (·.body quote) c) :
    Covers (·.body quote) (texts.map .space ++ c) := by
  induction texts with
  | nil => exact h
  | cons text texts ih => exact ih.body_space text

theorem Covers.body_literal {literal : Literal} (hliteral : Literal.ofToken? token = some literal)
    (h : Covers (·.body quote) c) : Covers (·.body quote) (token :: c) := by
  intro rest
  apply reaches_body
  unfold readBody
  cases token <;> cases hliteral <;>
    rw [if_neg (by cases quote <;> exact nofun), if_neg (by cases quote <;> exact nofun),
      if_neg nofun] <;> exact (h rest).as _

theorem Covers.body_substitution (hd : Covers (·.substitution) (.backquote :: d))
    (h : Covers (·.body quote) c) : Covers (·.body quote) (.backquote :: d ++ c) := by
  intro rest
  rw [append_assoc, cons_append]
  apply reaches_body
  unfold readBody
  rw [if_neg (by cases quote <;> exact nofun), if_neg (by cases quote <;> exact nofun), if_pos rfl]
  exact (hd (c ++ rest)).row h (suffix_append _ _) _

theorem Covers.quoted (h : Covers (·.body quote) c) : Covers (·.quoted) (quote.token :: c) := by
  intro rest
  have hread : (readQuoted (Chart.ofTokens (c ++ rest)) quote.token (c ++ rest).length).Reaches
      rest.length := by
    cases quote with
    | double => exact (h rest).as _
    | single => exact (h rest).as _
  dsimp only
  rw [cons_append, Row.quoted_cons]
  exact hread.distinct

end Strings

/-! ## Words -/

/-- The tokens of a part of a word that cannot be divided: a run of characters, a dash, a string
or a substitution. -/
inductive Atom : List Token → Prop where
  | chars (text : Text) : Atom [.chars text]
  | dash : Atom [.dash]
  | string {quote : Quote} {c : List Token} (h : Covers (·.body quote) c) :
      Atom (quote.token :: c)
  | substitution {c : List Token} (h : Covers (·.substitution) (.backquote :: c)) :
      Atom (.backquote :: c)

/-- The tokens of one or more atoms in a row. -/
inductive Atoms : List Token → Prop where
  | one {c : List Token} (only : Atom c) : Atoms c
  | cons {c d : List Token} (first : Atom c) (later : Atoms d) : Atoms (c ++ d)

theorem Atoms.append (hc : Atoms c) (hd : Atoms d) : Atoms (c ++ d) := by
  induction hc with
  | one only => exact .cons only hd
  | cons first _ ih =>
    rw [append_assoc]
    exact .cons first ih

theorem Atom.exists_cons (h : Atom c) :
    ∃ token ts, c = token :: ts ∧ (∀ text, token ≠ .space text) ∧
      Direction.ofToken? token = none := by
  cases h with
  | chars text | dash => exact ⟨_, _, rfl, nofun, rfl⟩
  | @string quote _ _ => cases quote <;> exact ⟨_, _, rfl, nofun, rfl⟩
  | substitution h => exact ⟨_, _, rfl, nofun, rfl⟩

theorem Atoms.exists_cons {c : List Token} (h : Atoms c) :
    ∃ token ts, c = token :: ts ∧ (∀ text, token ≠ .space text) ∧
      Direction.ofToken? token = none := by
  cases h with
  | one only => exact only.exists_cons
  | cons first later =>
    obtain ⟨token, ts, rfl, htoken⟩ := first.exists_cons
    exact ⟨token, _, cons_append, htoken⟩

private theorem Row.reaches_suffixes (grip : Grip) (ts : List Token) :
    ((Row.ofTokens ts).suffixes grip).Reaches ts.length := by
  cases ts with
  | nil => exact reaches_singleton [] 0
  | cons token ts =>
    rw [Row.suffixes_cons]
    exact ((reaches_singleton [] _).append_right _).distinct

theorem reaches_word (hsuffix : rest <:+ ts) (h : (primaries token ts).Reaches rest.length)
    (grip : Grip) : ((Row.ofTokens (token :: ts)).word grip).Reaches rest.length := by
  have hword : (readWord (Chart.ofTokens ts) (primaries token ts).distinct grip).Reaches
      rest.length := by
    refine h.distinct.andThen fun front => ?_
    rw [Chart.row_ofTokens hsuffix]
    exact (Row.reaches_suffixes grip rest).as _
  rw [Row.word_cons]
  exact hword.distinct

private theorem reaches_strings (h : (Row.ofTokens (token :: ts)).quoted.Reaches left) :
    (Row.ofTokens (token :: ts)).strings.Reaches left := by
  rw [Row.strings_cons]
  exact (h.andThen fun first => (reaches_singleton _ left).append_right _).distinct

theorem Atom.covers_word (h : Atom c) (hd : d = [] ∨ ∀ grip, Covers (·.word grip) d) (grip : Grip) :
    Covers (·.word grip) (c ++ d) := by
  intro rest
  rw [append_assoc]
  cases h with
  | chars text | dash =>
    apply reaches_word (suffix_append d rest)
    rcases hd with rfl | hd
    · exact (reaches_singleton _ _).append_left _
    · exact ((hd .loose rest).as _).append_right [_]
  | @string quote c h =>
    have hsuffix : d ++ rest <:+ c ++ (d ++ rest) := suffix_append _ _
    apply reaches_word ((suffix_append d rest).trans hsuffix)
    have hquoted := h.quoted (d ++ rest)
    rcases hd with rfl | hd
    · have hstrings := (reaches_strings hquoted).as Word.strings
      cases quote <;> exact (hstrings.append_right _).append_left _
    · have hword := hquoted.row (hd .loose) hsuffix Word.stringBefore
      cases quote <;> exact hword.append_right _
  | @substitution c h =>
    have hsuffix : d ++ rest <:+ c ++ (d ++ rest) := suffix_append _ _
    apply reaches_word ((suffix_append d rest).trans hsuffix)
    have hsubstitution := h (d ++ rest)
    refine .append_left (.append_left ?_ _) _
    rcases hd with rfl | hd
    · exact (hsubstitution.as _).append_right _
    · exact ((hsubstitution.row (hd .firm) hsuffix _).append_right _).append_left _

theorem Atoms.covers_word {c : List Token} (h : Atoms c) (grip : Grip) :
    Covers (·.word grip) c := by
  induction h generalizing grip with
  | one only => simpa using only.covers_word (.inl rfl) grip
  | cons first _ ih => exact first.covers_word (.inr ih) grip

/-! ## Redirects, flags and arguments -/

section Commands

variable {c : List Token}

theorem Row.redirect_direction (direction : Direction) (gap : Option Text)
    (h : ∀ text later, ts ≠ .space text :: later) :
    (Row.ofTokens (direction.token :: (gapTokens gap ++ ts))).redirect =
      (((Row.ofTokens ts).word .loose).as (.mk direction gap)).distinct := by
  have hgap := Chart.gap_eq (Chart.sound_ofTokens (gapTokens gap ++ ts)).tracks gap h
    (suffix_refl _)
  have hdirection : Direction.ofToken? direction.token = some direction := by
    cases direction <;> rfl
  have hread : readRedirect (Chart.ofTokens (gapTokens gap ++ ts)) direction.token
      (gapTokens gap ++ ts).length = ((Row.ofTokens ts).word .loose).as (.mk direction gap) := by
    unfold readRedirect
    rw [hdirection, hgap]
    dsimp only
    rw [Chart.row_ofTokens (suffix_append _ _)]
  rw [Row.redirect_cons, hread]

theorem Atoms.covers_redirect (direction : Direction) (gap : Option Text) (h : Atoms c) :
    Covers (·.redirect) (direction.token :: (gapTokens gap ++ c)) := by
  intro rest
  obtain ⟨token, ts, rfl, hspace, -⟩ := h.exists_cons
  have hstart : ∀ text later, token :: ts ++ rest ≠ .space text :: later :=
    fun text later heq => hspace text (List.cons.inj heq).1
  dsimp only
  rw [cons_append, append_assoc, Row.redirect_direction direction gap hstart]
  exact ((h.covers_word .loose rest).as _).distinct

theorem Covers.spacedRedirect {direction : Direction} (spaces : List Text)
    (h : Covers (·.redirect) (direction.token :: c)) :
    Covers (·.spacedRedirect) (spaces.map .space ++ direction.token :: c) := by
  intro rest
  induction spaces with
  | nil =>
    have hredirect := h rest
    dsimp only at hredirect ⊢
    rw [cons_append] at hredirect
    rw [map_nil, nil_append, cons_append, Row.spacedRedirect_cons]
    cases direction <;> exact (hredirect.as _).distinct
  | cons text spaces ih =>
    rw [append_assoc] at ih ⊢
    change (Row.ofTokens (.space text :: (spaces.map .space ++ _))).spacedRedirect.Reaches _
    rw [Row.spacedRedirect_space]
    exact ih.as _

theorem Atoms.covers_flag (h : Atoms c) : Covers (·.modifier) (.dash :: c) := by
  intro rest
  have hflag := (h.covers_word .loose rest).as Modifier.flag
  dsimp only
  rw [cons_append, Row.modifier_cons]
  exact (hflag.append_left _).distinct

theorem Atoms.covers_arg (h : Atoms c) : Covers (·.modifier) c := by
  intro rest
  have hword := h.covers_word .loose rest
  obtain ⟨token, ts, rfl, -⟩ := h.exists_cons
  dsimp only
  rw [cons_append, Row.modifier_cons]
  exact ((hword.as _).append_right _).distinct

/-! ## Commands -/

theorem covers_ending_nil : Covers (·.ending) [] := by
  intro rest
  rw [nil_append]
  cases rest with
  | nil => exact reaches_singleton _ _
  | cons token ts =>
    dsimp only
    rw [Row.ending_cons]
    exact ((reaches_singleton _ _).append_right _).distinct

theorem Covers.ending_redirect (hd : Covers (·.spacedRedirect) d) (h : Covers (·.ending) c) :
    Covers (·.ending) (d ++ c) := by
  intro rest
  have hspaced := hd (c ++ rest)
  have hne : d ≠ [] := hd.ne_nil fun ts => (Row.sound_ofTokens ts).takes.spacedRedirect
  obtain ⟨token, ts, rfl⟩ := exists_cons_of_ne_nil hne
  dsimp only
  rw [append_assoc, cons_append, Row.ending_cons]
  apply Reaches.distinct
  apply Reaches.append_left
  apply Reaches.append_left
  exact hspaced.row h (suffix_append _ _) fun spaced ending =>
    Ending.redirect spaced.1 spaced.2 ending

theorem Covers.ending_modifier (text : Text) (hd : Covers (·.modifier) d) (h : Covers (·.ending) c) :
    Covers (·.ending) (.space text :: (d ++ c)) := by
  intro rest
  have hmodifier := hd (c ++ rest)
  dsimp only
  rw [cons_append, append_assoc, Row.ending_cons]
  apply Reaches.distinct
  apply Reaches.append_left
  apply Reaches.append_right
  exact hmodifier.row h (suffix_append _ _) _

theorem Row.opened_of_word (hspace : ∀ text, token ≠ .space text)
    (hdirection : Direction.ofToken? token = none) (ts : List Token) :
    (Row.ofTokens (token :: ts)).opened =
      (((Row.ofTokens (token :: ts)).word .loose).as
        fun name => (Opening.done, name)).distinct := by
  rw [Row.opened_cons]
  unfold readOpened
  rw [hdirection]
  split
  · next text => exact absurd rfl (hspace text)
  · next heq => cases heq
  · rfl

theorem Row.opened_direction (direction : Direction) (ts : List Token) :
    (Row.ofTokens (direction.token :: ts)).opened =
      ((Row.ofTokens (direction.token :: ts)).redirect.andThen fun first left =>
        ((Chart.ofTokens ts).row left).opened.as fun o =>
          (Opening.redirect first o.1, o.2)).distinct := by
  rw [Row.opened_cons]
  cases direction <;> rfl

theorem Atoms.covers_opened (h : Atoms c) : Covers (·.opened) c := by
  intro rest
  have hword := h.covers_word .loose rest
  obtain ⟨token, ts, rfl, hspace, hdirection⟩ := h.exists_cons
  dsimp only
  rw [cons_append, Row.opened_of_word hspace hdirection]
  exact (hword.as _).distinct

theorem Covers.opened_space (text : Text) (h : Covers (·.opened) c) :
    Covers (·.opened) (.space text :: c) := by
  intro rest
  have hopened := h rest
  dsimp only
  rw [cons_append, Row.opened_cons]
  apply Reaches.distinct
  unfold readOpened
  exact hopened.as _

theorem Covers.opened_spaces (spaces : List Text) (h : Covers (·.opened) c) :
    Covers (·.opened) (spaces.map .space ++ c) := by
  induction spaces with
  | nil => exact h
  | cons text spaces ih => exact ih.opened_space text

theorem Covers.opened_redirect {direction : Direction}
    (hd : Covers (·.redirect) (direction.token :: d)) (h : Covers (·.opened) c) :
    Covers (·.opened) (direction.token :: d ++ c) := by
  intro rest
  have hredirect := hd (c ++ rest)
  dsimp only
  rw [append_assoc, cons_append, Row.opened_direction]
  apply Reaches.distinct
  exact hredirect.row h (suffix_append _ _) fun first opened =>
    (Opening.redirect first opened.1, opened.2)

theorem reaches_command
    (h : (readOpening (Chart.ofTokens ts) (Row.ofTokens (token :: ts)).spacedRedirect
      ((Row.ofTokens (token :: ts)).word .loose)).Reaches (c ++ rest).length)
    (hc : Covers (·.ending) c) (hsuffix : c ++ rest <:+ ts) :
    (Row.ofTokens (token :: ts)).command.Reaches rest.length := by
  rw [Row.ofTokens_cons] at h ⊢
  exact (h.distinct.row hc hsuffix fun opened => Command.mk opened.1 opened.2).distinct

theorem Atoms.covers_command (hd : Atoms d) (hc : Covers (·.ending) c) :
    Covers (·.command) (d ++ c) := by
  intro rest
  have hword := hd.covers_word .loose (c ++ rest)
  obtain ⟨token, ts, rfl, -⟩ := hd.exists_cons
  rw [append_assoc]
  exact reaches_command ((hword.as _).append_right _) hc (suffix_append _ _)

theorem Covers.command_redirect {e : List Token} (hd : Covers (·.spacedRedirect) d)
    (he : Covers (·.opened) e) (hc : Covers (·.ending) c) : Covers (·.command) (d ++ (e ++ c)) := by
  intro rest
  have hspaced := hd (e ++ (c ++ rest))
  have hne : d ≠ [] := hd.ne_nil fun ts => (Row.sound_ofTokens ts).takes.spacedRedirect
  obtain ⟨token, ts, rfl⟩ := exists_cons_of_ne_nil hne
  rw [append_assoc, append_assoc]
  refine reaches_command (.append_left ?_ _) hc
    ((suffix_append _ _).trans (suffix_append _ _))
  exact hspaced.row he (suffix_append _ _) fun spaced opened =>
    (Opening.ofSpaces spaced.1 (.redirect spaced.2 opened.1), opened.2)

end Commands

/-! ## Pipes and sequences -/

section Joints

def jointTokens (separator : Token) (before after : Option Text) (right : List Token) :
    List Token :=
  gapTokens before ++ separator :: (gapTokens after ++ right)

theorem exists_jointTokens (separator : Token) (before after : Option Text) (c rest : List Token) :
    ∃ token ts, jointTokens separator before after c ++ rest = token :: ts := by
  cases before <;> exact ⟨_, _, rfl⟩

variable {c d e : List Token}

/-- A joint may begin with the token in front, so it is read from a chart that knows it. -/
theorem Covers.joint {right : Row → Readings α} {joint : Row → Readings (Joint α)}
    {separator : Token} (hseparator : ∀ text, separator ≠ .space text)
    (hjoint : ∀ token ts, joint (Row.ofTokens (token :: ts)) =
      (Chart.joint ((Chart.ofTokens ts).push { Row.atEnd with
        token? := some token, command := (Row.ofTokens (token :: ts)).command }) separator right
        (ts.length + 1)).distinct)
    (before after : Option Text) (hc : Covers right c) :
    Covers joint (jointTokens separator before after c) := by
  intro rest
  obtain ⟨token, ts, hts⟩ := exists_jointTokens separator before after c rest
  have hsound := Chart.sound_ofTokens ts
  have hall : gapTokens before ++ separator :: (gapTokens after ++ (c ++ rest)) = token :: ts := by
    rw [← hts, jointTokens]
    simp only [append_assoc, cons_append]
  have hlt : (c ++ rest).length < (token :: ts).length := by
    rw [← hall]
    simp only [length_append, length_cons]
    omega
  have hsuffix : c ++ rest <:+ token :: ts := by
    rw [← hall]
    exact ((suffix_append _ _).trans (suffix_cons _ _)).trans (suffix_append _ _)
  rw [hts, hjoint, ← length_cons (a := token), ← hall]
  apply Reaches.distinct
  apply Chart.reaches_joint (hsound.tracks.push hsound.size_eq rfl) hseparator before after
    (hall ▸ suffix_refl _)
  rw [Chart.row_push_of_lt _ _ (by rw [hsound.size_eq]; exact hlt),
    Chart.row_ofTokens (suffix_of_length_lt hsuffix hlt)]
  exact hc rest

theorem Covers.barCommand (before after : Option Text) (h : Covers (·.command) c) :
    Covers (·.barCommand) (jointTokens .bar before after c) := by
  exact h.joint (by simp) Row.barCommand_cons before after

theorem Covers.semicolonCommand (before after : Option Text) (h : Covers (·.command) c) :
    Covers (·.semicolonCommand) (jointTokens .semicolon before after c) := by
  exact h.joint (by simp) Row.semicolonCommand_cons before after

theorem Covers.semicolonPipe (before after : Option Text) (h : Covers (·.pipe) c) :
    Covers (·.semicolonPipe) (jointTokens .semicolon before after c) := by
  exact h.joint (by simp) Row.semicolonPipe_cons before after

/-- Joints in a row, read by a kind of reading that takes as many of them as it can. -/
theorem covers_joints {joint : Row → Readings (Joint Command)}
    {joints : Row → Readings (List (Joint Command))}
    (hend : joints (Row.ofTokens []) = [([], 0)])
    (hcons : ∀ token ts, joints (Row.ofTokens (token :: ts)) =
      (readJoints (Chart.ofTokens ts) (joint (Row.ofTokens (token :: ts))) joints
        (ts.length + 1)).distinct)
    (htakes : ∀ ts, (joint (Row.ofTokens ts)).Takes ts) (cs : List (List Token))
    (hcs : ∀ c ∈ cs, Covers joint c) : Covers joints cs.flatten := by
  intro rest
  induction cs with
  | nil =>
    rw [flatten_nil, nil_append]
    cases rest with
    | nil =>
      rw [hend]
      exact reaches_singleton _ _
    | cons token ts =>
      rw [hcons]
      exact ((reaches_singleton _ _).append_right _).distinct
  | cons c cs ih =>
    have hc := hcs c mem_cons_self
    have hjoint := hc (cs.flatten ++ rest)
    obtain ⟨token, ts, rfl⟩ := exists_cons_of_ne_nil (hc.ne_nil htakes)
    have hlater := ih fun c hmem => hcs c (mem_cons_of_mem _ hmem)
    rw [flatten_cons, append_assoc, cons_append, hcons]
    refine (Reaches.append_left (hjoint.andThen fun first => ?_) _).distinct
    rw [Chart.row_ofTokens (suffix_append _ _)]
    exact hlater.as _

theorem covers_bars (cs : List (List Token)) (hcs : ∀ c ∈ cs, Covers (·.barCommand) c) :
    Covers (·.bars) cs.flatten := by
  exact covers_joints rfl Row.bars_cons (fun ts => (Row.sound_ofTokens ts).takes.barCommand) cs hcs

theorem covers_semicolons (cs : List (List Token))
    (hcs : ∀ c ∈ cs, Covers (·.semicolonCommand) c) : Covers (·.semicolons) cs.flatten := by
  exact covers_joints rfl Row.semicolons_cons
    (fun ts => (Row.sound_ofTokens ts).takes.semicolonCommand) cs hcs

theorem Covers.pipe (hc : Covers (·.command) c) (hd : Covers (·.barCommand) d)
    (he : Covers (·.bars) e) : Covers (·.pipe) (c ++ (d ++ e)) := by
  intro rest
  have hcommand := hc (d ++ (e ++ rest))
  have hne : c ≠ [] := hc.ne_nil fun ts => (Row.sound_ofTokens ts).takes.command
  obtain ⟨token, ts, rfl⟩ := exists_cons_of_ne_nil hne
  have hsuffix : d ++ (e ++ rest) <:+ ts ++ (d ++ (e ++ rest)) := suffix_append _ _
  dsimp only at hcommand ⊢
  rw [append_assoc, append_assoc, cons_append, Row.pipe_cons]
  refine (hcommand.andThen fun first => ?_).distinct
  rw [Chart.row_ofTokens hsuffix]
  exact (hd (e ++ rest)).row he ((suffix_append _ _).trans hsuffix) _

/-- The four kinds of first pair of a sequence go on in the same way. -/
theorem reaches_sequencePair {β : Type} {left : Readings α} {joint : Row → Readings (Joint β)}
    (front : α → Joint β → Sequence) (hleft : left.Reaches (d ++ (e ++ rest)).length)
    (hd : Covers joint d) (he : Covers (·.semicolons) e) (hsuffix : d ++ (e ++ rest) <:+ ts) :
    (left.andThen fun first left => (joint ((Chart.ofTokens ts).row left)).andThen
      fun joint left => ((Chart.ofTokens ts).row left).semicolons.as
        (front first joint).extend).Reaches rest.length := by
  refine hleft.andThen fun first => ?_
  rw [Chart.row_ofTokens hsuffix]
  exact (hd (e ++ rest)).row he ((suffix_append _ _).trans hsuffix) _

theorem Covers.sequence (hc : Covers (·.command) c ∨ Covers (·.pipe) c)
    (hd : Covers (·.semicolonCommand) d ∨ Covers (·.semicolonPipe) d)
    (he : Covers (·.semicolons) e) : Covers (·.sequence) (c ++ (d ++ e)) := by
  intro rest
  have hne : c ≠ [] := by
    rcases hc with hc | hc
    · exact hc.ne_nil fun ts => (Row.sound_ofTokens ts).takes.command
    · exact hc.ne_nil fun ts => (Row.sound_ofTokens ts).takes.pipe
  obtain ⟨token, ts, rfl⟩ := exists_cons_of_ne_nil hne
  have hsuffix : d ++ (e ++ rest) <:+ ts ++ (d ++ (e ++ rest)) := suffix_append _ _
  have hleft := hc.imp (· (d ++ (e ++ rest))) (· (d ++ (e ++ rest)))
  dsimp only at hleft ⊢
  rw [append_assoc, append_assoc, cons_append, Row.sequence_cons]
  apply Reaches.distinct
  rcases hleft with hleft | hleft <;> rcases hd with hd | hd
  · exact (((reaches_sequencePair _ hleft hd he hsuffix).append_left _).append_left _).append_left _
  · exact (reaches_sequencePair _ hleft hd he hsuffix).append_right _
  · exact (((reaches_sequencePair _ hleft hd he hsuffix).append_right _).append_left
      _).append_left _
  · exact ((reaches_sequencePair _ hleft hd he hsuffix).append_right _).append_left _

theorem Covers.commandLine (h : Covers (·.command) c ∨ Covers (·.pipe) c ∨ Covers (·.sequence) c) :
    Covers (·.commandLine) c := by
  intro rest
  have hne : c ≠ [] := by
    rcases h with h | h | h
    · exact h.ne_nil fun ts => (Row.sound_ofTokens ts).takes.command
    · exact h.ne_nil fun ts => (Row.sound_ofTokens ts).takes.pipe
    · exact h.ne_nil fun ts => (Row.sound_ofTokens ts).takes.sequence
  obtain ⟨token, ts, rfl⟩ := exists_cons_of_ne_nil hne
  have hread := h.imp (· rest) (Or.imp (· rest) (· rest))
  dsimp only at hread ⊢
  rw [cons_append] at hread ⊢
  rw [Row.commandLine_cons]
  apply Reaches.distinct
  rcases hread with hread | hread | hread
  · exact ((hread.as _).append_left _).append_left _
  · exact ((hread.as _).append_right _).append_left _
  · exact (hread.as _).append_right _

theorem Covers.substitution (before after : Option Text)
    (h : c = [] ∨ Covers (·.commandLine) c) :
    Covers (·.substitution)
      (.backquote :: (gapTokens before ++ (c ++ (gapTokens after ++ [Token.backquote])))) := by
  intro rest
  have hread : ∀ ts, ts = gapTokens before ++ (c ++ (gapTokens after ++ Token.backquote :: rest)) →
      (readSubstitution (Chart.ofTokens ts) .backquote ts.length).Reaches rest.length := by
    rintro ts rfl
    have htracks := (Chart.sound_ofTokens
      (gapTokens before ++ (c ++ (gapTokens after ++ .backquote :: rest)))).tracks
    have hline := suffix_append (gapTokens before)
      (c ++ (gapTokens after ++ .backquote :: rest))
    have hclose := (suffix_append c (gapTokens after ++ .backquote :: rest)).trans hline
    have hafter := Chart.reaches_gapThen htracks after (by simp) hclose
    unfold readSubstitution
    rw [if_pos rfl]
    refine (Chart.reaches_gaps htracks before (suffix_refl _)).andThen fun gap => ?_
    rcases h with rfl | h
    · exact (hafter.as _).append_right _
    · refine Reaches.append_left ?_ _
      rw [Chart.row_ofTokens hline]
      exact (h _).andThen fun line => hafter.as _
  have heq : gapTokens before ++ (c ++ (gapTokens after ++ [Token.backquote])) ++ rest =
      gapTokens before ++ (c ++ (gapTokens after ++ .backquote :: rest)) := by
    simp only [append_assoc, singleton_append]
  have hsubstitution := hread _ heq
  dsimp only
  rw [cons_append, Row.substitution_cons]
  exact hsubstitution.distinct

end Joints

end CommandShell.Line

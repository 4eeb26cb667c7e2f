import CommandShell.Proofs.Void.Words

/-!
# What comes before the arguments

The opening and the name of a command are found by trying: a redirect takes the first reading of its
target after which the rest of the line can still be read. Whether it can does not depend on what the
arguments look like, only on whether there are any. So the opening and the name stay the same if the
arguments are exchanged for others.
-/

namespace CommandShell.Line

open Readings List

/-! ## Phrases that end only where no word goes on -/

/-- Tokens outside quotes and substitutions that end like a word. -/
structure WordEnd (ts : List Token) : Prop extends Quiet ts where
  last : ∃ front token, ts = front ++ [token] ∧ token.isSpace = false ∧
    Direction.ofToken? token = none

/-- A phrase that does not end early at a place where no word goes on. -/
def Whole (ts : List Token) : Prop :=
  Outside ts → ∀ front back, ts = front ++ back → WordEnd front → back ≠ [] → ¬ Halted back

section Whole

variable {ts us : List Token}

theorem Halted.left (h : Halted (ts ++ us)) : Halted ts := by
  cases ts with
  | nil => exact ⟨.nil, nofun⟩
  | cons token ts => exact h

theorem WordEnd.ne_nil (h : WordEnd ts) : ts ≠ [] := by
  obtain ⟨front, token, rfl, -⟩ := h.last
  simp

theorem WordEnd.right (h : WordEnd (ts ++ us)) (hts : openAfter none ts = none) (hne : us ≠ []) :
    WordEnd us := by
  have hstate := h.state
  rw [openAfter_append, hts] at hstate
  refine ⟨⟨fun hmem => h.plain (mem_append_right _ hmem), hstate⟩, ?_⟩
  obtain ⟨front, token, hfront, htoken⟩ := h.last
  rcases eq_nil_or_concat us with rfl | ⟨us, last, rfl⟩
  · exact absurd rfl hne
  · rw [concat_eq_append, ← append_assoc] at hfront
    obtain ⟨-, hlast⟩ := append_inj' hfront rfl
    refine ⟨us, last, concat_eq_append, ?_⟩
    rw [(List.cons.inj hlast).1]
    exact htoken

theorem WordEnd.append_left (h : WordEnd us) (hts : Quiet ts) : WordEnd (ts ++ us) := by
  obtain ⟨front, token, hfront, htoken⟩ := h.last
  exact ⟨hts.append h.toQuiet, ts ++ front, token, by rw [hfront, append_assoc], htoken⟩

theorem whole_of_backquote (ts : List Token) : Whole (.backquote :: ts) := by
  intro _ front back hts hfront
  cases front with
  | nil => exact absurd rfl hfront.ne_nil
  | cons token front =>
    have htoken := (List.cons.inj hts).1
    exact absurd (htoken ▸ mem_cons_self) hfront.plain

theorem whole_singleton (token : Token) : Whole [token] := by
  intro _ front back hts hfront hback
  have hlength := congrArg List.length hts
  have hpos := length_pos_iff.mpr hfront.ne_nil
  have hpos' := length_pos_iff.mpr hback
  simp only [length_append, length_cons, length_nil] at hlength
  omega

theorem Chunk.whole (chunk : Chunk) : Whole chunk.tokens := by
  cases chunk with
  | chars text | dash => exact whole_singleton _
  | string quote inside plain =>
    intro _ front back hts hfront hback
    obtain ⟨front, rfl⟩ : ∃ later, front = quote.token :: later := by
      cases front with
      | nil => exact absurd rfl hfront.ne_nil
      | cons token later => exact ⟨later, by rw [(List.cons.inj hts).1]⟩
    obtain ⟨back, last, rfl⟩ : ∃ more last, back = more ++ [last] := by
      rcases eq_nil_or_concat back with rfl | ⟨more, last, rfl⟩
      · exact absurd rfl hback
      · exact ⟨more, last, concat_eq_append⟩
    have hinside : inside = front ++ back := by
      have htail : inside ++ [quote.token] = front ++ back ++ [last] := by
        rw [append_assoc]
        exact (List.cons.inj hts).2
      exact (append_inj' htail rfl).1
    have hmem : quote.token ∉ front := fun h =>
      (plain _ (hinside ▸ mem_append_left _ h)).1 rfl
    have hstate := hfront.state
    rw [openAfter_cons, show Quote.after none quote.token = some quote by cases quote <;> rfl,
      openAfter_inside hmem] at hstate
    cases hstate

/-- Two phrases without a gap between them: the second begins as words go on. -/
theorem Whole.append (hts : Whole ts) (henclosed : Encloses ts) (hus : Whole us)
    (hstart : ¬ Halted us) : Whole (ts ++ us) := by
  intro hout front back hcut hfront hback
  have hstate := (henclosed hout.left).state
  rcases append_eq_append_iff.mp hcut with ⟨more, rfl, hmore⟩ | ⟨more, hmore, rfl⟩
  · by_cases hne : more = []
    · subst hne
      rw [nil_append] at hmore
      exact hmore ▸ hstart
    · exact hus (hout.right hstate) more back hmore (hfront.right hstate hne) hback
  · by_cases hne : more = []
    · subst hne
      exact hstart
    · exact fun h => hts hout.left front more hmore hfront hne h.left

theorem Whole.cons {token : Token}
    (htoken : token.isSpace = true ∨ ∃ direction, Direction.ofToken? token = some direction)
    (h : Whole ts) : Whole (token :: ts) := by
  have hstate : openAfter none [token] = none := by
    rcases htoken with htoken | ⟨direction, htoken⟩
    · cases token with
      | space text => rfl
      | _ => cases htoken
    · cases token with
      | less => rfl
      | greater => rfl
      | _ => cases htoken
  intro hout front back hcut hfront hback
  cases front with
  | nil => exact absurd rfl hfront.ne_nil
  | cons first front =>
    obtain ⟨rfl, rfl⟩ : token = first ∧ ts = front ++ back := List.cons.inj hcut
    have hne : front ≠ [] := by
      rintro rfl
      obtain ⟨front, last, hlast, hspace, hdirection⟩ := hfront.last
      obtain ⟨-, hlast⟩ := append_inj' (show [] ++ [token] = front ++ [last] from hlast) rfl
      rw [← (List.cons.inj hlast).1] at hspace hdirection
      rcases htoken with htoken | ⟨direction, htoken⟩
      · rw [hspace] at htoken; cases htoken
      · rw [hdirection] at htoken; cases htoken
    exact h (@Outside.right [token] _ hout hstate) front back rfl
      (@WordEnd.right [token] _ hfront hstate hne) hback

end Whole

theorem Chunk.not_halted (chunk : Chunk) (ts : List Token) : ¬ Halted (chunk.tokens ++ ts) :=
  fun h => chunk.not_stopped ts h.1

theorem not_halted_of_backquote (ts : List Token) : ¬ Halted (.backquote :: ts) :=
  fun h => h.2 rfl

theorem Quoted.whole (q : Quoted) : Whole q.tree.tokens := by
  intro hout
  obtain ⟨chunk, hchunk, -⟩ := q.exists_chunk (q.backquote_not_mem_of_outside hout)
  rw [hchunk] at hout ⊢
  exact chunk.whole hout

theorem Quoted.not_halted (q : Quoted) (ts : List Token) : ¬ Halted (q.tree.tokens ++ ts) := by
  cases q with
  | mk quote body =>
    intro h
    cases quote <;> cases h.1 _ rfl

theorem Substitution.exists_cons (s : Substitution) : ∃ ts, s.tree.tokens = .backquote :: ts := by
  cases s with
  | void before after => exact ⟨_, rfl⟩
  | run before line after => exact ⟨_, rfl⟩

theorem Substitution.whole (s : Substitution) : Whole s.tree.tokens := by
  obtain ⟨ts, hts⟩ := s.exists_cons
  exact hts ▸ whole_of_backquote ts

theorem Substitution.not_halted (s : Substitution) (ts : List Token) :
    ¬ Halted (s.tree.tokens ++ ts) := by
  obtain ⟨us, hus⟩ := s.exists_cons
  exact hus ▸ not_halted_of_backquote _

theorem Strings.not_halted (s : Strings) (ts : List Token) :
    ¬ Halted (Tree.tokensOf s.trees ++ ts) := by
  cases s with
  | one first => simpa using first.not_halted ts
  | more first rest => simpa using first.not_halted (Tree.tokensOf rest.trees ++ ts)

theorem Strings.whole (s : Strings) : Whole (Tree.tokensOf s.trees) := by
  match s with
  | .one first => simpa using first.whole
  | .more first rest =>
    have hstart := rest.not_halted []
    rw [append_nil] at hstart
    exact first.whole.append first.encloses rest.whole hstart

theorem Word.not_halted (w : Word) (ts : List Token) : ¬ Halted (w.tree.tokens ++ ts) := by
  match w with
  | .chars text => exact (Chunk.chars text).not_halted ts
  | .dash => exact Chunk.dash.not_halted ts
  | .voidBefore gap rest => exact not_halted_of_backquote _
  | .substitutionBefore inner rest => simpa using inner.not_halted (rest.tree.tokens ++ ts)
  | .substitution inner => simpa using inner.not_halted ts
  | .strings run => exact run.not_halted ts
  | .stringBefore first rest => simpa using first.not_halted (rest.tree.tokens ++ ts)
  | .charsBefore text rest => exact (Chunk.chars text).not_halted _
  | .dashBefore rest => exact Chunk.dash.not_halted _
  | .stringAfter front last => simpa using front.not_halted (last.tree.tokens ++ ts)
  | .voidAfter front gap =>
    simpa using front.not_halted (Tree.tokensOf (voidLeaves gap) ++ ts)
  | .substitutionAfter front inner => simpa using front.not_halted (inner.tree.tokens ++ ts)

theorem Word.whole (w : Word) : Whole w.tree.tokens := by
  have hstart : ∀ rest : Word, ¬ Halted rest.tree.tokens := fun rest =>
    append_nil rest.tree.tokens ▸ rest.not_halted []
  have hquoted : ∀ q : Quoted, ¬ Halted q.tree.tokens := fun q =>
    append_nil q.tree.tokens ▸ q.not_halted []
  have hsubstitution : ∀ s : Substitution, ¬ Halted s.tree.tokens := fun s =>
    append_nil s.tree.tokens ▸ s.not_halted []
  match w with
  | .chars text | .dash => exact whole_singleton _
  | .voidBefore gap rest => exact whole_of_backquote _
  | .substitutionBefore inner rest =>
    simpa using inner.whole.append inner.encloses rest.whole (hstart rest)
  | .substitution inner => simpa using inner.whole
  | .strings run => exact run.whole
  | .stringBefore first rest =>
    simpa using first.whole.append first.encloses rest.whole (hstart rest)
  | .charsBefore text rest =>
    simpa using (whole_singleton _).append (encloses_chars text) rest.whole (hstart rest)
  | .dashBefore rest =>
    simpa using (whole_singleton _).append encloses_dash rest.whole (hstart rest)
  | .stringAfter front last =>
    simpa using front.whole.append front.encloses last.whole (hquoted last)
  | .voidAfter front gap =>
    simpa [voidLeaves] using
      front.whole.append front.encloses (whole_of_backquote _) (not_halted_of_backquote _)
  | .substitutionAfter front inner =>
    simpa using front.whole.append front.encloses inner.whole (hsubstitution inner)

variable {α : Type} {ts : List Token} {left : Nat} {may : Nat → Bool} {name : Word}

private theorem whole_gap (gap : Option Text) (h : Whole ts) : Whole (gapTokens gap ++ ts) := by
  cases gap with
  | none => exact h
  | some text => exact h.cons (.inl rfl)

theorem whole_spaces (spaces : List Text) (h : Whole ts) : Whole (spaces.map .space ++ ts) := by
  induction spaces with
  | nil => exact h
  | cons text spaces ih => exact ih.cons (.inl rfl)

theorem Redirect.whole (r : Redirect) : Whole r.tree.tokens := by
  cases r with
  | mk direction gap target =>
    rw [Redirect.tokens_mk]
    exact (whole_gap gap target.whole).cons (.inr ⟨direction, by cases direction <;> rfl⟩)

theorem Modifier.whole (m : Modifier) : Whole m.tree.tokens := by
  cases m with
  | flag name => simpa using (Word.dashBefore name).whole
  | arg value => simpa using value.whole

/-! ## Commands cut before their arguments -/

/-- Nothing, or tokens that end like a word. -/
def Ends (ts : List Token) : Prop := ts = [] ∨ WordEnd ts

/-- If a phrase comes first, then a place where no word goes on is before it or behind it. -/
theorem Whole.cut {item rest front back : List Token} (h : Whole item)
    (henclosed : Encloses item) (hout : Outside (item ++ rest)) (hfront : Ends front)
    (hback : Halted back) (hcut : item ++ rest = front ++ back) :
    front = [] ∨ ∃ later, front = item ++ later ∧ rest = later ++ back ∧ Ends later := by
  rcases hfront with rfl | hfront
  · exact .inl rfl
  rcases append_eq_append_iff.mp hcut with ⟨more, rfl, hmore⟩ | ⟨more, hmore, rfl⟩
  · refine .inr ⟨more, rfl, hmore, ?_⟩
    by_cases hne : more = []
    · exact .inl hne
    · exact .inr (hfront.right (henclosed hout.left).state hne)
  · by_cases hne : more = []
    · subst hne
      rw [append_nil] at hmore
      exact .inr ⟨[], by simp [hmore], rfl, .inl rfl⟩
    · exact absurd hback.left (h hout.left front more hmore hfront hne)

theorem tokensOf_redirect (spaces : List Text) (first : Redirect) (rest : Ending) :
    Tree.tokensOf (Ending.redirect spaces first rest).trees =
      spaces.map .space ++ first.tree.tokens ++ Tree.tokensOf rest.trees := by
  rw [Ending.trees, Tree.tokensOf_append, (forms_spaces spaces).tokensOf_eq, Tree.tokensOf,
    append_assoc]

@[simp] theorem tokensOf_modifier (text : Text) (first : Modifier) (rest : Ending) :
    Tree.tokensOf (Ending.modifier text first rest).trees =
      .space text :: first.tree.tokens ++ Tree.tokensOf rest.trees := rfl

theorem Redirect.encloses_spaced (r : Redirect) (spaces : List Text) :
    Encloses (spaces.map .space ++ r.tree.tokens) := by
  have h := (encloses_spaces spaces).append r.encloses
  rwa [(forms_spaces spaces).tokensOf_eq] at h

theorem Modifier.encloses_spaced (m : Modifier) (text : Text) :
    Encloses (.space text :: m.tree.tokens) := by
  have h := (encloses_spaces [text]).append m.encloses
  rwa [(forms_spaces [text]).tokensOf_eq] at h

theorem Ending.cut (e : Ending) {front back : List Token} (hout : Outside (front ++ back))
    (hfront : Ends front) (hback : Halted back) (h : Tree.tokensOf e.trees = front ++ back) :
    ∃ e' : Ending, Tree.tokensOf e'.trees = front := by
  match e with
  | .done =>
    have hnil : [] = front ++ back := h
    exact ⟨.done, (append_eq_nil_iff.mp hnil.symm).1.symm⟩
  | .redirect spaces first rest =>
    rw [tokensOf_redirect] at h
    have henclosed := first.encloses_spaced spaces
    have houtside := h ▸ hout
    rcases (whole_spaces spaces first.whole).cut henclosed houtside hfront hback h with
      rfl | ⟨later, rfl, hlater, hends⟩
    · exact ⟨.done, rfl⟩
    · have hright := houtside.right (henclosed houtside.left).state
      obtain ⟨e', he'⟩ := rest.cut (hlater ▸ hright) hends hback hlater
      exact ⟨.redirect spaces first e', by rw [tokensOf_redirect, he']⟩
  | .modifier text first rest =>
    rw [tokensOf_modifier] at h
    have henclosed := first.encloses_spaced text
    have houtside := h ▸ hout
    rcases (first.whole.cons (.inl rfl)).cut henclosed houtside hfront hback h with
      rfl | ⟨later, rfl, hlater, hends⟩
    · exact ⟨.done, rfl⟩
    · have hright := houtside.right (henclosed houtside.left).state
      obtain ⟨e', he'⟩ := rest.cut (hlater ▸ hright) hends hback hlater
      exact ⟨.modifier text first e', by rw [tokensOf_modifier, he']⟩

theorem Opening.cut (o : Opening) (name : Word) (e : Ending) {front back : List Token}
    (hout : Outside (front ++ back)) (hfront : Ends front) (hback : Halted back)
    (h : Tree.tokensOf o.trees ++ (name.tree.tokens ++ Tree.tokensOf e.trees) = front ++ back) :
    (∃ (o' : Opening) (e' : Ending), Tree.tokensOf o'.trees ++
        (name.tree.tokens ++ Tree.tokensOf e'.trees) = front) ∨
      ∃ o' : Opening, Tree.tokensOf o'.trees = front := by
  match o with
  | .done =>
    rw [show Tree.tokensOf Opening.done.trees = [] from rfl, nil_append] at h
    have houtside := h ▸ hout
    rcases name.whole.cut name.encloses houtside hfront hback h with
      rfl | ⟨later, rfl, hlater, hends⟩
    · exact .inr ⟨.done, rfl⟩
    · have hright := houtside.right (name.encloses houtside.left).state
      obtain ⟨e', rfl⟩ := e.cut (hlater ▸ hright) hends hback hlater
      exact .inl ⟨.done, e', rfl⟩
  | .space text rest =>
    have hcons : [Token.space text] ++ (Tree.tokensOf rest.trees ++
        (name.tree.tokens ++ Tree.tokensOf e.trees)) = front ++ back := h
    have houtside := hcons ▸ hout
    rcases (whole_singleton (.space text)).cut (encloses_spaces [text]) houtside hfront hback
      hcons with rfl | ⟨later, rfl, hlater, hends⟩
    · exact .inr ⟨.done, rfl⟩
    · have hright := houtside.right rfl
      rcases rest.cut name e (hlater ▸ hright) hends hback hlater with
        ⟨o', e', rfl⟩ | ⟨o', rfl⟩
      · exact .inl ⟨.space text o', e', rfl⟩
      · exact .inr ⟨.space text o', rfl⟩
  | .redirect first rest =>
    rw [Opening.trees, Tree.tokensOf, append_assoc] at h
    have houtside := h ▸ hout
    rcases first.whole.cut first.encloses houtside hfront hback h with
      rfl | ⟨later, rfl, hlater, hends⟩
    · exact .inr ⟨.done, rfl⟩
    · have hright := houtside.right (first.encloses houtside.left).state
      rcases rest.cut name e (hlater ▸ hright) hends hback hlater with
        ⟨o', e', rfl⟩ | ⟨o', rfl⟩
      · exact .inl ⟨.redirect first o', e', by
          rw [Opening.trees, Tree.tokensOf, append_assoc]⟩
      · exact .inr ⟨.redirect first o', rfl⟩

theorem Encloses.quiet (h : Encloses ts) (hplain : .backquote ∉ ts) : Quiet ts :=
  ⟨hplain, (h (outside_of_not_mem hplain)).state⟩

theorem Chunk.wordEnd (chunk : Chunk) : WordEnd chunk.tokens := by
  refine ⟨chunk.quiet, ?_⟩
  cases chunk with
  | chars text => exact ⟨[], .chars text, rfl, rfl, rfl⟩
  | dash => exact ⟨[], .dash, rfl, rfl, rfl⟩
  | string quote inside plain =>
    exact ⟨quote.token :: inside, quote.token, rfl, by cases quote <;> rfl,
      by cases quote <;> rfl⟩

theorem Word.wordEnd (w : Word) (h : .backquote ∉ w.tree.tokens) : WordEnd w.tree.tokens := by
  obtain ⟨chunks, htokens, hne, -⟩ := w.exists_chunks h
  refine ⟨w.encloses.quiet h, ?_⟩
  rcases eq_nil_or_concat chunks with rfl | ⟨front, last, rfl⟩
  · exact absurd rfl hne
  · obtain ⟨more, token, hlast, htoken⟩ := last.wordEnd.last
    refine ⟨Chunk.row front ++ more, token, ?_, htoken⟩
    rw [htokens, concat_eq_append, Chunk.row_append, Chunk.row_cons, Chunk.row_nil,
      append_nil, hlast, append_assoc]

theorem Opening.wordEnd (o : Opening) (name : Word)
    (h : .backquote ∉ Tree.tokensOf o.trees ++ name.tree.tokens) :
    WordEnd (Tree.tokensOf o.trees ++ name.tree.tokens) := by
  rw [mem_append, not_or] at h
  exact (name.wordEnd h.2).append_left (o.encloses.quiet h.1)

/-! ## Openings and endings without substitutions can be read -/

theorem Redirect.covers_spaced (r : Redirect) (h : .backquote ∉ r.tree.tokens)
    (spaces : List Text) : Covers (·.spacedRedirect) (spaces.map .space ++ r.tree.tokens) := by
  obtain ⟨direction, gap, target, htokens, hne, -⟩ := r.exists_tokens h
  rw [htokens]
  exact ((Chunk.atoms_row hne).covers_redirect direction gap).spacedRedirect spaces

theorem Redirect.covers_opened (r : Redirect) (h : .backquote ∉ r.tree.tokens) {c : List Token}
    (hc : Covers (·.opened) c) : Covers (·.opened) (r.tree.tokens ++ c) := by
  obtain ⟨direction, gap, target, htokens, hne, -⟩ := r.exists_tokens h
  rw [htokens]
  exact ((Chunk.atoms_row hne).covers_redirect direction gap).opened_redirect hc

theorem Modifier.atoms (m : Modifier) (h : .backquote ∉ m.tree.tokens) : Atoms m.tree.tokens := by
  obtain ⟨chunks, htokens, hne⟩ := m.exists_chunks h
  rw [htokens]
  exact Chunk.atoms_row hne

theorem Word.atoms (w : Word) (h : .backquote ∉ w.tree.tokens) : Atoms w.tree.tokens := by
  obtain ⟨chunks, htokens, hne, -⟩ := w.exists_chunks h
  rw [htokens]
  exact Chunk.atoms_row hne

theorem Ending.covers_append (e : Ending) (h : .backquote ∉ Tree.tokensOf e.trees)
    {c : List Token} (hc : Covers (·.ending) c) :
    Covers (·.ending) (Tree.tokensOf e.trees ++ c) := by
  match e with
  | .done => exact hc
  | .redirect spaces first rest =>
    rw [tokensOf_redirect] at h ⊢
    simp only [mem_append, not_or] at h
    rw [append_assoc]
    exact (first.covers_spaced h.1.2 spaces).ending_redirect (rest.covers_append h.2 hc)
  | .modifier text first rest =>
    rw [tokensOf_modifier] at h ⊢
    simp only [mem_append, mem_cons, not_or] at h
    rw [append_assoc]
    exact (first.atoms h.1.2).covers_arg.ending_modifier text (rest.covers_append h.2 hc)

theorem Opening.covers_append (o : Opening) (h : .backquote ∉ Tree.tokensOf o.trees)
    {c : List Token} (hc : Covers (·.opened) c) :
    Covers (·.opened) (Tree.tokensOf o.trees ++ c) := by
  match o with
  | .done => exact hc
  | .space text rest =>
    have hrest : .backquote ∉ Tree.tokensOf rest.trees := fun hmem => h (mem_cons_of_mem _ hmem)
    exact (rest.covers_append hrest hc).opened_space text
  | .redirect first rest =>
    rw [Opening.trees, Tree.tokensOf] at h ⊢
    rw [mem_append, not_or] at h
    rw [append_assoc]
    exact first.covers_opened h.1 (rest.covers_append h.2 hc)

/-- Tokens that can be read as the rest of an opening, a name and an ending. -/
def Opens (ts : List Token) : Prop :=
  ∃ c d, ts = c ++ d ∧ Covers (·.opened) c ∧ Covers (·.ending) d

theorem Opening.opens_append (o : Opening) (h : .backquote ∉ Tree.tokensOf o.trees) (hts : Opens ts) :
    Opens (Tree.tokensOf o.trees ++ ts) := by
  obtain ⟨c, d, rfl, hc, hd⟩ := hts
  exact ⟨Tree.tokensOf o.trees ++ c, d, (append_assoc ..).symm, o.covers_append h hc, hd⟩

/-- The first argument of an ending can be taken for a name, and what stands before it for an
opening. -/
theorem Ending.opens (e : Ending) (h : .backquote ∉ Tree.tokensOf e.trees)
    (hmodifiers : e.modifiers ≠ []) : Opens (Tree.tokensOf e.trees) := by
  match e with
  | .done => exact absurd rfl hmodifiers
  | .redirect spaces first rest =>
    rw [tokensOf_redirect] at h ⊢
    simp only [mem_append, not_or] at h
    obtain ⟨c, d, hcut, hc, hd⟩ := rest.opens h.2 hmodifiers
    rw [hcut]
    exact ⟨_, d, by simp only [append_assoc],
      (first.covers_opened h.1.2 hc).opened_spaces spaces, hd⟩
  | .modifier text first rest =>
    rw [tokensOf_modifier] at h ⊢
    simp only [mem_append, mem_cons, not_or] at h
    have hrest := rest.covers_append h.2 covers_ending_nil
    rw [append_nil] at hrest
    exact ⟨_, _, rfl, (first.atoms h.1.2).covers_opened.opened_space text, hrest⟩

/-! ## Readings that end before the arguments -/

namespace Readings

variable {α : Type} {may may' : Nat → Bool}

/-- If no reading ends in the last tokens, then they can be left out. -/
theorem pick_within {n : Nat} {xs : Readings α} (h : ∀ a left, (a, left) ∈ xs → n ≤ left) :
    xs.pick may = ((within n xs).pick fun left => may (left + n)).map
      fun reading => (reading.1, reading.2 + n) := by
  induction xs with
  | nil => rfl
  | cons reading xs ih =>
    obtain ⟨a, left⟩ := reading
    have hleft := h a left mem_cons_self
    have hsum : left - n + n = left := Nat.sub_add_cancel hleft
    rw [within_cons_of_le a xs hleft]
    cases hmay : may left with
    | true =>
      rw [pick_cons_of_may hmay, pick_cons_of_may (by rw [hsum]; exact hmay), Option.map_some,
        hsum]
    | false =>
      rw [pick_cons_of_not hmay, pick_cons_of_not (by rw [hsum]; exact hmay)]
      exact ih fun a left hmem => h a left (mem_cons_of_mem _ hmem)

private theorem pick_of_imp {xs : Readings α} {a : α} (h : xs.pick may = some (a, left))
    (himp : ∀ b middle, (b, middle) ∈ xs → may' middle = true → may middle = true)
    (hleft : may' left = true) : xs.pick may' = some (a, left) := by
  induction xs with
  | nil => cases h
  | cons reading xs ih =>
    obtain ⟨b, middle⟩ := reading
    cases hmay : may middle with
    | true =>
      rw [pick_cons_of_may hmay] at h
      cases h
      exact pick_cons_of_may hleft _ _
    | false =>
      rw [pick_cons_of_not hmay] at h
      have hmay' : may' middle = false := by
        by_contra hne
        rw [himp b middle mem_cons_self (Bool.eq_true_of_not_eq_false hne)] at hmay
        cases hmay
      rw [pick_cons_of_not hmay']
      exact ih h fun b middle hmem => himp b middle (mem_cons_of_mem _ hmem)

theorem pick_exchanged {n m : Nat} {xs ys zs : Readings α} {a : α} (hxs : within n xs = zs)
    (hys : within m ys = zs) (hn : ∀ a left, (a, left) ∈ xs → n ≤ left)
    (hm : ∀ a left, (a, left) ∈ ys → m ≤ left)
    (himp : ∀ b middle, (b, middle) ∈ zs → may' (middle + m) = true → may (middle + n) = true)
    (h : xs.pick may = some (a, left + n)) (hleft : may' (left + m) = true) :
    ys.pick may' = some (a, left + m) := by
  rw [pick_within hn, hxs, Option.map_eq_some_iff] at h
  obtain ⟨⟨b, middle⟩, hpick, hreading⟩ := h
  obtain ⟨rfl, hmiddle⟩ := Prod.mk.inj hreading
  obtain rfl : middle = left := Nat.add_right_cancel hmiddle
  rw [pick_within hm, hys, pick_of_imp hpick himp hleft]
  rfl

end Readings

/-- What is asked of the place after a name: that an ending goes up to the end of the line. -/
def Judges (may : Nat → Bool) (ts : List Token) : Prop :=
  ∀ us, us <:+ ts → may us.length = (Row.ofTokens us).ending.ends 0

theorem judges_self (ts : List Token) :
    Judges (fun left => ((Chart.ofTokens ts).row left).ending.ends 0) ts :=
  fun _ hus => congrArg (fun row : Row => row.ending.ends 0) (Chart.row_ofTokens hus)

theorem Judges.mono {us : List Token} (h : Judges may ts) (hus : us <:+ ts) : Judges may us :=
  fun vs hvs => h vs (hvs.trans hus)

/-- The arguments of a command and others in their place. -/
structure Exchanges (old new : List Token) : Prop where
  plain : .backquote ∉ old
  outside : Outside new
  halted : Halted old
  halted' : Halted new
  covers : Covers (·.ending) old
  opens : Opens old
  ends : (Row.ofTokens new).ending.ends 0 = true

theorem Covers.ends {kind : Row → Readings α} {c : List Token} (h : Covers kind c) :
    (kind (Row.ofTokens c)).ends 0 = true := by
  have hreaches := h []
  rw [append_nil] at hreaches
  exact ends_iff.mpr hreaches

theorem Ending.tokens_of_mem {e : Ending} (h : (e, 0) ∈ (Row.ofTokens ts).ending) :
    Tree.tokensOf e.trees = ts :=
  ((Row.sound_ofTokens (ts ++ [])).ending.taken ((append_nil ts).symm ▸ h)).tokensOf_eq

theorem Ending.exists_tokens (h : (Row.ofTokens ts).ending.ends 0 = true) :
    ∃ e : Ending, Tree.tokensOf e.trees = ts := by
  obtain ⟨e, he⟩ := ends_iff.mp h
  exact ⟨e, Ending.tokens_of_mem he⟩

theorem Opening.exists_tokens {ts : List Token} {may : Nat → Bool} (hmay : Judges may ts)
    (h : ((Row.ofTokens ts).opened.pick may).isSome = true) :
    ∃ (o : Opening) (name : Word) (e : Ending),
      Tree.tokensOf o.trees ++ (name.tree.tokens ++ Tree.tokensOf e.trees) = ts := by
  obtain ⟨⟨⟨o, name⟩, left⟩, hpick⟩ := Option.isSome_iff_exists.mp h
  obtain ⟨taken, rest, rfl, rfl, hforms⟩ :=
    (Row.sound_ofTokens ts).opened _ _ (mem_of_pick hpick)
  have hends := may_of_pick hpick
  rw [hmay rest (suffix_append _ _)] at hends
  obtain ⟨e, rfl⟩ := Ending.exists_tokens hends
  refine ⟨o, name, e, ?_⟩
  rw [← hforms.tokensOf_eq]
  simp [openedTrees]

theorem Opens.isSome_pick (h : Opens ts) (hmay : Judges may ts) :
    ((Row.ofTokens ts).opened.pick may).isSome = true := by
  obtain ⟨c, d, rfl, hc, hd⟩ := h
  have hleft : may d.length = true := by
    rw [hmay d (suffix_append _ _)]
    exact hd.ends
  obtain ⟨o, left, hpick⟩ := exists_pick (hc d) hleft
  rw [hpick]
  rfl

namespace Exchanges

variable {old new front : List Token} (h : Exchanges old new)

include h

theorem ends_old (hfront : Ends front) (hends : (Row.ofTokens (front ++ new)).ending.ends 0 = true)
    (hout : Outside (front ++ new)) : (Row.ofTokens (front ++ old)).ending.ends 0 = true := by
  obtain ⟨e, he⟩ := Ending.exists_tokens hends
  obtain ⟨e', rfl⟩ := e.cut hout hfront h.halted' he
  have hplain : .backquote ∉ Tree.tokensOf e'.trees := by
    rcases hfront with hnil | hfront
    · simp [hnil]
    · exact hfront.plain
  exact (e'.covers_append hplain h.covers).ends

theorem opens_old (hfront : Ends front) (hout : Outside (front ++ new))
    (hmay : Judges may (front ++ new))
    (hopened : ((Row.ofTokens (front ++ new)).opened.pick may).isSome = true) :
    Opens (front ++ old) := by
  have hplain : .backquote ∉ front := by
    rcases hfront with rfl | hfront
    · simp
    · exact hfront.plain
  obtain ⟨o, name, e, htokens⟩ := Opening.exists_tokens hmay hopened
  rcases o.cut name e hout hfront h.halted' htokens with ⟨o', e', rfl⟩ | ⟨o', rfl⟩
  · simp only [mem_append, not_or] at hplain
    obtain ⟨ho, hname, he⟩ := hplain
    rw [append_assoc]
    refine o'.opens_append ho ⟨name.tree.tokens, Tree.tokensOf e'.trees ++ old, ?_,
      (name.atoms hname).covers_opened, e'.covers_append he h.covers⟩
    rw [append_assoc]
  · exact o'.opens_append hplain h.opens

omit h in
/-- A phrase that begins before a place where no word goes on ends there at the latest. -/
theorem length_le {rest taken back : List Token} (hfront : WordEnd front) (hrest : Halted rest)
    (htaken : Whole taken) (hout : Outside (front ++ rest)) (hcut : front ++ rest = taken ++ back) :
    rest.length ≤ back.length := by
  have houtside : Outside taken := (hcut ▸ hout).left
  rcases append_eq_append_iff.mp hcut with ⟨more, rfl, rfl⟩ | ⟨more, -, rfl⟩
  · by_cases hne : more = []
    · simp [hne]
    · exact absurd hrest.left (htaken houtside front more rfl hfront hne)
  · simp

/-- The readings of a phrase that is whole stay the same before the arguments. -/
theorem pick_phrase (kind : Row → Readings α) (tokens : α → List Token)
    (hkind : ∀ ts, (kind (Row.ofTokens ts)).Sound (fun a c => tokens a = c) ts)
    (hlocal : ∀ ts rest, (kind (Row.ofTokens (ts ++ rest))).within rest.length =
      kind (Row.ofTokens ts)) (hwhole : ∀ a, Whole (tokens a))
    (henclosed : ∀ a, Encloses (tokens a)) (hne : ∀ a, tokens a ≠ []) (hfront : WordEnd front)
    {may' : Nat → Bool}
    (himp : ∀ taken later, taken ≠ [] → front = taken ++ later → Ends later →
      Outside (later ++ new) → may' (later ++ new).length = true →
      may (later ++ old).length = true) {a : α} {later : List Token}
    (hpick : (kind (Row.ofTokens (front ++ old))).pick may = some (a, (later ++ old).length))
    (hmay' : may' (later ++ new).length = true) :
    (kind (Row.ofTokens (front ++ new))).pick may' = some (a, (later ++ new).length) := by
  have houtold : Outside (front ++ old) := (outside_of_not_mem hfront.plain).append hfront.state
    (outside_of_not_mem h.plain)
  have houtnew : Outside (front ++ new) := (outside_of_not_mem hfront.plain).append hfront.state
    h.outside
  have hlength : ∀ rest : List Token, Halted rest → Outside (front ++ rest) →
      ∀ b left, (b, left) ∈ kind (Row.ofTokens (front ++ rest)) → rest.length ≤ left := by
    intro rest hhalted hout b left hmem
    obtain ⟨taken, back, hcut, rfl, rfl⟩ := hkind _ b left hmem
    exact length_le hfront hhalted (hwhole b) hout hcut
  rw [length_append] at hpick hmay' ⊢
  refine pick_exchanged (hlocal front old) (hlocal front new) (hlength old h.halted houtold)
    (hlength new h.halted' houtnew) ?_ hpick hmay'
  intro b middle hmem hmay
  obtain ⟨taken, back, rfl, rfl, rfl⟩ := hkind _ b middle hmem
  have hplain : .backquote ∉ tokens b := fun hmem => hfront.plain (mem_append_left _ hmem)
  have hstate := ((henclosed b).quiet hplain).state
  have hends : Ends back := by
    by_cases hne : back = []
    · exact .inl hne
    · exact .inr (hfront.right hstate hne)
  rw [append_assoc] at houtnew
  rw [← length_append] at hmay ⊢
  exact himp (tokens b) back (hne b) rfl hends (houtnew.right hstate) hmay

end Exchanges

theorem Row.sound_word (ts : List Token) :
    ((Row.ofTokens ts).word .loose).Sound (fun w c => w.tree.tokens = c) ts :=
  ((Row.sound_ofTokens ts).word .loose).mono fun w c hforms => by
    simpa using hforms.tokensOf_eq

theorem Row.sound_redirect (ts : List Token) :
    (Row.ofTokens ts).redirect.Sound (fun r c => r.tree.tokens = c) ts :=
  (Row.sound_ofTokens ts).redirect.mono fun r c hforms => by
    simpa using hforms.tokensOf_eq

theorem Row.within_ofTokens (ts rest : List Token) :
    (Row.ofTokens (ts ++ rest)).Within rest.length (Row.ofTokens ts) :=
  (Chart.within_ofTokens ts rest).row ts (suffix_refl ts)

private theorem pick_opened_word {token : Token} (hspace : ∀ text, token ≠ .space text)
    (hdirection : Direction.ofToken? token = none) (ts : List Token) (may : Nat → Bool) :
    (Row.ofTokens (token :: ts)).opened.pick may =
      (((Row.ofTokens (token :: ts)).word .loose).pick may).map
        fun name => ((.done, name.1), name.2) := by
  rw [Row.opened_of_word hspace hdirection, pick_distinct, pick_as]

theorem pick_opened_redirect (direction : Direction) (ts : List Token) (may : Nat → Bool) :
    (Row.ofTokens (direction.token :: ts)).opened.pick may =
      ((Row.ofTokens (direction.token :: ts)).redirect.pick fun left =>
        (((Chart.ofTokens ts).row left).opened.pick may).isSome).bind fun first =>
          (((Chart.ofTokens ts).row first.2).opened.pick may).map
            fun o => ((.redirect first.1 o.1.1, o.1.2), o.2) := by
  rw [Row.opened_direction, pick_distinct]
  exact pick_andThen_as _ (fun left => ((Chart.ofTokens ts).row left).opened)
    fun first o => (Opening.redirect first o.1, o.2)

section Exchanging

variable {old new : List Token} (h : Exchanges old new) {may may' : Nat → Bool}

include h

private theorem Exchanges.pick_name (hplain : .backquote ∉ name.tree.tokens)
    (hmay : Judges may (name.tree.tokens ++ old)) (hmay' : Judges may' (name.tree.tokens ++ new))
    (hpick : (Row.ofTokens (name.tree.tokens ++ old)).opened.pick may =
      some ((.done, name), old.length)) :
    (Row.ofTokens (name.tree.tokens ++ new)).opened.pick may' =
      some ((.done, name), new.length) := by
  obtain ⟨token, ts, hname, hspace, hdirection⟩ := (name.atoms hplain).exists_cons
  have hopened : ∀ (rest : List Token) (may : Nat → Bool),
      (Row.ofTokens (name.tree.tokens ++ rest)).opened.pick may =
        (((Row.ofTokens (name.tree.tokens ++ rest)).word .loose).pick may).map
          fun name => ((.done, name.1), name.2) := by
    intro rest may
    rw [hname]
    exact pick_opened_word hspace hdirection _ may
  rw [hopened, Option.map_eq_some_iff] at hpick
  obtain ⟨⟨word, left⟩, hword, hreading⟩ := hpick
  obtain ⟨rfl, rfl⟩ : word = name ∧ left = old.length := by simpa using hreading
  have hends : may' ([] ++ new).length = true :=
    (hmay' new (suffix_append _ _)).trans h.ends
  have hnew := h.pick_phrase (·.word .loose) (·.tree.tokens) Row.sound_word
    (fun ts rest => (Row.within_ofTokens ts rest).word .loose) Word.whole Word.encloses
    Word.tokens_ne_nil (word.wordEnd hplain) ?_ hword hends
  · rw [hopened, hnew]
    rfl
  · intro taken later _ hcut hlater hout hmore
    have hsuffix : ∀ rest, later ++ rest <:+ word.tree.tokens ++ rest := fun rest =>
      ⟨taken, by rw [hcut, append_assoc]⟩
    rw [hmay' _ (hsuffix new)] at hmore
    rw [hmay _ (hsuffix old)]
    exact h.ends_old hlater hmore hout

private theorem Exchanges.pick_redirect {first : Redirect} {later : List Token}
    (hfront : WordEnd (first.tree.tokens ++ later))
    (hmay : Judges may (first.tree.tokens ++ later ++ old))
    (hmay' : Judges may' (first.tree.tokens ++ later ++ new)) {rest : Opening}
    (hlater : (Row.ofTokens (later ++ old)).opened.pick may = some ((rest, name), old.length) →
      (Row.ofTokens (later ++ new)).opened.pick may' = some ((rest, name), new.length))
    (hpick : (Row.ofTokens (first.tree.tokens ++ later ++ old)).opened.pick may =
      some ((.redirect first rest, name), old.length)) :
    (Row.ofTokens (first.tree.tokens ++ later ++ new)).opened.pick may' =
      some ((.redirect first rest, name), new.length) := by
  obtain ⟨direction, ts, hfirst⟩ : ∃ (direction : Direction) (ts : List Token),
      first.tree.tokens ++ later = direction.token :: ts := by
    cases first with
    | mk direction gap target => exact ⟨direction, _, by rw [Redirect.tokens_mk]; rfl⟩
  rw [hfirst, cons_append] at hpick hmay hmay' ⊢
  rw [pick_opened_redirect, Option.bind_eq_some_iff] at hpick
  obtain ⟨⟨r, left⟩, hredirect, hbind⟩ := hpick
  obtain ⟨⟨⟨o, word⟩, left'⟩, hopened, hreading⟩ := Option.map_eq_some_iff.mp hbind
  obtain ⟨⟨⟨rfl, rfl⟩, rfl⟩, rfl⟩ : ((r = first ∧ o = rest) ∧ word = name) ∧ left' = old.length := by
    simpa using hreading
  have hsuffix : ∀ {taken back : List Token} (rest : List Token), taken ≠ [] →
      direction.token :: ts = taken ++ back → back ++ rest <:+ ts ++ rest := by
    intro taken back rest hne hcut
    have hcons : direction.token :: (ts ++ rest) = taken ++ (back ++ rest) := by
      rw [← cons_append, hcut, append_assoc]
    exact suffix_of_taken hcons hne
  have hrest := hsuffix old r.tokens_ne_nil hfirst.symm
  have hrest' := hsuffix new r.tokens_ne_nil hfirst.symm
  obtain rfl : left = (later ++ old).length := by
    obtain ⟨taken, back, hcut, rfl, rfl⟩ := Row.sound_redirect _ r left (mem_of_pick hredirect)
    rw [← cons_append, ← hfirst, append_assoc] at hcut
    rw [append_cancel_left hcut]
  rw [Chart.row_ofTokens hrest] at hopened
  have hnew := hlater hopened
  rw [← cons_append] at hredirect
  have hredirect' : (Row.ofTokens (direction.token :: ts ++ new)).redirect.pick (fun left =>
      (((Chart.ofTokens (ts ++ new)).row left).opened.pick may').isSome) =
        some (r, (later ++ new).length) := by
    refine h.pick_phrase (·.redirect) (·.tree.tokens) Row.sound_redirect
      (fun ts rest => (Row.within_ofTokens ts rest).redirect) Redirect.whole Redirect.encloses
      Redirect.tokens_ne_nil (hfirst ▸ hfront) ?_ hredirect ?_
    · intro taken later hne hcut hends hout hmore
      have hold := hsuffix old hne hcut
      have hnew := hsuffix new hne hcut
      rw [Chart.row_ofTokens hnew] at hmore
      rw [Chart.row_ofTokens hold]
      have hopens := h.opens_old hends hout (hmay'.mono (hnew.trans (suffix_cons _ _))) hmore
      exact hopens.isSome_pick (hmay.mono (hold.trans (suffix_cons _ _)))
    · rw [Chart.row_ofTokens hrest', hnew]
      rfl
  rw [pick_opened_redirect, ← cons_append, hredirect', Option.bind_some,
    Chart.row_ofTokens hrest', hnew]
  rfl

end Exchanging

/-- The opening and the name stay the same if the arguments are exchanged. -/
theorem Exchanges.pick_opened {old new : List Token} (h : Exchanges old new) (o : Opening)
    {name : Word} (hplain : .backquote ∉ Tree.tokensOf o.trees ++ name.tree.tokens)
    {may may' : Nat → Bool}
    (hmay : Judges may (Tree.tokensOf o.trees ++ name.tree.tokens ++ old))
    (hmay' : Judges may' (Tree.tokensOf o.trees ++ name.tree.tokens ++ new))
    (hpick : (Row.ofTokens (Tree.tokensOf o.trees ++ name.tree.tokens ++ old)).opened.pick may =
      some ((o, name), old.length)) :
    (Row.ofTokens (Tree.tokensOf o.trees ++ name.tree.tokens ++ new)).opened.pick may' =
      some ((o, name), new.length) := by
  match o with
  | .done => exact h.pick_name hplain hmay hmay' hpick
  | .space text rest =>
    have hrest : .backquote ∉ Tree.tokensOf rest.trees ++ name.tree.tokens :=
      fun hmem => hplain (mem_cons_of_mem _ hmem)
    have hspace : ∀ us, Tree.tokensOf (Opening.space text rest).trees ++ name.tree.tokens ++ us =
      Token.space text :: (Tree.tokensOf rest.trees ++ name.tree.tokens ++ us) := fun _ => rfl
    rw [hspace] at hpick hmay hmay' ⊢
    rw [pick_opened_space, Option.map_eq_some_iff] at hpick
    obtain ⟨⟨⟨o, word⟩, left⟩, hopened, hreading⟩ := hpick
    obtain ⟨⟨rfl, rfl⟩, rfl⟩ : (rest = o ∧ name = word) ∧ old.length = left := by
      simpa using hreading.symm
    rw [pick_opened_space, h.pick_opened rest hrest (hmay.mono (suffix_cons _ _))
      (hmay'.mono (suffix_cons _ _)) hopened]
    rfl
  | .redirect first rest =>
    have hfront := (Opening.redirect first rest).wordEnd name hplain
    rw [Opening.trees, Tree.tokensOf, append_assoc first.tree.tokens] at *
    have hrest : .backquote ∉ Tree.tokensOf rest.trees ++ name.tree.tokens :=
      fun hmem => hplain (mem_append_right _ hmem)
    have hsuffix : ∀ us, Tree.tokensOf rest.trees ++ name.tree.tokens ++ us <:+
        first.tree.tokens ++ (Tree.tokensOf rest.trees ++ name.tree.tokens) ++ us :=
      fun us => ⟨first.tree.tokens, (append_assoc ..).symm⟩
    exact h.pick_redirect hfront hmay hmay'
      (h.pick_opened rest hrest (hmay.mono (hsuffix old)) (hmay'.mono (hsuffix new))) hpick
termination_by structural o

/-! ## Commands with other arguments -/

theorem Readings.pick_congr {may' : Nat → Bool} {xs : Readings α}
    (h : ∀ a left, (a, left) ∈ xs → may left = may' left) : xs.pick may = xs.pick may' :=
  List.find?_congr fun reading hmem => h reading.1 reading.2 hmem

theorem Judges.pick_takes {token : Token} (hmay : Judges may (token :: ts)) {xs : Readings α}
    (hxs : xs.Takes (token :: ts)) :
    xs.pick may = xs.pick fun left => ((Chart.ofTokens ts).row left).ending.ends 0 := by
  refine pick_congr fun a left hmem => ?_
  obtain ⟨taken, rest, hcut, rfl, hne⟩ := hxs a left hmem
  rw [hmay rest (hcut ▸ suffix_append _ _), Chart.row_ofTokens (suffix_of_taken hcut hne)]

theorem reads_of_opened (hts : ∃ token later, ts = token :: later ∧ token.isSpace = false)
    (hmay : Judges may ts) {o : Opening}
    (h : (Row.ofTokens ts).opened.pick may = some ((o, name), left)) :
    ∃ e, (Tree.tokensOf e.trees).length = left ∧
      (e, 0) ∈ (Row.ofTokens (Tree.tokensOf e.trees)).ending ∧ (Command.mk o name e).Reads ts := by
  obtain ⟨token, ts, rfl, htoken⟩ := hts
  have htakes := (Row.sound_ofTokens (token :: ts)).takes.opened
  obtain ⟨taken, rest, hcut, rfl, hne⟩ := htakes _ _ (mem_of_pick h)
  rw [hmay.pick_takes htakes] at h
  obtain ⟨e, he, hreads⟩ := reads_of_pick htoken h
  rw [Chart.row_ofTokens (suffix_of_taken hcut hne)] at he
  obtain rfl := Ending.tokens_of_mem he
  exact ⟨e, rfl, he, hreads⟩

theorem Command.tokens_mk (o : Opening) (name : Word) (e : Ending) :
    (Command.mk o name e).tree.tokens =
      Tree.tokensOf o.trees ++ name.tree.tokens ++ Tree.tokensOf e.trees := by
  simp

theorem Exchanges.exists_reads {new : List Token} {o : Opening} {e : Ending}
    (h : Exchanges (Tree.tokensOf e.trees) new)
    (hplain : .backquote ∉ Tree.tokensOf o.trees ++ name.tree.tokens)
    (hspace : ∀ text ts, Tree.tokensOf o.trees ++ name.tree.tokens ≠ .space text :: ts)
    (hreads : (Command.mk o name e).Reads
      (Tree.tokensOf o.trees ++ name.tree.tokens ++ Tree.tokensOf e.trees)) :
    ∃ e', (e', 0) ∈ (Row.ofTokens new).ending ∧
      (Command.mk o name e').Reads (Tree.tokensOf o.trees ++ name.tree.tokens ++ new) := by
  have hstart : ∀ rest, ∃ (token : Token) (later : List Token),
      Tree.tokensOf o.trees ++ name.tree.tokens ++ rest = token :: later ∧
        token.isSpace = false := by
    intro rest
    cases hfront : Tree.tokensOf o.trees ++ name.tree.tokens with
    | nil => exact absurd (append_eq_nil_iff.mp hfront).2 name.tokens_ne_nil
    | cons token ts =>
      refine ⟨token, ts ++ rest, rfl, ?_⟩
      cases token with
      | space text => exact absurd hfront (hspace text ts)
      | _ => rfl
  have hopens : Opens (Tree.tokensOf o.trees ++ name.tree.tokens ++ Tree.tokensOf e.trees) := by
    rw [mem_append, not_or] at hplain
    rw [append_assoc]
    exact o.opens_append hplain.1 ⟨_, _, rfl, (name.atoms hplain.2).covers_opened, h.covers⟩
  have hold := judges_self (Tree.tokensOf o.trees ++ name.tree.tokens ++ Tree.tokensOf e.trees)
  have hnew := judges_self (Tree.tokensOf o.trees ++ name.tree.tokens ++ new)
  obtain ⟨⟨⟨o', name'⟩, left⟩, hpick⟩ := Option.isSome_iff_exists.mp (hopens.isSome_pick hold)
  -- the command is the only one that is read, so it has this opening and this name
  obtain ⟨e', rfl, -, hreads'⟩ := reads_of_opened (hstart _) hold hpick
  obtain ⟨rfl, rfl, rfl⟩ := Command.mk.inj (hreads.eq hreads')
  obtain ⟨e', -, he', hreads'⟩ :=
    reads_of_opened (hstart new) hnew (h.pick_opened o hplain hold hnew hpick)
  have htokens : Tree.tokensOf e'.trees = new := by
    have hcommand := hreads'.tokens_eq
    rw [Command.tokens_mk] at hcommand
    exact append_cancel_left hcommand
  exact ⟨e', htokens ▸ he', hreads'⟩

end CommandShell.Line

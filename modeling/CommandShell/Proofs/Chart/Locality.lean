import CommandShell.Proofs.Chart.Soundness

/-!
# Readings do not look ahead

Which reading of a phrase is preferred among those that end at one place depends only on the
tokens up to that place. So the chart of a longer token list, restricted to the readings that end
before some place, is the chart of the tokens before that place.
-/

namespace CommandShell.Line

open Grammar Readings List

/-! ## Readings that end early -/

variable {α β γ : Type} {n : Nat} {rest ts : List Token} {xs : Readings α}
  {quoted : Readings Quoted} {spaced : Readings (List Text × Redirect)}
  {substitution : Readings Substitution} {void : Readings (Option Text)}

namespace Readings

variable {α β : Type}

/-- The readings after which at least `n` tokens are left, counted without those `n`. -/
def within (n : Nat) (readings : Readings α) : Readings α :=
  readings.filterMap fun (a, left) => if n ≤ left then some (a, left - n) else none

@[simp] theorem within_nil (n : Nat) : within n ([] : Readings α) = [] := rfl

variable {left : Nat}

theorem within_cons_of_le (a : α) (xs : Readings α) (h : n ≤ left) :
    within n ((a, left) :: xs) = (a, left - n) :: within n xs := by
  simp [within, h]

theorem within_cons_of_lt (a : α) (xs : Readings α) (h : left < n) :
    within n ((a, left) :: xs) = within n xs := by
  simp [within, Nat.not_le.mpr h]

theorem within_cons_append (a : α) (xs : Readings α) (ts rest : List Token) :
    within rest.length ((a, (ts ++ rest).length) :: xs) =
      (a, ts.length) :: within rest.length xs := by
  rw [within_cons_of_le a xs (by simp), length_append, Nat.add_sub_cancel]

@[simp] theorem within_append (n : Nat) (xs ys : Readings α) :
    within n (xs ++ ys) = within n xs ++ within n ys :=
  filterMap_append

@[simp] theorem within_as (n : Nat) (f : α → β) (xs : Readings α) :
    within n (xs.as f) = (within n xs).as f := by
  induction xs with
  | nil => rfl
  | cons x xs ih =>
    obtain ⟨a, left⟩ := x
    change within n ((f a, left) :: as f xs) = _
    rcases Nat.lt_or_ge left n with h | h
    · rw [within_cons_of_lt _ _ h, within_cons_of_lt _ _ h, ih]
    · rw [within_cons_of_le _ _ h, within_cons_of_le _ _ h, ih]
      rfl

@[simp] theorem mem_within {a : α} {xs : Readings α} : (a, left) ∈ within n xs ↔
    (a, left + n) ∈ xs := by
  simp only [within, mem_filterMap, Prod.exists, Option.ite_none_right_eq_some,
    Option.some.injEq, Prod.mk.injEq]
  constructor
  · rintro ⟨b, k, hmem, hle, rfl, rfl⟩
    rwa [Nat.sub_add_cancel hle]
  · intro h
    exact ⟨a, left + n, h, Nat.le_add_left n left, rfl, Nat.add_sub_cancel ..⟩

theorem within_eq_nil {xs : Readings α} (h : ∀ a left, (a, left) ∈ xs → left < n) :
    within n xs = [] := by
  rw [eq_nil_iff_forall_not_mem]
  rintro ⟨a, left⟩ hmem
  have := h a _ (mem_within.mp hmem)
  omega

theorem distinct_cons (a : α) (left : Nat) (xs : Readings α) :
    distinct ((a, left) :: xs) = (a, left) :: xs.distinct.filter (·.2 ≠ left) := rfl

private theorem within_filter (h : n ≤ left) (xs : Readings α) :
    within n (xs.filter (·.2 ≠ left)) = (within n xs).filter (·.2 ≠ left - n) := by
  induction xs with
  | nil => rfl
  | cons x xs ih =>
    obtain ⟨a, k⟩ := x
    rcases Nat.lt_or_ge k n with hk | hk
    · have hne : k ≠ left := by omega
      rw [filter_cons_of_pos (by simpa using hne), within_cons_of_lt _ _ hk,
        within_cons_of_lt _ _ hk, ih]
    · rw [within_cons_of_le _ _ hk]
      by_cases hkl : k = left
      · subst hkl
        rw [filter_cons_of_neg (by simp), filter_cons_of_neg (by simp), ih]
      · rw [filter_cons_of_pos (by simpa using hkl),
          filter_cons_of_pos (by simpa using by omega), within_cons_of_le _ _ hk, ih]

private theorem within_filter_of_lt (h : left < n) (xs : Readings α) :
    within n (xs.filter (·.2 ≠ left)) = within n xs := by
  induction xs with
  | nil => rfl
  | cons x xs ih =>
    obtain ⟨a, k⟩ := x
    by_cases hkl : k = left
    · subst hkl
      rw [filter_cons_of_neg (by simp), within_cons_of_lt _ _ h, ih]
    · rw [filter_cons_of_pos (by simpa using hkl)]
      rcases Nat.lt_or_ge k n with hk | hk
      · rw [within_cons_of_lt _ _ hk, within_cons_of_lt _ _ hk, ih]
      · rw [within_cons_of_le _ _ hk, within_cons_of_le _ _ hk, ih]

@[simp] theorem within_distinct (n : Nat) (xs : Readings α) :
    within n xs.distinct = (within n xs).distinct := by
  induction xs with
  | nil => rfl
  | cons x xs ih =>
    obtain ⟨a, left⟩ := x
    rw [distinct_cons]
    rcases Nat.lt_or_ge left n with h | h
    · rw [within_cons_of_lt _ _ h, within_cons_of_lt _ _ h, within_filter_of_lt h, ih]
    · rw [within_cons_of_le _ _ h, within_cons_of_le _ _ h, within_filter h, ih, distinct_cons]

/-- Restricting what is read in two steps. A first step that ends too late leads to no early
end, and one that ends early is followed by a restricted second step. -/
theorem within_andThen {R : α → List Token → Prop} {xs : Readings α}
    {next next' : α → Nat → Readings β} (hx : xs.Sound R (ts ++ rest))
    (hnext : ∀ a taken later, ts ++ rest = taken ++ later → R a taken →
      (next a later.length).Sound (fun _ _ => True) later)
    (hsame : ∀ a taken ts', ts = taken ++ ts' → R a taken →
      within rest.length (next a (ts' ++ rest).length) = next' a ts'.length) :
    within rest.length (xs.andThen next) = (within rest.length xs).andThen next' := by
  induction xs with
  | nil => rfl
  | cons x xs ih =>
    obtain ⟨a, left⟩ := x
    have ih := ih fun b k hb => hx b k (mem_cons_of_mem _ hb)
    obtain ⟨taken, later, hts, hleft, hR⟩ := hx a left mem_cons_self
    change within rest.length (next a left ++ andThen xs next) = _
    rw [within_append, ih]
    rcases Nat.lt_or_ge left rest.length with h | h
    · rw [within_cons_of_lt _ _ h, within_eq_nil, nil_append]
      intro b k hb
      obtain ⟨more, last, hlater, hk, -⟩ := hnext a taken later hts hR b k (hleft ▸ hb)
      have hlength := congrArg List.length hlater
      rw [length_append] at hlength
      omega
    · rw [within_cons_of_le _ _ h]
      obtain ⟨ts', rfl⟩ : rest <:+ later :=
        suffix_of_suffix_length_le ⟨ts, rfl⟩ ⟨taken, hts.symm⟩ (hleft ▸ h)
      have htaken : ts = taken ++ ts' := by
        rw [← append_assoc] at hts
        exact append_cancel_right hts
      rw [hleft, hsame a taken ts' htaken hR, length_append, Nat.add_sub_cancel]
      rfl

theorem Sound.weaken {R : α → List Token → Prop} {xs : Readings α} (h : xs.Sound R ts) :
    xs.Sound (fun _ _ => True) ts :=
  h.mono fun _ _ _ => trivial

/-- Every reading takes a token at least. -/
def Takes (ts : List Token) (xs : Readings α) : Prop := xs.Sound (fun _ taken => taken ≠ []) ts

theorem Takes.lt_length {xs : Readings α} (h : xs.Takes ts) {a : α} (hmem : (a, left) ∈ xs) :
    left < ts.length := by
  obtain ⟨taken, later, rfl, rfl, hne⟩ := h a left hmem
  have hpos := length_pos_iff.mpr hne
  rw [length_append]
  omega

theorem Takes.within_eq_nil {rest : List Token} {xs : Readings α} (h : xs.Takes rest) :
    within rest.length xs = [] :=
  Readings.within_eq_nil fun _ _ hmem => h.lt_length hmem

theorem Takes.eq_nil {xs : Readings α} (h : xs.Takes []) : xs = [] := by
  rw [eq_nil_iff_forall_not_mem]
  rintro ⟨a, left⟩ hmem
  exact Nat.not_lt_zero _ (h.lt_length hmem)

theorem Takes.within_append_last {xs : Readings α} (h : xs.Takes rest) (a : α) :
    within rest.length (xs ++ [(a, rest.length)]) = [(a, 0)] := by
  rw [within_append, h.within_eq_nil, nil_append, within_cons_of_le a [] (Nat.le_refl _),
    Nat.sub_self]
  rfl

end Readings

/-! ## Blanks and separators -/

namespace Chart

theorem takes_gapThen {chart : Chart} (h : chart.Tracks ts) (hrest : rest <:+ ts) (token : Token) :
    (chart.gapThen token rest.length).Takes rest := by
  apply (sound_gapThen h hrest token).mono
  rintro gap taken rfl
  simp

section Gaps

variable {chart chart' : Chart} {ts rest : List Token} (h : chart.Tracks (ts ++ rest))
  (h' : chart'.Tracks ts) {ts' : List Token} (hts : ts' <:+ ts)
include h h' hts

theorem within_gaps :
    (chart.gaps (ts' ++ rest).length).within rest.length = chart'.gaps ts'.length := by
  have hsuffix : ts' ++ rest <:+ ts ++ rest := suffix_append_self_iff.mpr hts
  cases ts' with
  | nil =>
    rw [gaps_eq_none h' hts (by simp)]
    by_cases hspace : ∃ text later, rest = .space text :: later
    · obtain ⟨text, later, rfl⟩ := hspace
      rw [nil_append, gaps_space h hsuffix, within_cons_of_lt _ _ (by simp),
        within_cons_of_le _ _ (Nat.le_refl _), Nat.sub_self]
      rfl
    · rw [gaps_eq_none h hsuffix fun text later hrest => hspace ⟨text, later, hrest⟩,
        within_cons_append]
      rfl
  | cons token ts' =>
    by_cases hspace : ∃ text, token = .space text
    · obtain ⟨text, rfl⟩ := hspace
      have hgaps : chart.gaps (Token.space text :: (ts' ++ rest)).length = _ :=
        gaps_space h hsuffix
      rw [cons_append, hgaps, gaps_space h' hts, within_cons_append,
        ← cons_append, within_cons_append]
      rfl
    · rw [gaps_eq_none h hsuffix fun text later hrest => hspace ⟨text, (List.cons.inj hrest).1⟩,
        gaps_eq_none h' hts fun text later hrest => hspace ⟨text, (List.cons.inj hrest).1⟩,
        within_cons_append]
      rfl

theorem within_expect (token : Token) :
    (chart.expect token (ts' ++ rest).length).within rest.length =
      chart'.expect token ts'.length := by
  have hsuffix : ts' ++ rest <:+ ts ++ rest := suffix_append_self_iff.mpr hts
  unfold Chart.expect Chart.holds
  rw [h _ hsuffix, h' _ hts]
  cases ts' with
  | nil =>
    rw [within_eq_nil]
    · rfl
    · intro _ left hleft
      cases rest with
      | nil => simp at hleft
      | cons head rest =>
        have hlt : left = rest.length := by
          by_cases hhead : head = token <;> simp_all
        simp [hlt]
  | cons head ts' =>
    by_cases hhead : head = token
    · subst hhead
      simp only [cons_append, List.head?_cons, decide_true, if_true, length_cons,
        Nat.add_sub_cancel, within_cons_append]
      rfl
    · simp [hhead]

theorem within_gapThen (token : Token) :
    (chart.gapThen token (ts' ++ rest).length).within rest.length =
      chart'.gapThen token ts'.length := by
  have hsuffix : ts' ++ rest <:+ ts ++ rest := suffix_append_self_iff.mpr hts
  cases ts' with
  | nil =>
    rw [nil_append] at hsuffix ⊢
    rw [(takes_gapThen h hsuffix token).within_eq_nil, (takes_gapThen h' hts token).eq_nil]
  | cons head ts' =>
    unfold Chart.gapThen
    by_cases hspace : ∃ text, head = .space text
    · obtain ⟨text, rfl⟩ := hspace
      have hgap : chart.gap (Token.space text :: (ts' ++ rest)).length = _ :=
        gap_space h hsuffix
      have htail : ts' <:+ ts := (suffix_cons _ _).trans hts
      rw [cons_append, hgap, gap_space h' hts]
      simp only [within_as, within_expect h h' htail token]
    · rw [gap_eq_none h hsuffix fun text later hrest => hspace ⟨text, (List.cons.inj hrest).1⟩,
        gap_eq_none h' hts fun text later hrest => hspace ⟨text, (List.cons.inj hrest).1⟩]
      simp only [within_as, within_expect h h' hts token]

/-- A joint takes its separator, so it matters only that its right-hand sides are local at later
places. -/
theorem within_joint {right : Row → Readings α} (separator : Token)
    (hsound : ∀ later, later <:+ ts' ++ rest → later.length < (ts' ++ rest).length →
      (right (chart.row later.length)).Sound (fun _ _ => True) later)
    (hsame : ∀ later, later <:+ ts' → later.length < ts'.length →
      (right (chart.row (later ++ rest).length)).within rest.length =
        right (chart'.row later.length)) :
    (chart.joint separator right (ts' ++ rest).length).within rest.length =
      chart'.joint separator right ts'.length := by
  have hsuffix : ts' ++ rest <:+ ts ++ rest := suffix_append_self_iff.mpr hts
  unfold Chart.joint
  rw [within_andThen (takes_gapThen h hsuffix separator), within_gapThen h h' hts]
  · intro before taken middle hmiddle hne
    have hlength : (ts' ++ rest).length = taken.length + middle.length := by
      rw [hmiddle, length_append]
    have hpos := length_pos_iff.mpr hne
    have hto : middle <:+ ts' ++ rest := hmiddle ▸ suffix_append _ _
    apply (sound_gaps h (hto.trans hsuffix)).andThen
    intro after taken' later hlater _
    have hle : later <:+ middle := hlater ▸ suffix_append _ _
    have hlt : later.length < (ts' ++ rest).length := by have := hle.length_le; omega
    apply (hsound later (hle.trans hto) hlt).as
    exact fun _ _ _ => trivial
  · intro before taken middle hmiddle hne
    have hlength : ts'.length = taken.length + middle.length := by
      rw [hmiddle, length_append]
    have hpos := length_pos_iff.mpr hne
    have hto : middle <:+ ts' := hmiddle ▸ suffix_append _ _
    have hfull : middle ++ rest <:+ ts' ++ rest := suffix_append_self_iff.mpr hto
    rw [within_andThen (sound_gaps h (hfull.trans hsuffix)),
      within_gaps h h' (hto.trans hts)]
    · intro after taken' later hlater _
      have hle : later <:+ middle ++ rest := hlater ▸ suffix_append _ _
      have hlt : later.length < (ts' ++ rest).length := by
        have := hle.length_le
        rw [length_append] at this ⊢
        omega
      apply (hsound later (hle.trans hfull) hlt).as
      exact fun _ _ _ => trivial
    · intro after taken' later hlater _
      have hle : later <:+ middle := hlater ▸ suffix_append _ _
      have hlt : later.length < ts'.length := by have := hle.length_le; omega
      rw [within_as, hsame later (hle.trans hto) hlt]

end Gaps

end Chart

/-! ## Rows -/

/-- Every phrase of a row that cannot be empty takes a token. -/
structure Row.Takes (ts : List Token) (row : Row) : Prop where
  body (quote : Quote) : (row.body quote).Takes ts
  quoted : row.quoted.Takes ts
  strings : row.strings.Takes ts
  substitution : row.substitution.Takes ts
  void : row.void.Takes ts
  word (grip : Grip) : (row.word grip).Takes ts
  redirect : row.redirect.Takes ts
  spacedRedirect : row.spacedRedirect.Takes ts
  modifier : row.modifier.Takes ts
  opened : row.opened.Takes ts
  command : row.command.Takes ts
  barCommand : row.barCommand.Takes ts
  pipe : row.pipe.Takes ts
  semicolonCommand : row.semicolonCommand.Takes ts
  semicolonPipe : row.semicolonPipe.Takes ts
  sequence : row.sequence.Takes ts
  commandLine : row.commandLine.Takes ts

theorem Readings.Sound.takes {e : α → Expr} {trees : α → List Tree}
    (h : xs.Sound (fun a c => Forms (e a) (trees a) c) ts) (hne : ∀ a, Tree.tokensOf (trees a) ≠ []) :
    xs.Takes ts := by
  apply h.mono
  intro a taken hforms
  rw [← hforms.tokensOf_eq]
  exact hne a

theorem Row.Sound.takes {ts : List Token} {row : Row} (h : row.Sound ts) : row.Takes ts where
  body quote := (h.body quote).takes fun body => by simp
  quoted := h.quoted.takes fun q => by simp [q.tokens_ne_nil]
  strings := h.strings.takes fun s => s.tokens_ne_nil
  substitution := h.substitution.takes fun s => by simp [s.tokens_ne_nil]
  void := h.void.takes fun gap => by simp [voidLeaves]
  word grip := (h.word grip).takes fun w => by simp [w.tokens_ne_nil]
  redirect := h.redirect.takes fun r => by simp [r.tokens_ne_nil]
  spacedRedirect := h.spacedRedirect.takes fun r => by simp [r.2.tokens_ne_nil]
  modifier := h.modifier.takes fun m => by
    cases m <;> simp [Word.tokens_ne_nil]
  opened := h.opened.takes fun o => by
    simp [openedTrees, o.2.tokens_ne_nil]
  command := h.command.takes fun x => by simp [x.tokens_ne_nil]
  barCommand := h.barCommand.mono fun _ _ hjoint => hjoint.ne_nil
  pipe := h.pipe.takes fun p => by simp [p.tokens_ne_nil]
  semicolonCommand := h.semicolonCommand.mono fun _ _ hjoint => hjoint.ne_nil
  semicolonPipe := h.semicolonPipe.mono fun _ _ hjoint => hjoint.ne_nil
  sequence := h.sequence.takes fun s => by
    cases s <;> simp [Sequence.tree, jointLeaves]
  commandLine := h.commandLine.takes fun l => by
    cases l with
    | command x => simp [x.tokens_ne_nil]
    | pipe p => simp [p.tokens_ne_nil]
    | sequence s =>
      cases s <;> simp [Sequence.tree, jointLeaves]

/-- A row restricted to the readings after which `n` tokens are left is another row. -/
structure Row.Within (n : Nat) (row row' : Row) : Prop where
  body (quote : Quote) : (row.body quote).within n = row'.body quote
  quoted : row.quoted.within n = row'.quoted
  strings : row.strings.within n = row'.strings
  substitution : row.substitution.within n = row'.substitution
  void : row.void.within n = row'.void
  suffixes (grip : Grip) : (row.suffixes grip).within n = row'.suffixes grip
  word (grip : Grip) : (row.word grip).within n = row'.word grip
  redirect : row.redirect.within n = row'.redirect
  spacedRedirect : row.spacedRedirect.within n = row'.spacedRedirect
  modifier : row.modifier.within n = row'.modifier
  ending : row.ending.within n = row'.ending
  opened : row.opened.within n = row'.opened
  command : row.command.within n = row'.command
  barCommand : row.barCommand.within n = row'.barCommand
  bars : row.bars.within n = row'.bars
  pipe : row.pipe.within n = row'.pipe
  semicolonCommand : row.semicolonCommand.within n = row'.semicolonCommand
  semicolonPipe : row.semicolonPipe.within n = row'.semicolonPipe
  semicolons : row.semicolons.within n = row'.semicolons
  sequence : row.sequence.within n = row'.sequence
  commandLine : row.commandLine.within n = row'.commandLine

/-- The chart of `ts ++ rest`, restricted to what ends before `rest`, is the chart of `ts`. -/
structure Chart.Within (ts rest : List Token) (chart chart' : Chart) : Prop where
  sound : chart.Sound (ts ++ rest)
  sound' : chart'.Sound ts
  row (ts' : List Token) : ts' <:+ ts →
    (chart.row (ts' ++ rest).length).Within rest.length (chart'.row ts'.length)

/-- A kind of phrase that a row and its restriction read alike. -/
structure Row.Local (kind : Row → Readings α) : Prop where
  sound {row : Row} {ts : List Token} : row.Sound ts → (kind row).Sound (fun _ _ => True) ts
  same {n : Nat} {row row' : Row} : row.Within n row' → (kind row).within n = kind row'

namespace Row.Local

theorem body (quote : Quote) : Local (·.body quote) :=
  ⟨fun h => (h.body quote).weaken, fun h => h.body quote⟩

theorem suffixes (grip : Grip) : Local (·.suffixes grip) :=
  ⟨fun h => (h.suffixes grip).weaken, fun h => h.suffixes grip⟩

theorem word (grip : Grip) : Local (·.word grip) :=
  ⟨fun h => (h.word grip).weaken, fun h => h.word grip⟩

theorem ending : Local (·.ending) := ⟨fun h => h.ending.weaken, fun h => h.ending⟩

theorem opened : Local (·.opened) := ⟨fun h => h.opened.weaken, fun h => h.opened⟩

theorem command : Local (·.command) := ⟨fun h => h.command.weaken, fun h => h.command⟩

theorem barCommand : Local (·.barCommand) :=
  ⟨fun h => h.barCommand.weaken, fun h => h.barCommand⟩

theorem bars : Local (·.bars) := ⟨fun h => h.bars.weaken, fun h => h.bars⟩

theorem pipe : Local (·.pipe) := ⟨fun h => h.pipe.weaken, fun h => h.pipe⟩

theorem semicolonCommand : Local (·.semicolonCommand) :=
  ⟨fun h => h.semicolonCommand.weaken, fun h => h.semicolonCommand⟩

theorem semicolonPipe : Local (·.semicolonPipe) :=
  ⟨fun h => h.semicolonPipe.weaken, fun h => h.semicolonPipe⟩

theorem semicolons : Local (·.semicolons) :=
  ⟨fun h => h.semicolons.weaken, fun h => h.semicolons⟩

end Row.Local

/-- Readings that take a token, and those of them that end before `rest`. -/
structure Readings.Restricts (ts rest : List Token) (xs xs' : Readings α) : Prop where
  takes : xs.Takes (ts ++ rest)
  within_eq : xs.within rest.length = xs'

section Rows

variable {chart chart' : Chart} {ts rest : List Token} (h : Chart.Within ts rest chart chart')
  (token : Token)
include h

theorem within_andThen_row {xs' : Readings α} (hx : Restricts (token :: ts) rest xs xs')
    {kind : Row → Readings β} (hkind : Row.Local kind) (f : α → β → γ) :
    (xs.andThen fun a left => (kind (chart.row left)).as (f a)).within rest.length =
      xs'.andThen fun a left => (kind (chart'.row left)).as (f a) := by
  rw [within_andThen hx.takes, hx.within_eq]
  · intro a taken later hlater hne
    have hsuffix : later <:+ ts ++ rest := suffix_of_taken hlater hne
    exact (hkind.sound (h.sound.row later hsuffix)).as fun _ _ _ => trivial
  · intro a taken ts' hts' hne
    rw [within_as, hkind.same (h.row ts' (suffix_of_taken hts' hne))]

theorem within_self : (chart.row (ts ++ rest).length).Within rest.length (chart'.row ts.length) :=
  h.row ts (suffix_refl ts)

theorem within_readSubstitution :
    (readSubstitution chart token (ts ++ rest).length).within rest.length =
      readSubstitution chart' token ts.length := by
  have htracks := h.sound.tracks
  have htracks' := h.sound'.tracks
  unfold readSubstitution
  split
  · rw [within_andThen (Chart.sound_gaps htracks (suffix_refl _)),
      Chart.within_gaps htracks htracks' (suffix_refl _)]
    · intro before taken later hlater _
      have hsuffix : later <:+ ts ++ rest := hlater ▸ suffix_append _ _
      apply Readings.Sound.append
      · apply (h.sound.row later hsuffix).commandLine.andThen
        intro line taken' last hlast _
        have hsuffix' : last <:+ later := hlast ▸ suffix_append _ _
        exact (Chart.sound_gapThen htracks (hsuffix'.trans hsuffix) _).as fun _ _ _ => trivial
      · exact (Chart.sound_gapThen htracks hsuffix _).as fun _ _ _ => trivial
    · intro before taken later hlater _
      have hsuffix : later <:+ ts := hlater ▸ suffix_append _ _
      have hfull : later ++ rest <:+ ts ++ rest := suffix_append_self_iff.mpr hsuffix
      rw [within_append, within_as,
        Chart.within_gapThen htracks htracks' hsuffix,
        within_andThen (h.sound.row _ hfull).commandLine,
        (h.row later hsuffix).commandLine]
      · intro line taken' last hlast _
        have hsuffix' : last <:+ later ++ rest := hlast ▸ suffix_append _ _
        exact (Chart.sound_gapThen htracks (hsuffix'.trans hfull) _).as fun _ _ _ => trivial
      · intro line taken' last hlast _
        have hsuffix' : last <:+ later := hlast ▸ suffix_append _ _
        rw [within_as,
          Chart.within_gapThen htracks htracks' (hsuffix'.trans hsuffix)]
  · rfl

theorem within_readVoid :
    (readVoid chart token (ts ++ rest).length).within rest.length =
      readVoid chart' token ts.length := by
  unfold readVoid
  split
  · exact Chart.within_gapThen h.sound.tracks h.sound'.tracks (suffix_refl _) _
  · rfl

variable {substitution' : Readings Substitution} {quoted' : Readings Quoted}
  {word word' : Readings Word} {command command' : Readings Command}

theorem within_readBody (quote : Quote)
    (hsubstitution : Restricts (token :: ts) rest substitution substitution') :
    (readBody chart token (ts ++ rest).length substitution quote).within rest.length =
      readBody chart' token ts.length substitution' quote := by
  have hbody := (within_self h).body quote
  unfold readBody
  split
  · rw [within_cons_append, within_nil]
  · split
    · rw [within_as, hbody]
    · split
      · exact within_andThen_row h token hsubstitution (.body quote) _
      · split
        · rw [within_as, hbody]
        · rw [within_as, hbody]
        · rfl

theorem within_readQuoted :
    (readQuoted chart token (ts ++ rest).length).within rest.length =
      readQuoted chart' token ts.length := by
  unfold readQuoted
  split
  · rw [within_as, (within_self h).body]
  · rfl

theorem within_readStrings (hquoted : Restricts (token :: ts) rest quoted quoted') :
    (readStrings chart quoted).within rest.length = readStrings chart' quoted' := by
  unfold readStrings
  rw [within_andThen hquoted.takes, hquoted.within_eq]
  · intro first taken later hlater hne
    have hsuffix : later <:+ ts ++ rest := suffix_of_taken hlater hne
    apply Readings.Sound.append
    · exact (h.sound.row later hsuffix).strings.as fun _ _ _ => trivial
    · exact .none_taken rfl trivial
  · intro first taken ts' hts' hne
    rw [within_append, within_as, (h.row ts' (suffix_of_taken hts' hne)).strings,
      within_cons_append, within_nil]

theorem within_readPrimary {void' : Readings (Option Text)} {strings strings' : Readings Strings}
    (hsubstitution : Restricts (token :: ts) rest substitution substitution')
    (hvoid : Restricts (token :: ts) rest void void')
    (hquoted : Restricts (token :: ts) rest quoted quoted')
    (hstrings : strings.within rest.length = strings') :
    (readPrimary chart token (ts ++ rest).length substitution void quoted strings).within
      rest.length = readPrimary chart' token ts.length substitution' void' quoted' strings' := by
  have hself := (within_self h).word .loose
  unfold readPrimary
  split
  · rw [within_cons_append, within_as, hself]
  · rw [within_cons_append, within_as, hself]
  · simp only [within_append, within_as]
    rw [within_andThen_row h token hvoid (.word .tight),
      within_andThen_row h token hsubstitution (.word .firm),
      within_andThen_row h token hquoted (.word .loose), hsubstitution.within_eq, hstrings]

theorem within_readSuffixes {void' : Readings (Option Text)} (grip : Grip)
    (hsubstitution : Restricts (token :: ts) rest substitution substitution')
    (hvoid : Restricts (token :: ts) rest void void')
    (hquoted : Restricts (token :: ts) rest quoted quoted') :
    (readSuffixes chart (ts ++ rest).length substitution void quoted grip).within rest.length =
      readSuffixes chart' ts.length substitution' void' quoted' grip := by
  have hfurther : ∀ {α : Type} (f : α → Suffix) {xs xs' : Readings α},
      Restricts (token :: ts) rest xs xs' →
      (xs.andThen fun a left => ((chart.row left).suffixes grip).as (f a :: ·)).within
        rest.length = xs'.andThen fun a left => ((chart'.row left).suffixes grip).as (f a :: ·) :=
    fun f xs xs' hx => within_andThen_row h token hx (.suffixes grip) _
  have hend : within rest.length [(([] : List Suffix), (ts ++ rest).length + 1)] =
      [([], ts.length + 1)] := within_cons_append [] [] (token :: ts) rest
  unfold readSuffixes
  simp only [within_append]
  rw [hfurther _ hquoted, hend]
  cases grip with
  | loose =>
    simp only [reduceIte, reduceCtorEq, ne_eq, not_false_eq_true]
    rw [hfurther _ hvoid, hfurther _ hsubstitution]
  | firm =>
    simp only [reduceIte, reduceCtorEq, ne_eq, not_false_eq_true, within_nil]
    rw [hfurther _ hvoid]
  | tight =>
    simp only [reduceIte, reduceCtorEq, ne_eq, not_true_eq_false, within_nil]

theorem within_readWord {primary primary' : Readings Word} (grip : Grip)
    (hprimary : Restricts (token :: ts) rest primary primary') :
    (readWord chart primary grip).within rest.length = readWord chart' primary' grip :=
  within_andThen_row h token hprimary (.suffixes grip) _

theorem within_readRedirect :
    (readRedirect chart token (ts ++ rest).length).within rest.length =
      readRedirect chart' token ts.length := by
  have htracks := h.sound.tracks
  have htracks' := h.sound'.tracks
  have hself := suffix_refl (ts ++ rest)
  unfold readRedirect
  split
  · next direction _ =>
      cases ts with
      | nil =>
        -- a target ends after `rest` has begun
        obtain ⟨gap, later, hlater, hgap⟩ := Chart.gap_spec htracks hself
        have hsuffix : later <:+ [] ++ rest := hlater ▸ suffix_append _ _
        have hword := (h.sound.row later hsuffix).takes.word .loose
        have hword' := (h.sound'.row [] (suffix_refl _)).takes.word .loose
        rw [hgap, Chart.gap_eq_none htracks' (suffix_refl _) (by simp)]
        dsimp only
        rw [hword'.eq_nil, within_as, within_eq_nil]
        · rfl
        · intro w left hmem
          have hlt := hword.lt_length hmem
          have hle := hsuffix.length_le
          rw [nil_append] at hle
          omega
      | cons head ts =>
        by_cases hspace : ∃ text, head = .space text
        · obtain ⟨text, rfl⟩ := hspace
          have hgap : chart.gap (Token.space text :: (ts ++ rest)).length = _ :=
            Chart.gap_space htracks hself
          rw [cons_append, hgap, Chart.gap_space htracks' (suffix_refl _)]
          dsimp only
          rw [within_as, (h.row ts (suffix_cons _ _)).word]
        · have hfirst : ∀ (later : List Token) text last,
              head :: later ≠ .space text :: last :=
            fun later text last heq => hspace ⟨text, (List.cons.inj heq).1⟩
          rw [Chart.gap_eq_none htracks hself (hfirst _),
            Chart.gap_eq_none htracks' (suffix_refl _) (hfirst _)]
          dsimp only
          rw [within_as, (within_self h).word]
  · rfl

theorem within_readSpacedRedirect {redirect redirect' : Readings Redirect}
    (hredirect : redirect.within rest.length = redirect') :
    (readSpacedRedirect chart token (ts ++ rest).length redirect).within rest.length =
      readSpacedRedirect chart' token ts.length redirect' := by
  unfold readSpacedRedirect
  split
  · rw [within_as, (within_self h).spacedRedirect]
  · rw [within_as, hredirect]

theorem within_readModifier (hword : word.within rest.length = word') :
    (readModifier chart token (ts ++ rest).length word).within rest.length =
      readModifier chart' token ts.length word' := by
  unfold readModifier
  rw [within_append, within_as, hword]
  split
  · rw [within_as, (within_self h).word]
  · rfl

theorem within_readEnding {spaced' : Readings (List Text × Redirect)}
    (hspaced : Restricts (token :: ts) rest spaced spaced') :
    (readEnding chart token (ts ++ rest).length spaced).within rest.length =
      readEnding chart' token ts.length spaced' := by
  have hend : within rest.length [(Ending.done, (ts ++ rest).length + 1)] =
      [(.done, ts.length + 1)] := within_cons_append _ [] (token :: ts) rest
  unfold readEnding
  simp only [within_append]
  rw [hend, within_andThen_row h token hspaced .ending
    fun (r : List Text × Redirect) => Ending.redirect r.1 r.2]
  congr 2
  split
  · next text =>
      have htakes := (h.sound.row _ (suffix_refl _)).takes.modifier
      exact within_andThen_row h _ ⟨.after [.space text] (htakes.mono fun _ _ _ => by simp),
        (within_self h).modifier⟩ .ending _
  · rfl

theorem within_readOpened {redirect redirect' : Readings Redirect}
    (hredirect : Restricts (token :: ts) rest redirect redirect')
    (hword : word.within rest.length = word') :
    (readOpened chart token (ts ++ rest).length redirect word).within rest.length =
      readOpened chart' token ts.length redirect' word' := by
  unfold readOpened
  split
  · rw [within_as, (within_self h).opened]
  · exact within_andThen_row h _ hredirect .opened _
  · rw [within_as, hword]

theorem within_readOpening {spaced' : Readings (List Text × Redirect)}
    (hspaced : Restricts (token :: ts) rest spaced spaced')
    (hword : word.within rest.length = word') :
    (readOpening chart spaced word).within rest.length = readOpening chart' spaced' word' := by
  unfold readOpening
  rw [within_append, within_as, hword]
  congr 1
  exact within_andThen_row h token hspaced .opened
    fun (r : List Text × Redirect) (o : Opening × Word) =>
      (Opening.ofSpaces r.1 (.redirect r.2 o.1), o.2)

theorem within_readCommand {opening opening' : Readings (Opening × Word)}
    (hopening : Restricts (token :: ts) rest opening opening') :
    (readCommand chart opening).within rest.length = readCommand chart' opening' :=
  within_andThen_row h token hopening .ending
    fun (o : Opening × Word) ending => Command.mk o.1 o.2 ending

theorem within_joined {xs' : Readings α} (hx : Restricts (token :: ts) rest xs xs')
    {joint : Row → Readings β} {more : Row → Readings (List (Joint Command))}
    (hjoint : Row.Local joint) (hmore : Row.Local more)
    (f : α → β → List (Joint Command) → γ) :
    (xs.andThen fun a left => (joint (chart.row left)).andThen fun b left =>
      (more (chart.row left)).as (f a b)).within rest.length =
    xs'.andThen fun a left => (joint (chart'.row left)).andThen fun b left =>
      (more (chart'.row left)).as (f a b) := by
  have hafter : ∀ (a : α) later, later <:+ ts ++ rest →
      ((joint (chart.row later.length)).andThen fun b left =>
        (more (chart.row left)).as (f a b)).Sound (fun _ _ => True) later := by
    intro a later hsuffix
    apply Readings.Sound.andThen (hjoint.sound (h.sound.row later hsuffix))
    intro b taken last hlast _
    have hsuffix' : last <:+ later := hlast ▸ suffix_append _ _
    exact (hmore.sound (h.sound.row last (hsuffix'.trans hsuffix))).as fun _ _ _ => trivial
  rw [within_andThen hx.takes, hx.within_eq]
  · intro a taken later hlater hne
    exact hafter a later (suffix_of_taken hlater hne)
  · intro a taken ts' hts' hne
    have hsuffix : ts' <:+ ts := suffix_of_taken hts' hne
    have hfull : ts' ++ rest <:+ ts ++ rest := suffix_append_self_iff.mpr hsuffix
    rw [within_andThen (hjoint.sound (h.sound.row _ hfull)), hjoint.same (h.row _ hsuffix)]
    · intro b taken' last hlast _
      have hsuffix' : last <:+ ts' ++ rest := hlast ▸ suffix_append _ _
      exact (hmore.sound (h.sound.row last (hsuffix'.trans hfull))).as fun _ _ _ => trivial
    · intro b taken' last hlast _
      have hsuffix' : last <:+ ts' := hlast ▸ suffix_append _ _
      rw [within_as, hmore.same (h.row last (hsuffix'.trans hsuffix))]

theorem within_readPipe (hcommand : Restricts (token :: ts) rest command command') :
    (readPipe chart command).within rest.length = readPipe chart' command' :=
  within_joined h token hcommand .barCommand .bars _

theorem within_readSequence {pipe pipe' : Readings Pipe}
    (hcommand : Restricts (token :: ts) rest command command')
    (hpipe : Restricts (token :: ts) rest pipe pipe') :
    (readSequence chart command pipe).within rest.length = readSequence chart' command' pipe' := by
  have hfurther : ∀ {α β : Type} {joint : Row → Readings β} (_ : Row.Local joint)
      (f : α → β → Sequence) {xs xs' : Readings α}, Restricts (token :: ts) rest xs xs' →
      (xs.andThen fun a left => (joint (chart.row left)).andThen fun b left =>
        (chart.row left).semicolons.as (f a b).extend).within rest.length =
      xs'.andThen fun a left => (joint (chart'.row left)).andThen fun b left =>
        (chart'.row left).semicolons.as (f a b).extend :=
    fun hjoint f _ _ hx => within_joined h token hx hjoint .semicolons _
  unfold readSequence
  simp only [within_append]
  rw [hfurther .semicolonCommand _ hcommand, hfurther .semicolonCommand _ hpipe,
    hfurther .semicolonPipe _ hpipe, hfurther .semicolonPipe _ hcommand]

theorem within_readJoints {joint joint' : Readings (Joint Command)}
    {more : Row → Readings (List (Joint Command))}
    (hjoint : Restricts (token :: ts) rest joint joint') (hmore : Row.Local more) :
    (readJoints chart joint more ((ts ++ rest).length + 1)).within rest.length =
      readJoints chart' joint' more (ts.length + 1) := by
  have hend : within rest.length [(([] : List (Joint Command)), (ts ++ rest).length + 1)] =
      [([], ts.length + 1)] := within_cons_append _ [] (token :: ts) rest
  unfold readJoints
  rw [within_append, hend]
  congr 1
  exact within_andThen_row h token hjoint hmore _

omit h in
private theorem within_readCommandLine {pipe pipe' : Readings Pipe}
    {sequence sequence' : Readings Sequence}
    (hcommand : command.within n = command') (hpipe : pipe.within n = pipe')
    (hsequence : sequence.within n = sequence') :
    (readCommandLine command pipe sequence).within n =
      readCommandLine command' pipe' sequence' := by
  unfold readCommandLine
  simp only [within_append, within_as, hcommand, hpipe, hsequence]

/-- A joint may begin with `token` itself, and then its right-hand side comes later. -/
theorem within_joint_push {row row' : Row} (hrow : row.token? = some token)
    (hrow' : row'.token? = some token) {right : Row → Readings α} (separator : Token)
    (hright : Row.Local right) :
    (Chart.joint (chart.push row) separator right ((ts ++ rest).length + 1)).within rest.length =
      Chart.joint (chart'.push row') separator right (ts.length + 1) := by
  have hsize := h.sound.size_eq
  have hsize' := h.sound'.size_eq
  have htracks : Chart.Tracks (chart.push row) (token :: ts ++ rest) :=
    h.sound.tracks.push hsize hrow
  apply Chart.within_joint htracks (h.sound'.tracks.push hsize' hrow') (suffix_refl _)
    separator
  · intro later hsuffix hlt
    have hsuffix : later <:+ ts ++ rest := suffix_of_length_lt hsuffix hlt
    rw [Chart.row_push_of_lt _ _ (by have := hsuffix.length_le; omega)]
    exact hright.sound (h.sound.row later hsuffix)
  · intro later hsuffix hlt
    have hsuffix := suffix_of_length_lt hsuffix hlt
    have hle := hsuffix.length_le
    rw [Chart.row_push_of_lt _ _ (by rw [hsize, length_append, length_append]; omega),
      Chart.row_push_of_lt _ _ (by omega)]
    exact hright.same (h.row later hsuffix)

/-- A row built from a token and local later rows is local. -/
theorem within_ofToken :
    (Row.ofToken chart token).Within rest.length (Row.ofToken chart' token) := by
  have hleft : chart.size - 1 = (ts ++ rest).length := by rw [h.sound.size_eq]; omega
  have hleft' : chart'.size - 1 = ts.length := by rw [h.sound'.size_eq]; omega
  have hdistinct : ∀ {α : Type} {xs xs' : Readings α}, xs.within rest.length = xs' →
      xs.distinct.within rest.length = xs'.distinct :=
    fun hxs => by rw [within_distinct, hxs]
  have hrestricts : ∀ {α : Type} {xs xs' : Readings α}, xs.within rest.length = xs' →
      xs.distinct.Takes (token :: ts ++ rest) →
      Restricts (token :: ts) rest xs.distinct xs'.distinct :=
    fun hxs htakes => ⟨htakes, hdistinct hxs⟩
  have hsound := sound_ofToken h.sound token
  unfold Row.ofToken at hsound
  rw [hleft] at hsound
  have htakes := hsound.takes
  rw [← cons_append] at htakes
  have hsubstitution := hrestricts (within_readSubstitution h token) htakes.substitution
  have hvoid : Restricts (token :: ts) rest _ _ := ⟨htakes.void, within_readVoid h token⟩
  have hquoted := hrestricts (within_readQuoted h token) htakes.quoted
  have hstrings := hdistinct (within_readStrings h token hquoted)
  have tprimary := (sound_readPrimary h.sound token hsound.substitution hsound.void hsound.quoted
    hsound.strings).distinct.takes fun w => by simp [w.tokens_ne_nil]
  have hprimary := hrestricts (within_readPrimary h token hsubstitution hvoid hquoted hstrings)
    tprimary
  have hword := fun grip => hdistinct (within_readWord h token grip hprimary)
  have hsuffixes := fun grip =>
    hdistinct (within_readSuffixes h token grip hsubstitution hvoid hquoted)
  have hbody := fun quote => hdistinct (within_readBody h token quote hsubstitution)
  have hredirect := hrestricts (within_readRedirect h token) htakes.redirect
  have hspaced := hrestricts (within_readSpacedRedirect h token hredirect.within_eq)
    htakes.spacedRedirect
  have hmodifier := hdistinct (within_readModifier h token (hword .loose))
  have hending := hdistinct (within_readEnding h token hspaced)
  have hopened := hdistinct (within_readOpened h token hredirect (hword .loose))
  have topening := (sound_readOpening h.sound token (hsound.word .loose)
    hsound.spacedRedirect).distinct.takes fun o => by
      simp [openedTrees, o.2.tokens_ne_nil]
  have hopening := hrestricts (within_readOpening h token hspaced (hword .loose)) topening
  have hcommand := hrestricts (within_readCommand h token hopening) htakes.command
  have hpipe := hrestricts (within_readPipe h token hcommand) htakes.pipe
  have hsequence := hdistinct (within_readSequence h token hcommand hpipe)
  have hbar := fun row row' hrow hrow' =>
    hdistinct (@within_joint_push _ _ _ _ _ h token row row' hrow hrow' _ .bar .command)
  have hsemicolon := fun row row' hrow hrow' =>
    hdistinct (@within_joint_push _ _ _ _ _ h token row row' hrow hrow' _ .semicolon .command)
  have hsemicolonPipe := fun row row' hrow hrow' =>
    hdistinct (@within_joint_push _ _ _ _ _ h token row row' hrow hrow' _ .semicolon .pipe)
  have hbars := fun row row' hrow hrow' htakes => hdistinct
    (within_readJoints h token ⟨htakes, hbar row row' hrow hrow'⟩ .bars)
  have hsemicolons := fun row row' hrow hrow' htakes => hdistinct
    (within_readJoints h token ⟨htakes, hsemicolon row row' hrow hrow'⟩ .semicolons)
  have hcommandLine :=
    hdistinct (within_readCommandLine hcommand.within_eq hpipe.within_eq hsequence)
  unfold Row.ofToken
  rw [hleft, hleft']
  -- The readings of pipes and sequences hold those of commands many times over, so they are
  -- compared as they stand.
  exact
    { body := fun quote => by cases quote <;> exact hbody _
      quoted := hquoted.within_eq
      strings := hstrings
      substitution := hsubstitution.within_eq
      void := hvoid.within_eq
      suffixes := fun grip => by cases grip <;> exact hsuffixes _
      word := fun grip => by cases grip <;> exact hword _
      redirect := hredirect.within_eq
      spacedRedirect := hspaced.within_eq
      modifier := hmodifier
      ending := hending
      opened := hopened
      command := hcommand.within_eq
      barCommand := hbar _ _ rfl rfl
      bars := by with_reducible exact hbars _ _ rfl rfl htakes.barCommand
      pipe := by with_reducible exact hpipe.within_eq
      semicolonCommand := hsemicolon _ _ rfl rfl
      semicolonPipe := hsemicolonPipe _ _ rfl rfl
      semicolons := by
        with_reducible exact hsemicolons _ _ rfl rfl htakes.semicolonCommand
      sequence := by with_reducible exact hsequence
      commandLine := by with_reducible exact hcommandLine }

end Rows

/-! ## Charts -/

section End

variable {chart : Chart} {ts : List Token} (h : chart.Sound ts) (token : Token)
include h

theorem takes_andThen_row (hx : xs.Takes (token :: ts)) {kind : Row → Readings β}
    (hkind : Row.Local kind) (f : α → β → γ) :
    (xs.andThen fun a left => (kind (chart.row left)).as (f a)).Takes (token :: ts) := by
  apply Readings.Sound.andThen hx
  intro a taken later hlater hne
  apply (hkind.sound (h.row later (suffix_of_taken hlater hne))).as
  intro b more _
  exact append_ne_nil_of_left_ne_nil hne more

theorem within_readSuffixes_end (grip : Grip) (tsubstitution : substitution.Takes (token :: ts))
    (tvoid : void.Takes (token :: ts)) (tquoted : quoted.Takes (token :: ts)) :
    (readSuffixes chart ts.length substitution void quoted grip).within (token :: ts).length =
      [([], 0)] := by
  have hfurther : ∀ {α : Type} (f : α → Suffix) {xs : Readings α}, xs.Takes (token :: ts) →
      (xs.andThen fun a left => ((chart.row left).suffixes grip).as (f a :: ·)).Takes
        (token :: ts) :=
    fun f xs hx => takes_andThen_row h token hx (.suffixes grip) _
  unfold readSuffixes
  apply Readings.Takes.within_append_last
  refine .append (.append (hfurther _ tquoted) ?_) ?_
  · split
    · exact hfurther _ tvoid
    · exact .nil _
  · split
    · exact hfurther _ tsubstitution
    · exact .nil _

theorem within_readEnding_end (tspaced : spaced.Takes (token :: ts)) :
    (readEnding chart token ts.length spaced).within (token :: ts).length = [(.done, 0)] := by
  unfold readEnding
  apply Readings.Takes.within_append_last
  apply Readings.Sound.append
  · exact takes_andThen_row h token tspaced .ending
      fun (r : List Text × Redirect) => Ending.redirect r.1 r.2
  · split
    · next text =>
        apply Readings.Sound.after [.space text]
        apply (h.row ts (suffix_refl ts)).modifier.andThen
        intro modifier taken later hlater _
        have hsuffix : later <:+ ts := hlater ▸ suffix_append _ _
        exact (h.row later hsuffix).ending.as fun _ _ _ => by simp
    · exact .nil _

theorem within_readJoints_end {joint : Readings (Joint Command)}
    {more : Row → Readings (List (Joint Command))} (tjoint : joint.Takes (token :: ts))
    (hmore : Row.Local more) :
    (readJoints chart joint more (ts.length + 1)).within (token :: ts).length = [([], 0)] := by
  unfold readJoints
  apply Readings.Takes.within_append_last
  exact takes_andThen_row h token tjoint hmore _

end End

theorem Chart.row_ofTokens_cons (token : Token) (ts : List Token) :
    (Chart.ofTokens (token :: ts)).row (token :: ts).length =
      Row.ofToken (Chart.ofTokens ts) token :=
  Chart.row_push_self _ _ (Chart.sound_ofTokens ts).size_eq.symm

/-- Before `rest` has begun only what is empty can be read. -/
theorem Row.within_atEnd (rest : List Token) :
    ((Chart.ofTokens rest).row rest.length).Within rest.length Row.atEnd := by
  have htakes := ((Chart.sound_ofTokens rest).row rest (suffix_refl rest)).takes
  have hempty : (∀ grip, (((Chart.ofTokens rest).row rest.length).suffixes grip).within
        rest.length = [([], 0)]) ∧
      ((Chart.ofTokens rest).row rest.length).ending.within rest.length = [(.done, 0)] ∧
      ((Chart.ofTokens rest).row rest.length).bars.within rest.length = [([], 0)] ∧
      ((Chart.ofTokens rest).row rest.length).semicolons.within rest.length = [([], 0)] := by
    cases rest with
    | nil => exact ⟨fun _ => rfl, rfl, rfl, rfl⟩
    | cons token rest =>
      have hsound := Chart.sound_ofTokens rest
      have hleft : (Chart.ofTokens rest).size - 1 = rest.length := by
        rw [hsound.size_eq]; omega
      have hone : ∀ {α : Type} {xs : Readings α} {a : α},
          xs.within (token :: rest).length = [(a, 0)] →
          xs.distinct.within (token :: rest).length = [(a, 0)] :=
        fun hxs => by rw [within_distinct, hxs]; rfl
      rw [Chart.row_ofTokens_cons] at htakes ⊢
      unfold Row.ofToken at htakes ⊢
      rw [hleft] at htakes ⊢
      have hsuffixes := fun grip => hone (within_readSuffixes_end hsound token grip
        htakes.substitution htakes.void htakes.quoted)
      have hbars := within_readJoints_end hsound token htakes.barCommand .bars
      have hsemicolons :=
        within_readJoints_end hsound token htakes.semicolonCommand .semicolons
      refine ⟨fun grip => ?_, ?_, ?_, ?_⟩
      · cases grip with
        | loose => exact hsuffixes .loose
        | firm => exact hsuffixes .firm
        | tight => exact hsuffixes .tight
      · exact hone (within_readEnding_end hsound token htakes.spacedRedirect)
      · with_reducible exact hone hbars
      · with_reducible exact hone hsemicolons
  obtain ⟨hsuffixes, hending, hbars, hsemicolons⟩ := hempty
  exact
    { body := fun quote => (htakes.body quote).within_eq_nil
      quoted := htakes.quoted.within_eq_nil
      strings := htakes.strings.within_eq_nil
      substitution := htakes.substitution.within_eq_nil
      void := htakes.void.within_eq_nil
      suffixes := hsuffixes
      word := fun grip => (htakes.word grip).within_eq_nil
      redirect := htakes.redirect.within_eq_nil
      spacedRedirect := htakes.spacedRedirect.within_eq_nil
      modifier := htakes.modifier.within_eq_nil
      ending := hending
      opened := htakes.opened.within_eq_nil
      command := htakes.command.within_eq_nil
      barCommand := htakes.barCommand.within_eq_nil
      bars := hbars
      pipe := htakes.pipe.within_eq_nil
      semicolonCommand := htakes.semicolonCommand.within_eq_nil
      semicolonPipe := htakes.semicolonPipe.within_eq_nil
      semicolons := hsemicolons
      sequence := htakes.sequence.within_eq_nil
      commandLine := htakes.commandLine.within_eq_nil }

theorem Chart.within_ofTokens (ts rest : List Token) :
    Chart.Within ts rest (Chart.ofTokens (ts ++ rest)) (Chart.ofTokens ts) := by
  induction ts with
  | nil =>
    refine ⟨Chart.sound_ofTokens _, Chart.sound_ofTokens _, fun ts' hts' => ?_⟩
    rw [suffix_nil.mp hts']
    exact Row.within_atEnd rest
  | cons token ts ih =>
    refine ⟨Chart.sound_ofTokens _, Chart.sound_ofTokens _, fun ts' hts' => ?_⟩
    have hsize := ih.sound.size_eq
    have hsize' := ih.sound'.size_eq
    change (Chart.row ((Chart.ofTokens (ts ++ rest)).push _) (ts' ++ rest).length).Within
      rest.length (Chart.row ((Chart.ofTokens ts).push _) ts'.length)
    rcases suffix_cons_iff.mp hts' with rfl | hts'
    · rw [Chart.row_push_self _ _ (by rw [hsize]; rfl),
        Chart.row_push_self _ _ (by rw [hsize']; rfl)]
      exact within_ofToken ih token
    · have hle := hts'.length_le
      rw [Chart.row_push_of_lt _ _ (by rw [hsize, length_append, length_append]; omega),
        Chart.row_push_of_lt _ _ (by omega)]
      exact ih.row ts' hts'

end CommandShell.Line

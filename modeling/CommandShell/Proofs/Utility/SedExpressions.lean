import CommandShell.Proofs.Text.Fields
import CommandShell.Utility.Sed

/-!
# Expressions of `sed`

An expression holds a pattern and a replacement between three separators. It is cut at every
separator of the kind that it begins with, and only the number of its parts counts: whatever stands
behind the last separator is accepted. All matches are asked for by the last two characters alone,
so the other separator will do as well.
-/

namespace CommandShell

namespace Sed

variable {expression source replacement rest : Text} {separator : Char} {files : List Text}

/-- The parts of an expression: a pattern and a replacement, each before a separator that stands in
none of the parts, and what comes behind the last separator. -/
structure Parts (expression : Text) (separator : Char) (source replacement rest : Text) : Prop where
  spelled : expression =
    's' :: separator :: (source ++ separator :: (replacement ++ separator :: rest))
  separates : isSeparator separator = true
  source : separator ∉ source
  replacement : separator ∉ replacement
  rest : separator ∉ rest

/-- The form that expressions are meant to have: behind the last separator stands the letter for all
matches, or nothing. -/
def Spells (expression source replacement : Text) (everywhere : Bool) : Prop :=
  ∃ separator, Parts expression separator source replacement (if everywhere then ['g'] else [])

theorem ne_of_isSeparator {c d : Char} (hc : isSeparator c = true) (hd : isSeparator d = false) :
    d ≠ c := by
  rintro rfl
  exact Bool.false_ne_true (hd.symm.trans hc)

theorem parts_iff (h : isSeparator separator = true) {later : Text} :
    Parts ('s' :: separator :: later) separator source replacement rest ↔
      Text.splitAt separator ('s' :: separator :: later) = [['s'], source, replacement, rest] := by
  have hs : separator ≠ 's' := (ne_of_isSeparator h rfl).symm
  rw [Text.splitAt_eq_iff]
  constructor
  · intro hparts
    refine ⟨by simp [hs, hparts.source, hparts.replacement, hparts.rest], ?_⟩
    rw [hparts.spelled]
    simp [Text.join]
  · rintro ⟨hpieces, hjoin⟩
    exact ⟨by rw [← hjoin]; simp [Text.join], h, hpieces source (by simp),
      hpieces replacement (by simp), hpieces rest (by simp)⟩

private theorem head_splitAt (h : isSeparator separator = true) (later : Text) :
    ∃ pieces, Text.splitAt separator ('s' :: separator :: later) = ['s'] :: pieces := by
  have hs : ∀ c ∈ ['s'], decide (c = separator) = false := by
    simpa using ne_of_isSeparator h rfl
  refine ⟨Text.splitAt separator later, ?_⟩
  rw [Text.splitAt, show 's' :: separator :: later = ['s'] ++ separator :: later from rfl,
    Text.splitWhere_append_cons (by simp), Text.splitWhere_of_neg hs]
  rfl

theorem ofExpression_of_parts (h : Parts expression separator source replacement rest)
    (files : List Text) :
    ofExpression expression files =
      match Pattern.ofText source with
      | .error .invalid => .error (.complaint .sedPattern)
      | .error (.crash cause) => .error (.crash cause)
      | .ok pattern => .ok ⟨pattern, replacement, asksForAll expression, files⟩ := by
  obtain ⟨later, rfl⟩ : ∃ later, expression = 's' :: separator :: later := ⟨_, h.spelled⟩
  have hsplit := (parts_iff h.separates).1 h
  rw [ofExpression, h.separates, hsplit]
  rfl

theorem ofExpression_of_not_parts
    (h : ∀ separator source replacement rest,
      ¬ Parts expression separator source replacement rest) (files : List Text) :
    ∃ cause, ofExpression expression files = .error (.complaint cause) ∧
      cause.report.kind = .command := by
  unfold ofExpression
  split
  · next separator later =>
      split_ifs with hsep
      · exact ⟨.sedForm, rfl, rfl⟩
      · replace hsep : isSeparator separator = true := by simpa using hsep
        obtain ⟨pieces, hpieces⟩ := head_splitAt hsep later
        split
        · next source replacement rest hsplit =>
            obtain rfl := (List.cons.inj (hpieces.symm.trans hsplit)).1
            exact absurd ((parts_iff hsep).2 hsplit) (h _ _ _ _)
        · exact ⟨.sedParts, rfl, rfl⟩
  · exact ⟨.sedForm, rfl, rfl⟩

theorem Parts.unique (h : Parts expression separator source replacement rest) {separator' : Char}
    {source' replacement' rest' : Text}
    (h' : Parts expression separator' source' replacement' rest') :
    separator' = separator ∧ source' = source ∧ replacement' = replacement ∧ rest' = rest := by
  obtain ⟨later, rfl⟩ : ∃ later, expression = 's' :: separator :: later := ⟨_, h.spelled⟩
  obtain ⟨rfl, -⟩ := List.cons.inj (List.cons.inj h'.spelled).2
  have hsplit := ((parts_iff h.separates).1 h).symm.trans ((parts_iff h.separates).1 h')
  simp only [List.cons.injEq, true_and, and_true] at hsplit
  exact ⟨rfl, hsplit.1.symm, hsplit.2.1.symm, hsplit.2.2.symm⟩

theorem asksForAll_iff : asksForAll expression = true ↔
    ∃ front other, isSeparator other = true ∧ expression = front ++ [other, 'g'] := by
  unfold asksForAll
  constructor
  · intro h
    split at h
    · next other back hreverse =>
        refine ⟨back.reverse, other, h, ?_⟩
        rw [← List.reverse_reverse expression, hreverse]
        simp
    · cases h
  · rintro ⟨front, other, hother, rfl⟩
    simpa using hother

/-- All matches are asked for by the letter alone, or by the letter behind the other separator. -/
theorem Parts.asksForAll_iff (h : Parts expression separator source replacement rest) :
    asksForAll expression = true ↔
      rest = ['g'] ∨ ∃ front other, isSeparator other = true ∧ rest = front ++ [other, 'g'] := by
  obtain ⟨before, hbefore⟩ : ∃ before, expression = before ++ separator :: rest :=
    ⟨'s' :: separator :: (source ++ separator :: replacement), by rw [h.spelled]; simp⟩
  rw [Sed.asksForAll_iff, hbefore]
  constructor
  · rintro ⟨front, other, hother, hends⟩
    rcases List.eq_nil_or_concat' rest with rfl | ⟨middle, last, rfl⟩
    · -- the letter is no separator
      have hlast := congrArg List.getLast? hends
      simp only [List.getLast?_append, List.getLast?_singleton, List.getLast?_cons_cons] at hlast
      exact absurd (Option.some.inj hlast).symm (ne_of_isSeparator h.separates rfl)
    · rw [← List.cons_append, ← List.append_assoc,
        show front ++ [other, 'g'] = front ++ [other] ++ ['g'] by simp] at hends
      obtain ⟨hfront, hlast⟩ := List.append_inj' hends rfl
      obtain rfl := (List.cons.inj hlast).1
      rcases List.eq_nil_or_concat' middle with rfl | ⟨middle, last, rfl⟩
      · exact .inl rfl
      · rw [← List.cons_append, ← List.append_assoc] at hfront
        obtain rfl := (List.cons.inj (List.append_inj' hfront rfl).2).1
        exact .inr ⟨middle, last, hother, by simp⟩
  · rintro (rfl | ⟨front, other, hother, rfl⟩)
    · exact ⟨before, separator, h.separates, rfl⟩
    · exact ⟨before ++ separator :: front, other, hother, by simp⟩

theorem Parts.asksForAll_eq {everywhere : Bool}
    (h : Parts expression separator source replacement (if everywhere then ['g'] else [])) :
    asksForAll expression = everywhere := by
  cases everywhere with
  | false =>
    rw [Bool.eq_false_iff, Ne, h.asksForAll_iff]
    simp
  | true => exact h.asksForAll_iff.2 (.inl rfl)

/-! ## What is accepted -/

theorem check_eq (flags : List Flag) (expression : Text) (files : List Text) :
    check ⟨some flags, some (expression :: files), true⟩ = ofExpression expression files := rfl

theorem ofExpression_eq_ok {sed : Sed} : ofExpression expression files = .ok sed ↔
    ∃ separator source replacement rest pattern,
      Parts expression separator source replacement rest ∧ Pattern.ofText source = .ok pattern ∧
        sed = ⟨pattern, replacement, asksForAll expression, files⟩ := by
  constructor
  · intro h
    by_cases hparts : ∃ separator source replacement rest,
        Parts expression separator source replacement rest
    · obtain ⟨separator, source, replacement, rest, hparts⟩ := hparts
      rw [ofExpression_of_parts hparts] at h
      split at h <;> cases h
      next pattern hpattern =>
        exact ⟨separator, source, replacement, rest, pattern, hparts, hpattern, rfl⟩
    · simp only [not_exists] at hparts
      obtain ⟨cause, hcause, -⟩ := ofExpression_of_not_parts hparts files
      cases hcause.symm.trans h
  · rintro ⟨separator, source, replacement, rest, pattern, hparts, hpattern, rfl⟩
    rw [ofExpression_of_parts hparts, hpattern]

theorem ofExpression_eq_error {failure : Failure}
    (h : ofExpression expression files = .error failure) :
    (∃ cause, failure = .complaint cause ∧ cause.report.kind = .command) ∨
      ∃ separator source replacement rest cause, failure = .crash cause ∧
        Parts expression separator source replacement rest ∧
        Pattern.ofText source = .error (.crash cause) := by
  by_cases hparts : ∃ separator source replacement rest,
      Parts expression separator source replacement rest
  · obtain ⟨separator, source, replacement, rest, hparts⟩ := hparts
    rw [ofExpression_of_parts hparts] at h
    split at h <;> cases h
    · exact .inl ⟨_, rfl, rfl⟩
    · next cause hcause => exact .inr ⟨_, _, _, _, cause, rfl, hparts, hcause⟩
  · simp only [not_exists] at hparts
    obtain ⟨cause, hcause, hkind⟩ := ofExpression_of_not_parts hparts files
    cases hcause.symm.trans h
    exact .inl ⟨cause, rfl, hkind⟩

/-- An expression is accepted exactly if it has the form that it is meant to have, for all matches
exactly if it says so, and any other is refused with a complaint. -/
structure Regular (expression : Text) (files : List Text) (result : Checked Sed) : Prop where
  accepted : ∀ sed, result = .ok sed ↔ ∃ source replacement everywhere pattern,
    Spells expression source replacement everywhere ∧ Pattern.ofText source = .ok pattern ∧
      sed = ⟨pattern, replacement, everywhere, files⟩
  refused : (∀ sed, result ≠ .ok sed) →
    ∃ cause, result = .error (.complaint cause) ∧ cause.report.kind = .command

private theorem regular_iff : Regular expression files (ofExpression expression files) ↔
    ∀ separator source replacement rest, Parts expression separator source replacement rest →
      (∀ pattern, Pattern.ofText source = .ok pattern → rest = [] ∨ rest = ['g']) ∧
        ∀ cause, Pattern.ofText source ≠ .error (.crash cause) := by
  constructor
  · intro hregular separator source replacement rest hparts
    refine ⟨fun pattern hpattern => ?_, fun cause hcause => ?_⟩
    · obtain ⟨source', replacement', everywhere, pattern', ⟨separator', hspells⟩, -, -⟩ :=
        (hregular.accepted _).1 (ofExpression_eq_ok.2 ⟨_, _, _, _, _, hparts, hpattern, rfl⟩)
      obtain ⟨-, -, -, hrest⟩ := hparts.unique hspells
      rw [← hrest]
      cases everywhere
      · exact .inl rfl
      · exact .inr rfl
    · have hcrash : ofExpression expression files = .error (.crash cause) := by
        rw [ofExpression_of_parts hparts, hcause]
      obtain ⟨cause', hcomplaint, -⟩ := hregular.refused fun sed hsed => by
        cases hcrash.symm.trans hsed
      cases hcrash.symm.trans hcomplaint
  · intro h
    refine ⟨fun sed => ?_, fun hne => ?_⟩
    · rw [ofExpression_eq_ok]
      constructor
      · rintro ⟨separator, source, replacement, rest, pattern, hparts, hpattern, rfl⟩
        refine ⟨source, replacement, asksForAll expression, pattern, ⟨separator, ?_⟩, hpattern, rfl⟩
        obtain ⟨everywhere, rfl⟩ : ∃ everywhere : Bool, rest = if everywhere then ['g'] else [] :=
          ((h _ _ _ _ hparts).1 pattern hpattern).elim (fun hnil => ⟨false, hnil⟩)
            fun hg => ⟨true, hg⟩
        rwa [hparts.asksForAll_eq]
      · rintro ⟨source, replacement, everywhere, pattern, ⟨separator, hparts⟩, hpattern, rfl⟩
        exact ⟨separator, source, replacement, _, pattern, hparts, hpattern,
          by rw [hparts.asksForAll_eq]⟩
    · cases hresult : ofExpression expression files with
      | ok sed => exact absurd hresult (hne sed)
      | error failure =>
        obtain ⟨cause, rfl, hkind⟩ | ⟨_, _, _, _, cause, -, hparts, hcause⟩ :=
          ofExpression_eq_error hresult
        · exact ⟨cause, rfl, hkind⟩
        · exact absurd hcause ((h _ _ _ _ hparts).2 cause)

/-- `sed` accepts an expression exactly if it has three separators of the kind that it begins with
and a pattern that can be read. Anything may stand behind the last of them, and all matches are
asked for by its end. So the form that expressions are meant to have decides exactly if nothing but
the letter stands there, and if no pattern crashes. -/
theorem check_accepts_iff (flags : List Flag) (expression : Text) (files : List Text) :
    let result := check ⟨some flags, some (expression :: files), true⟩
    (∀ sed, result = .ok sed ↔ ∃ separator source replacement rest pattern everywhere,
      Parts expression separator source replacement rest ∧ Pattern.ofText source = .ok pattern ∧
      (everywhere = true ↔
        rest = ['g'] ∨ ∃ front other, isSeparator other = true ∧ rest = front ++ [other, 'g']) ∧
      sed = ⟨pattern, replacement, everywhere, files⟩) ∧
    (∀ failure, result = .error failure →
      (∃ cause, failure = .complaint cause ∧ cause.report.kind = .command) ∨
      ∃ separator source replacement rest cause, failure = .crash cause ∧
        Parts expression separator source replacement rest ∧
        Pattern.ofText source = .error (.crash cause)) ∧
    (Regular expression files result ↔
      ∀ separator source replacement rest, Parts expression separator source replacement rest →
        (∀ pattern, Pattern.ofText source = .ok pattern → rest = [] ∨ rest = ['g']) ∧
          ∀ cause, Pattern.ofText source ≠ .error (.crash cause)) := by
  refine ⟨fun sed => ?_, fun failure => ofExpression_eq_error, regular_iff⟩
  rw [check_eq, ofExpression_eq_ok]
  constructor
  · rintro ⟨separator, source, replacement, rest, pattern, hparts, hpattern, rfl⟩
    exact ⟨_, _, _, _, _, _, hparts, hpattern, hparts.asksForAll_iff, rfl⟩
  · rintro ⟨separator, source, replacement, rest, pattern, everywhere, hparts, hpattern, hall, rfl⟩
    have heverywhere : everywhere = asksForAll expression :=
      Bool.eq_iff_iff.2 (hall.trans hparts.asksForAll_iff.symm)
    exact ⟨_, _, _, _, _, hparts, hpattern, by rw [heverywhere]⟩

/-- A letter that means nothing is accepted, and the letter for all matches is found behind the other
separator as well. -/
theorem check_accepts_stray :
    (∃ sed, check ⟨some [], some ["s/a/b/x".toList], true⟩ = .ok sed ∧ sed.everywhere = false) ∧
      (∀ source replacement everywhere,
        ¬ Spells "s/a/b/x".toList source replacement everywhere) ∧
      (∃ sed, check ⟨some [], some ["s/a/b/x|g".toList], true⟩ = .ok sed ∧
        sed.everywhere = true) ∧
      ∀ source replacement everywhere,
        ¬ Spells "s/a/b/x|g".toList source replacement everywhere := by
  have hparts : Parts "s/a/b/x".toList '/' ['a'] ['b'] ['x'] :=
    ⟨rfl, rfl, by decide, by decide, by decide⟩
  have hparts' : Parts "s/a/b/x|g".toList '/' ['a'] ['b'] "x|g".toList :=
    ⟨rfl, rfl, by decide, by decide, by decide⟩
  have hpattern : ∃ pattern, Pattern.ofText ['a'] = .ok pattern := ⟨_, rfl⟩
  obtain ⟨pattern, hpattern⟩ := hpattern
  refine ⟨⟨_, ofExpression_eq_ok.2 ⟨_, _, _, _, _, hparts, hpattern, rfl⟩, rfl⟩, ?_,
    ⟨_, ofExpression_eq_ok.2 ⟨_, _, _, _, _, hparts', hpattern, rfl⟩, rfl⟩, ?_⟩
  · rintro source replacement everywhere ⟨separator, h⟩
    cases everywhere <;> simpa using (hparts.unique h).2.2.2
  · rintro source replacement everywhere ⟨separator, h⟩
    cases everywhere <;> simpa using (hparts'.unique h).2.2.2

end Sed

end CommandShell

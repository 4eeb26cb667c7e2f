import CommandShell.Proofs.Substitution.Backquotes
import CommandShell.Proofs.Substitution.Quoting

/-!
# Words with voids

A void can be read as such or as a substitution that runs nothing, and the backquotes of two voids
can be read as a substitution of what stands between them. A word takes a void at its end before it
takes a substitution there, and it takes a void at its beginning before anything else. So voids are
read as voids unless a word is tried that ends right before a void while the rest of the same word is
still to come: then a substitution that reaches over the rest of the word, up to a later void at the
end of a word, comes first.
-/

namespace CommandShell.Line

open Readings List

/-! ## Readings that go on -/

namespace Readings

variable {α β γ : Type} {may : Nat → Bool}

@[simp] theorem andThen_singleton (a : α) (left : Nat) (next : α → Nat → Readings β) :
    andThen [(a, left)] next = next a left :=
  flatMap_singleton ..

theorem pick_andThen_eq_none {xs : Readings α} {next : α → Nat → Readings β}
    (h : ∀ a left, (a, left) ∈ xs → (next a left).pick may = none) :
    (xs.andThen next).pick may = none := by
  apply List.find?_eq_none.mpr
  rintro ⟨b, middle⟩ hmem
  obtain ⟨a, left, ha, hb⟩ := mem_andThen.mp hmem
  exact List.find?_eq_none.mp (h a left ha) (b, middle) hb

theorem pick_singleton_of_not {a : α} {left : Nat} (h : may left = false) :
    pick may [(a, left)] = none := pick_cons_of_not h a []

/-- The first reading that goes on is the first after which the next one can be made. -/
theorem pick_andThen_as (xs : Readings α) (next : Nat → Readings β) (f : α → β → γ) :
    pick may (xs.andThen fun a left => (next left).as (f a)) =
      (xs.pick fun left => ((next left).pick may).isSome).bind fun reading =>
        ((next reading.2).pick may).map fun later => (f reading.1 later.1, later.2) := by
  induction xs with
  | nil => rfl
  | cons reading xs ih =>
    obtain ⟨a, left⟩ := reading
    rw [andThen_cons, pick_append, pick_as, ih]
    cases hleft : (next left).pick may with
    | none =>
      rw [pick_cons_of_not (by rw [hleft]; rfl)]
      rfl
    | some later =>
      rw [pick_cons_of_may (by rw [hleft]; rfl), Option.bind_some, hleft]
      rfl

end Readings

/-! ## What a row holds for each token -/

section Rows

variable {token : Token} (ts : List Token)

theorem Row.quoted_eq_nil (h : Quote.ofToken? token = none) :
    (Row.ofTokens (token :: ts)).quoted = [] := by
  rw [Row.quoted_cons]
  unfold readQuoted
  rw [h]
  rfl

theorem Row.strings_eq_nil (h : Quote.ofToken? token = none) :
    (Row.ofTokens (token :: ts)).strings = [] := by
  rw [Row.strings_cons, Row.quoted_eq_nil ts h]
  rfl

theorem Row.substitution_eq_nil (h : token ≠ .backquote) :
    (Row.ofTokens (token :: ts)).substitution = [] := by
  rw [Row.substitution_cons]
  unfold readSubstitution
  rw [if_neg h]
  rfl

theorem Row.void_eq_nil (h : token ≠ .backquote) : (Row.ofTokens (token :: ts)).void = [] := by
  rw [Row.void_cons]
  unfold readVoid
  rw [if_neg h]

theorem Row.void_eq (gap : Option Text) :
    (Row.ofTokens ((Part.void gap).tokens ++ ts)).void = [(gap, ts.length)] := by
  have htracks := (Chart.sound_ofTokens (gapTokens gap ++ .backquote :: ts)).tracks
  have hgap : (Chart.ofTokens (gapTokens gap ++ .backquote :: ts)).gap
      (gapTokens gap ++ .backquote :: ts).length = (gap, (Token.backquote :: ts).length) :=
    Chart.gap_eq htracks gap (by simp) (suffix_refl _)
  have hclose := htracks (.backquote :: ts) (suffix_append _ _)
  rw [Part.tokens, cons_append, append_assoc, singleton_append, Row.void_cons]
  unfold readVoid Chart.gapThen Chart.expect Chart.holds
  rw [if_pos rfl, hgap]
  simp only [hclose, List.head?_cons, decide_true, if_true]
  rfl

theorem Row.suffixes_eq_nil (hquote : Quote.ofToken? token = none) (hback : token ≠ .backquote)
    (grip : Grip) :
    (Row.ofTokens (token :: ts)).suffixes grip = [([], (token :: ts).length)] := by
  rw [Row.suffixes_cons, Row.quoted_eq_nil ts hquote, Row.void_eq_nil ts hback,
    Row.substitution_eq_nil ts hback]
  cases grip <;> rfl

end Rows

/-! ## Strings are read in one way -/

theorem Chunk.quoted_eq {chunk : Chunk} (h : chunk.isString) (rest : List Token) :
    ∃ q : Quoted, (Row.ofTokens (chunk.tokens ++ rest)).quoted = [(q, rest.length)] ∧
      q.value = .ok chunk.value := by
  obtain ⟨q, hquoted⟩ := Chunk.exists_quoted h rest
  refine ⟨q, hquoted, ?_⟩
  have hforms := (Row.sound_ofTokens _).quoted.taken (hquoted ▸ mem_cons_self)
  have htokens : q.tree.tokens = chunk.tokens := by simpa using hforms.tokensOf_eq
  cases chunk with
  | string quote inside plain =>
    have hplain := (Chunk.string quote inside plain).backquote_not_mem
    have hinside : quote.token ∉ inside := fun hmem => (plain _ hmem).1 rfl
    rw [q.value_eq (htokens ▸ hplain), htokens, tokens,
      spelling_quoted quote (openAfter_inside hinside), spelling_inside_all hinside]
    rfl
  | _ => cases h

theorem Chunk.exists_quote_cons {chunk : Chunk} (h : chunk.isString) :
    ∃ (quote : Quote) (ts : List Token), chunk.tokens = quote.token :: ts := by
  cases chunk with
  | string quote inside plain => exact ⟨quote, _, rfl⟩
  | _ => cases h

theorem Quote.token_ne_backquote (quote : Quote) : quote.token ≠ .backquote := by
  cases quote <;> simp [Quote.token]

/-- After a word a string is taken with what can follow it, or left. -/
theorem Chunk.pick_suffixes {chunk : Chunk} (h : chunk.isString) (rest : List Token) (grip : Grip)
    (may : Nat → Bool) : ∃ q : Quoted, q.value = .ok chunk.value ∧
      ((Row.ofTokens (chunk.tokens ++ rest)).suffixes grip).pick may =
        ((((Row.ofTokens rest).suffixes grip).pick may).map
          fun later => (Suffix.string q :: later.1, later.2)).or
          (pick may [([], (chunk.tokens ++ rest).length)]) := by
  obtain ⟨q, hquoted, hvalue⟩ := Chunk.quoted_eq h rest
  refine ⟨q, hvalue, ?_⟩
  obtain ⟨quote, ts, hts⟩ := Chunk.exists_quote_cons h
  have hsuffix : rest <:+ ts ++ rest := suffix_append ts rest
  rw [hts, cons_append] at hquoted ⊢
  rw [Row.suffixes_cons, pick_distinct]
  unfold readSuffixes
  rw [hquoted, Row.void_eq_nil _ quote.token_ne_backquote,
    Row.substitution_eq_nil _ quote.token_ne_backquote]
  dsimp only
  rw [andThen_singleton, Chart.row_ofTokens hsuffix, pick_append, pick_append, pick_append, pick_as]
  cases grip <;> simp [andThen, pick]

/-- A string at the beginning of a word is taken with the strings after it, or alone. -/
theorem Chunk.pick_strings {chunk : Chunk} (h : chunk.isString) (rest : List Token)
    (may : Nat → Bool) : ∃ q : Quoted, q.value = .ok chunk.value ∧
      (Row.ofTokens (chunk.tokens ++ rest)).strings.pick may =
        (((Row.ofTokens rest).strings.pick may).map
          fun later => (Strings.more q later.1, later.2)).or (pick may [(.one q, rest.length)]) := by
  obtain ⟨q, hquoted, hvalue⟩ := Chunk.quoted_eq h rest
  refine ⟨q, hvalue, ?_⟩
  obtain ⟨quote, ts, hts⟩ := Chunk.exists_quote_cons h
  rw [hts, cons_append] at hquoted ⊢
  rw [Row.strings_cons, pick_distinct]
  unfold readStrings
  rw [hquoted, andThen_singleton, Chart.row_ofTokens (suffix_append ts rest), pick_append,
    pick_as]

/-! ## Places inside a word -/

/-- Tokens that begin inside a word, with a run of characters or a dash still to come in it. If a
void comes before that, then the same must hold after every later backquote that can close a
substitution. -/
inductive Deep : List Token → Prop where
  | run {chunk : Chunk} (h : chunk.isString = false) (ts : List Token) : Deep (chunk.tokens ++ ts)
  | string {chunk : Chunk} (h : chunk.isString = true) {ts : List Token} (later : Deep ts) :
      Deep (chunk.tokens ++ ts)
  | void (gap : Option Text) {ts : List Token}
      (later : ∀ front back : List Token,
        (Part.void gap).tokens ++ ts = front ++ Token.backquote :: back →
        front.count .backquote % 2 = 1 → Deep back) : Deep ((Part.void gap).tokens ++ ts)

/-- No place inside a word may be an end. -/
def Guards (may : Nat → Bool) (full : List Token) : Prop :=
  ∀ ts, ts <:+ full → Outside ts → Deep ts → may ts.length = false

variable {may : Nat → Bool} {rest ts : List Token} {grip : Grip} {token : Token} {parts : List Part}

theorem Guards.mono {full : List Token} (h : Guards may full) (hrest : rest <:+ full) :
    Guards may rest :=
  fun ts hts => h ts (hts.trans hrest)

theorem Chunk.quiet (chunk : Chunk) : Quiet chunk.tokens := by
  refine ⟨chunk.backquote_not_mem, ?_⟩
  cases chunk with
  | chars text => rfl
  | dash => rfl
  | string quote inside plain =>
    have hopen : Quote.after none quote.token = some quote := by cases quote <;> rfl
    have hinside : quote.token ∉ inside := fun hmem => (plain _ hmem).1 rfl
    rw [tokens, openAfter_cons, hopen, openAfter_append, openAfter_inside hinside]
    simp [openAfter, Quote.after]

private theorem Substitution.exists_snoc (s : Substitution) :
    ∃ front, s.tree.tokens = front ++ [Token.backquote] := by
  cases s <;> exact ⟨_, Tree.tokensOf_append _ [.leaf .backquote]⟩

theorem Row.substitution_end (hout : Outside ts) {s : Substitution} {left : Nat}
    (h : (s, left) ∈ (Row.ofTokens ts).substitution) :
    ∃ front back : List Token, ts = front ++ Token.backquote :: back ∧ left = back.length ∧
      front.count .backquote % 2 = 1 ∧ Outside back := by
  obtain ⟨taken, back, rfl, rfl, hforms⟩ := (Row.sound_ofTokens ts).substitution s left h
  have htokens : s.tree.tokens = taken := by simpa using hforms.tokensOf_eq
  obtain ⟨front, hfront⟩ := s.exists_snoc
  have hpaired := (s.encloses (htokens ▸ hout.left)).toPaired
  have heven := hpaired.even
  rw [hfront, count_append, count_singleton_self] at heven
  refine ⟨front, back, by simp [← htokens, hfront], rfl, by omega, ?_⟩
  exact hout.right (htokens ▸ hpaired.state)

theorem Part.suffix_void (gap : Option Text) (ts : List Token) :
    ∃ later, (Part.void gap).tokens ++ ts = .backquote :: later ∧ ts <:+ later :=
  ⟨gapTokens gap ++ [Token.backquote] ++ ts, rfl, suffix_append _ _⟩

theorem Part.openAfter_void (gap : Option Text) :
    openAfter none (Part.void gap).tokens = none := by
  cases gap <;> rfl

/-- After a word a void is taken with what can follow it, unless the word is tight. -/
theorem Part.pick_suffixes_void (gap : Option Text) (rest : List Token) (hgrip : grip ≠ .tight)
    {later : List Suffix × Nat} (h : ((Row.ofTokens rest).suffixes grip).pick may = some later) :
    ((Row.ofTokens ((Part.void gap).tokens ++ rest)).suffixes grip).pick may =
      some (.void gap :: later.1, later.2) := by
  have hvoid := Row.void_eq rest gap
  obtain ⟨ts, hts, hsuffix⟩ := Part.suffix_void gap rest
  rw [hts] at hvoid ⊢
  rw [Row.suffixes_cons, pick_distinct]
  unfold readSuffixes
  rw [hvoid, Row.quoted_eq_nil ts rfl]
  dsimp only
  rw [if_pos hgrip, andThen_singleton, Chart.row_ofTokens hsuffix, pick_append, pick_append, pick_append, pick_as,
    h]
  rfl

theorem Part.suffixes_void_tight (gap : Option Text) (rest : List Token) :
    (Row.ofTokens ((Part.void gap).tokens ++ rest)).suffixes .tight =
      [([], ((Part.void gap).tokens ++ rest).length)] := by
  obtain ⟨ts, hts, -⟩ := Part.suffix_void gap rest
  rw [hts, Row.suffixes_cons]
  unfold readSuffixes
  rw [Row.quoted_eq_nil ts rfl]
  rfl

/-- After a word a void leads nowhere if no end is found after it, nor after a later backquote that
can close a substitution. -/
theorem Part.pick_suffixes_void_eq_none (gap : Option Text)
    (hout : Outside ((Part.void gap).tokens ++ ts))
    (hhere : may ((Part.void gap).tokens ++ ts).length = false)
    (hlater : ∀ front back : List Token,
      (Part.void gap).tokens ++ ts = front ++ Token.backquote :: back →
      front.count .backquote % 2 = 1 → Outside back →
      ((Row.ofTokens back).suffixes grip).pick may = none) :
    ((Row.ofTokens ((Part.void gap).tokens ++ ts)).suffixes grip).pick may = none := by
  have hvoid := Row.void_eq ts gap
  have hnext := hlater (.backquote :: gapTokens gap) ts (by simp [Part.tokens])
    (by cases gap <;> rfl) (hout.right (Part.openAfter_void gap))
  have hsubstitution := @Row.substitution_end _ hout
  obtain ⟨us, hus, hts⟩ := Part.suffix_void gap ts
  rw [hus] at hvoid hhere hsubstitution hlater ⊢
  rw [Row.suffixes_cons, pick_distinct]
  unfold readSuffixes
  rw [hvoid, Row.quoted_eq_nil us rfl]
  dsimp only
  rw [andThen_singleton, Chart.row_ofTokens hts, pick_append, pick_append, pick_append]
  have hvoids : pick may (if grip ≠ .tight then
      as (Suffix.void gap :: ·) ((Row.ofTokens ts).suffixes grip) else []) = none := by
    split
    · rw [pick_as, hnext]
      rfl
    · rfl
  have hothers : pick may (if grip = .loose then
      (Row.ofTokens (.backquote :: us)).substitution.andThen fun inner left =>
        as (Suffix.substitution inner :: ·) (((Chart.ofTokens us).row left).suffixes grip)
      else []) = none := by
    split
    · apply pick_andThen_eq_none
      intro s left hmem
      obtain ⟨front, back, hcut, rfl, hodd, hback⟩ := hsubstitution hmem
      have hsuffix : back <:+ us := by
        cases front with
        | nil => cases hodd
        | cons token front =>
          rw [(List.cons.inj hcut).2]
          exact (suffix_cons _ _).trans (suffix_append _ _)
      rw [Chart.row_ofTokens hsuffix, pick_as, hlater front back hcut hodd hback]
      rfl
    · rfl
  rw [hvoids, hothers]
  exact pick_singleton_of_not hhere

/-- Whether a word can end at an allowed place if it takes suffixes from a place on. -/
def goesOn (ts : List Token) (grip : Grip) (may : Nat → Bool) (left : Nat) : Bool :=
  ((((Chart.ofTokens ts).row left).suffixes grip).pick may).isSome

theorem goesOn_length (h : rest <:+ ts) (grip : Grip) (may : Nat → Bool) :
    goesOn ts grip may rest.length = (((Row.ofTokens rest).suffixes grip).pick may).isSome := by
  unfold goesOn
  rw [Chart.row_ofTokens h]

section Deep

variable {may : Nat → Bool} {full : List Token} (hguard : Guards may full)
include hguard

theorem Deep.pick_suffixes {ts : List Token} (h : Deep ts) (hsuffix : ts <:+ full)
    (hout : Outside ts) (grip : Grip) : ((Row.ofTokens ts).suffixes grip).pick may = none := by
  have hhere := hguard ts hsuffix hout h
  induction h with
  | @run chunk hrun ts =>
    cases chunk with
    | chars text | dash =>
      rw [Chunk.tokens, singleton_append, Row.suffixes_eq_nil _ rfl (by simp)]
      exact pick_singleton_of_not hhere
    | string quote inside plain => cases hrun
  | @string chunk hstring ts later ih =>
    have hlater := (suffix_append chunk.tokens ts).trans hsuffix
    have houtside := hout.right chunk.quiet.state
    obtain ⟨q, -, hpick⟩ := Chunk.pick_suffixes hstring ts grip may
    rw [hpick, pick_singleton_of_not hhere,
      ih hlater houtside (hguard ts hlater houtside later)]
    rfl
  | @void gap ts later ih =>
    refine Part.pick_suffixes_void_eq_none gap hout hhere fun front back hcut hodd hback => ?_
    have hlater : back <:+ full :=
      ((suffix_cons .backquote back).trans (hcut ▸ suffix_append _ _)).trans hsuffix
    exact ih front back hcut hodd hlater hback
      (hguard back hlater hback (later front back hcut hodd))

theorem Deep.pick_strings {ts : List Token} (h : Deep ts) (hsuffix : ts <:+ full)
    (hout : Outside ts) : (Row.ofTokens ts).strings.pick may = none := by
  induction h with
  | @run chunk hrun ts =>
    cases chunk with
    | chars text | dash => rw [Chunk.tokens, singleton_append, Row.strings_eq_nil _ rfl]; rfl
    | string quote inside plain => cases hrun
  | @string chunk hstring ts later ih =>
    have hlater := (suffix_append chunk.tokens ts).trans hsuffix
    have houtside := hout.right chunk.quiet.state
    obtain ⟨q, -, hpick⟩ := Chunk.pick_strings hstring ts may
    rw [hpick, ih hlater houtside, pick_singleton_of_not (hguard ts hlater houtside later)]
    rfl
  | @void gap ts later ih =>
    obtain ⟨us, hus, -⟩ := Part.suffix_void gap ts
    rw [hus, Row.strings_eq_nil _ rfl]
    rfl

theorem Guards.goesOn (hrest : rest <:+ full) (grip : Grip) :
    Guards (goesOn rest grip may) rest := by
  intro ts hts hout hdeep
  rw [goesOn_length hts, hdeep.pick_suffixes hguard (hts.trans hrest) hout grip]
  rfl

end Deep

/-! ## The end of a word -/

/-- A run of characters or a dash outside quotes. -/
def Part.isRun : Part → Bool
  | chunk only => !only.isString
  | void _ => false

/-- Parts without a run of characters or a dash. -/
def Tail (parts : List Part) : Prop := ∀ part ∈ parts, part.isRun = false

theorem tail_nil : Tail [] := nofun

/-- Tokens before which a word has ended, whatever it is made of. -/
def Halted (ts : List Token) : Prop := Stopped ts ∧ ts.head? ≠ some .backquote

theorem Halted.ofToken?_eq (h : Halted (token :: ts)) : Quote.ofToken? token = none := by
  have hstopped : token.startsChunk = false := h.1 token rfl
  cases token with
  | doubleQuote => cases hstopped
  | singleQuote => cases hstopped
  | _ => rfl

theorem Halted.suffixes_eq (h : Halted ts) (grip : Grip) :
    (Row.ofTokens ts).suffixes grip = [([], ts.length)] := by
  cases ts with
  | nil => rfl
  | cons token ts =>
    exact Row.suffixes_eq_nil ts h.ofToken?_eq (fun heq => h.2 (by rw [heq]; rfl)) grip

theorem Halted.strings_eq (h : Halted ts) : (Row.ofTokens ts).strings = [] := by
  cases ts with
  | nil => rfl
  | cons token ts => exact Row.strings_eq_nil ts h.ofToken?_eq

/-- The places where a word of some parts can end are allowed. A tight word leaves voids at its end
to what is around it. -/
def Accepts (grip : Grip) (may : Nat → Bool) (parts : List Part) (rest : List Token) : Prop :=
  ∀ back, back <:+ parts → Tail back → (grip ≠ .tight → back = []) →
    may (Part.row back ++ rest).length = true

theorem Tail.suffix {back : List Part} (h : Tail parts) (hback : back <:+ parts) :
    Tail back := fun part hpart => h part (hback.subset hpart)

theorem Accepts.suffix {back : List Part} (h : Accepts grip may parts rest) (hback : back <:+ parts) :
    Accepts grip may back rest :=
  fun later hlater => h later (hlater.trans hback)

/-- What is left of the parts of a word once the word has been read. -/
structure Leaves (grip : Grip) (parts front back : List Part) : Prop where
  parts_eq : parts = front ++ back
  tail : Tail back
  nothing : grip ≠ .tight → back = []

/-- At the end of a word all strings and voids are taken, voids only if the word is not tight. -/
theorem Tail.pick_suffixes {parts : List Part} (h : Tail parts) {rest : List Token}
    (hrest : Halted rest) {grip : Grip} {may : Nat → Bool} (hmay : Accepts grip may parts rest) :
    ∃ (suffixes : List Suffix) (front back : List Part), Leaves grip parts front back ∧
      ((Row.ofTokens (Part.row parts ++ rest)).suffixes grip).pick may =
        some (suffixes, (Part.row back ++ rest).length) ∧
      ∀ (word : Word) (v : Text), word.value = .ok v →
        (suffixes.foldl Word.append word).value = .ok (v ++ front.flatMap Part.value) := by
  induction parts with
  | nil =>
    refine ⟨[], [], [], ⟨rfl, h, fun _ => rfl⟩, ?_, fun word v hv => by simpa using hv⟩
    rw [Part.row_nil, nil_append, hrest.suffixes_eq]
    exact pick_cons_of_may (hmay [] (suffix_refl _) h fun _ => rfl) _ _
  | cons part parts ih =>
    have hsuffix := suffix_cons part parts
    obtain ⟨suffixes, front, back, hleaves, hpick, hvalue⟩ :=
      ih (h.suffix hsuffix) (hmay.suffix hsuffix)
    rw [Part.row_cons, append_assoc]
    cases part with
    | chunk only =>
      have hstring : only.isString = true := by
        simpa [Part.isRun] using h (.chunk only) mem_cons_self
      obtain ⟨q, hq, hnext⟩ := Chunk.pick_suffixes hstring (Part.row parts ++ rest) grip may
      refine ⟨.string q :: suffixes, .chunk only :: front, back,
        ⟨by rw [hleaves.parts_eq, cons_append], hleaves.tail, hleaves.nothing⟩, ?_, ?_⟩
      · rw [Part.tokens, hnext, hpick]
        rfl
      · intro word v hv
        have hword : (Word.stringAfter word q).value = .ok (v ++ only.value) :=
          value_append hv hq
        simpa [Word.append, Part.value] using hvalue _ _ hword
    | void gap =>
      by_cases hgrip : grip = .tight
      · subst hgrip
        refine ⟨[], [], .void gap :: parts, ⟨rfl, h, fun hne => absurd rfl hne⟩, ?_,
          fun word v hv => by simpa using hv⟩
        rw [Part.suffixes_void_tight, Part.row_cons, append_assoc]
        apply pick_cons_of_may
        simpa using hmay _ (suffix_refl _) h fun hne => absurd rfl hne
      · refine ⟨.void gap :: suffixes, .void gap :: front, back,
          ⟨by rw [hleaves.parts_eq, cons_append], hleaves.tail, hleaves.nothing⟩,
          Part.pick_suffixes_void gap _ hgrip hpick, ?_⟩
        intro word v hv
        have hword : (Word.voidAfter word gap).value = .ok (v ++ gapText gap) := by
          rw [Word.value, hv]
          rfl
        simpa [Word.append, Part.value] using hvalue _ _ hword

/-- At the beginning of a word all strings in a row are taken, if the word can go on so. -/
theorem Tail.pick_strings {parts : List Part} (h : Tail parts) {first : Chunk}
    (hfirst : first.isString = true) {rest : List Token} (hrest : Halted rest) {may : Nat → Bool}
    (hmay : ∀ back, back <:+ parts → may (Part.row back ++ rest).length = true) :
    ∃ (run : Strings) (front back : List Part), parts = front ++ back ∧
      (Row.ofTokens (first.tokens ++ (Part.row parts ++ rest))).strings.pick may =
        some (run, (Part.row back ++ rest).length) ∧
      run.value = .ok (first.value ++ front.flatMap Part.value) := by
  induction parts generalizing first with
  | nil =>
    have hnone : (Row.ofTokens rest).strings = [] := hrest.strings_eq
    obtain ⟨q, hq, hpick⟩ := Chunk.pick_strings hfirst rest may
    refine ⟨.one q, [], [], rfl, ?_, by simpa [Strings.value] using hq⟩
    have hend : may rest.length = true := hmay [] (suffix_refl _)
    rw [Part.row_nil, nil_append, hpick, hnone, pick_cons_of_may hend]
    rfl
  | cons part parts ih =>
    obtain ⟨q, hq, hpick⟩ := Chunk.pick_strings hfirst (Part.row (part :: parts) ++ rest) may
    cases part with
    | chunk only =>
      have hstring : only.isString = true := by
        simpa [Part.isRun] using h (.chunk only) mem_cons_self
      obtain ⟨run, front, back, rfl, hlater, hrun⟩ := ih (h.suffix (suffix_cons _ _)) hstring
        fun back hback => hmay back (hback.trans (suffix_cons _ _))
      refine ⟨.more q run, .chunk only :: front, back, rfl, ?_, ?_⟩
      · rw [hpick, Part.row_cons, append_assoc, Part.tokens, hlater]
        rfl
      · have hvalue := value_append hq hrun
        simpa [Strings.value, Part.value] using hvalue
    | void gap =>
      obtain ⟨us, hus, -⟩ := Part.suffix_void gap (Part.row parts ++ rest)
      have hnone : (Row.ofTokens (Part.row (.void gap :: parts) ++ rest)).strings = [] := by
        rw [Part.row_cons, append_assoc, hus, Row.strings_eq_nil _ rfl]
      refine ⟨.one q, [], .void gap :: parts, rfl, ?_, by simpa [Strings.value] using hq⟩
      rw [hpick, hnone, pick_cons_of_may (hmay _ (suffix_refl _))]
      rfl

/-! ## Words -/

/-- The parts of a word before some tokens, if the word is read as those parts: from every place
between two parts where the word could be thought to end, but for strings and voids, no end must be
found. -/
inductive Legible (rest : List Token) : List Part → Prop where
  | last (first : Chunk) {later : List Part} (h : Tail later) : Legible rest (.chunk first :: later)
  | before (first : Chunk) {later : List Part} (h : Legible rest later)
      (hdeep : Deep (Part.row later ++ rest)) : Legible rest (.chunk first :: later)
  | void (gap : Option Text) {later : List Part} (h : Legible rest later) :
      Legible rest (.void gap :: later)

theorem primaries_chars (text : Text) (ts : List Token) : primaries (.chars text) ts =
    (.chars text, ts.length) :: ((Row.ofTokens ts).word .loose).as (.charsBefore text) := rfl

theorem primaries_dash (ts : List Token) : primaries .dash ts =
    (.dash, ts.length) :: ((Row.ofTokens ts).word .loose).as .dashBefore := rfl

theorem Chunk.primaries_eq {chunk : Chunk} (h : chunk.isString)
    (hts : chunk.tokens ++ rest = token :: ts) : ∃ q : Quoted,
      q.value = .ok chunk.value ∧ primaries token ts =
        (Row.ofTokens (token :: ts)).strings.as .strings ++
          ((Row.ofTokens rest).word .loose).as (.stringBefore q) := by
  obtain ⟨q, hquoted, hvalue⟩ := Chunk.quoted_eq h rest
  refine ⟨q, hvalue, ?_⟩
  obtain ⟨quote, inside, hinside⟩ := Chunk.exists_quote_cons h
  rw [hinside, cons_append] at hts
  obtain ⟨rfl, rfl⟩ := List.cons.inj hts
  rw [hinside, cons_append] at hquoted
  unfold primaries
  rw [hquoted, Row.void_eq_nil _ quote.token_ne_backquote,
    Row.substitution_eq_nil _ quote.token_ne_backquote]
  have hrow := Chart.row_ofTokens (suffix_append inside rest)
  cases quote <;> simp [readPrimary, Quote.token, andThen, as, hrow]

theorem Part.primaries_void (gap : Option Text)
    (hts : (Part.void gap).tokens ++ rest = .backquote :: ts) (hsuffix : rest <:+ ts) :
    ∃ others, primaries .backquote ts =
      ((Row.ofTokens rest).word .tight).as (.voidBefore gap) ++ others := by
  have hvoid := Row.void_eq rest gap
  rw [hts] at hvoid
  unfold primaries
  rw [hvoid]
  unfold readPrimary
  rw [andThen_singleton, Chart.row_ofTokens hsuffix, append_assoc, append_assoc,
    append_assoc]
  exact ⟨_, rfl⟩

theorem pick_word {front : Word} {suffixes : List Suffix} {left : Nat} (hrest : rest <:+ ts)
    (hfront : (primaries token ts).pick (goesOn ts grip may) = some (front, rest.length))
    (hsuffixes : ((Row.ofTokens rest).suffixes grip).pick may = some (suffixes, left)) :
    ((Row.ofTokens (token :: ts)).word grip).pick may =
      some (suffixes.foldl Word.append front, left) := by
  rw [Row.word_cons, pick_distinct]
  unfold readWord
  rw [pick_andThen_as _ (fun k => ((Chart.ofTokens ts).row k).suffixes grip)
    fun front suffixes => suffixes.foldl Word.append front, pick_distinct]
  unfold goesOn at hfront
  rw [hfront, Option.bind_some, Chart.row_ofTokens hrest, hsuffixes]
  rfl

theorem Chunk.suffix_tokens {chunk : Chunk} {later : List Token}
    (h : chunk.tokens ++ later = token :: ts) : later <:+ ts := by
  obtain ⟨first, inside, hfirst⟩ := chunk.exists_cons
  rw [hfirst] at h
  rw [← (List.cons.inj h).2]
  exact suffix_append inside later

/-- The word that begins with a chunk and goes on with another word. -/
def Chunk.Before (chunk : Chunk) (rest word : Word) : Prop :=
  ∀ v, rest.value = .ok v → word.value = .ok (chunk.value ++ v)

/-- A chunk at the beginning of a word is taken with the rest of the word, if the word can only end
after that. -/
theorem Chunk.pick_word_before (chunk : Chunk) {later : List Token}
    (hts : chunk.tokens ++ later = token :: ts) (hdeep : Deep later)
    (hguard : Guards may (token :: ts)) (hout : Outside (token :: ts)) (hrest : rest <:+ later)
    (hhalted : Halted rest) (hend : may rest.length = true) {word : Word}
    (h : ((Row.ofTokens later).word .loose).pick (goesOn ts grip may) = some (word, rest.length)) :
    ∃ all, chunk.Before word all ∧
      ((Row.ofTokens (token :: ts)).word grip).pick may = some (all, rest.length) := by
  have hlater := Chunk.suffix_tokens hts
  have houtside : Outside later := (hts ▸ hout).right chunk.quiet.state
  have hguards := hguard.goesOn (suffix_cons token ts) grip
  have hhere := hguards later hlater houtside hdeep
  have hsuffixes : ((Row.ofTokens rest).suffixes grip).pick may = some ([], rest.length) := by
    rw [hhalted.suffixes_eq]
    exact pick_cons_of_may hend _ _
  cases hstring : chunk.isString with
  | false =>
    cases chunk with
    | chars text =>
      obtain ⟨rfl, rfl⟩ : Token.chars text = token ∧ later = ts := List.cons.inj hts
      refine ⟨.charsBefore text word, fun v hv => by rw [Word.value, hv]; rfl, ?_⟩
      refine pick_word hrest ?_ hsuffixes
      rw [primaries_chars, pick_cons_of_not hhere, pick_as, h]
      rfl
    | dash =>
      obtain ⟨rfl, rfl⟩ : Token.dash = token ∧ later = ts := List.cons.inj hts
      refine ⟨.dashBefore word, fun v hv => by rw [Word.value, hv]; rfl, ?_⟩
      refine pick_word hrest ?_ hsuffixes
      rw [primaries_dash, pick_cons_of_not hhere, pick_as, h]
      rfl
    | string quote inside plain => cases hstring
  | true =>
    obtain ⟨q, hq, hprimaries⟩ := Chunk.primaries_eq hstring hts
    obtain ⟨q', -, hstrings⟩ := Chunk.pick_strings hstring later (goesOn ts grip may)
    refine ⟨.stringBefore q word, fun v hv => value_append hq hv, ?_⟩
    refine pick_word (hrest.trans hlater) ?_ hsuffixes
    rw [hprimaries, pick_append, pick_as, ← hts, hstrings,
      hdeep.pick_strings hguards hlater houtside, pick_singleton_of_not hhere, pick_as, h]
    rfl

/-- A chunk with nothing but strings and voids after it is taken with them. -/
theorem Chunk.pick_word_last (chunk : Chunk) (htail : Tail parts)
    (hts : chunk.tokens ++ (Part.row parts ++ rest) = token :: ts) (hrest : Halted rest)
    (hmay : Accepts grip may parts rest) :
    ∃ (word : Word) (front back : List Part), Leaves grip parts front back ∧
      word.value = .ok (chunk.value ++ front.flatMap Part.value) ∧
      ((Row.ofTokens (token :: ts)).word grip).pick may =
        some (word, (Part.row back ++ rest).length) := by
  have hlater := Chunk.suffix_tokens hts
  have hsuffix : ∀ back, back <:+ parts → Part.row back ++ rest <:+ ts := by
    rintro back ⟨front, rfl⟩
    refine List.IsSuffix.trans ?_ hlater
    rw [Part.row_append, append_assoc]
    exact suffix_append _ _
  -- wherever the strings after the first chunk are left, the suffixes take the rest
  have hgoes : ∀ back, back <:+ parts →
      goesOn ts grip may (Part.row back ++ rest).length = true := by
    intro back hback
    obtain ⟨suffixes, _, _, -, hpick, -⟩ :=
      (htail.suffix hback).pick_suffixes hrest (hmay.suffix hback)
    rw [goesOn_length (hsuffix back hback), hpick]
    rfl
  cases hstring : chunk.isString with
  | false =>
    obtain ⟨suffixes, front, back, hleaves, hpick, hvalue⟩ := htail.pick_suffixes hrest hmay
    have hhere := hgoes parts (suffix_refl parts)
    cases chunk with
    | chars text =>
      obtain ⟨rfl, rfl⟩ := List.cons.inj hts
      refine ⟨_, front, back, hleaves, hvalue (.chars text) _ rfl, ?_⟩
      exact pick_word (suffix_refl _) (pick_cons_of_may hhere _ _) hpick
    | dash =>
      obtain ⟨rfl, rfl⟩ := List.cons.inj hts
      refine ⟨_, front, back, hleaves, hvalue .dash _ rfl, ?_⟩
      exact pick_word (suffix_refl _) (pick_cons_of_may hhere _ _) hpick
    | string quote inside plain => cases hstring
  | true =>
    obtain ⟨run, strings, later, rfl, hrun, hvalue⟩ := htail.pick_strings hstring hrest hgoes
    have hback := suffix_append strings later
    obtain ⟨suffixes, front, back, hleaves, hpick, hsuffixes⟩ :=
      (htail.suffix hback).pick_suffixes hrest (hmay.suffix hback)
    refine ⟨suffixes.foldl Word.append (.strings run), strings ++ front, back,
      ⟨by rw [hleaves.parts_eq, append_assoc], hleaves.tail, hleaves.nothing⟩, ?_,
      pick_word (hsuffix later hback) ?_ hpick⟩
    · have hword := hsuffixes (.strings run) _ hvalue
      simpa using hword
    · obtain ⟨q, -, hprimaries⟩ := Chunk.primaries_eq hstring hts
      rw [hprimaries, pick_append, pick_as, ← hts, hrun]
      rfl

/-- A legible word is read as its parts, and stands for what they stand for. -/
theorem Legible.exists_pick_word (h : Legible rest parts) (hrest : Halted rest)
    (hguard : Guards may (Part.row parts ++ rest)) (hout : Outside (Part.row parts ++ rest))
    (hmay : Accepts grip may parts rest) :
    ∃ (word : Word) (front back : List Part), Leaves grip parts front back ∧
      word.value = .ok (front.flatMap Part.value) ∧
      ((Row.ofTokens (Part.row parts ++ rest)).word grip).pick may =
        some (word, (Part.row back ++ rest).length) := by
  induction h generalizing grip may with
  | @last first later htail =>
    obtain ⟨token, inside, hfirst⟩ := first.exists_cons
    have hts : first.tokens ++ (Part.row later ++ rest) =
        token :: (inside ++ (Part.row later ++ rest)) := by rw [hfirst, cons_append]
    obtain ⟨word, front, back, hleaves, hvalue, hpick⟩ :=
      first.pick_word_last htail hts hrest (hmay.suffix (suffix_cons _ _))
    refine ⟨word, .chunk first :: front, back,
      ⟨by rw [hleaves.parts_eq, cons_append], hleaves.tail, hleaves.nothing⟩,
      by simpa [Part.value] using hvalue, ?_⟩
    rw [Part.row_cons, Part.tokens, append_assoc, hts]
    exact hpick
  | @before first later hlater hdeep ih =>
    obtain ⟨token, inside, hfirst⟩ := first.exists_cons
    have hts : first.tokens ++ (Part.row later ++ rest) =
        token :: (inside ++ (Part.row later ++ rest)) := by rw [hfirst, cons_append]
    rw [Part.row_cons, Part.tokens, append_assoc, hts] at hguard hout ⊢
    have hend : may rest.length = true := hmay [] (nil_suffix) tail_nil fun _ => rfl
    have hsuffix := Chunk.suffix_tokens hts
    have hrests : rest <:+ Part.row later ++ rest := suffix_append _ _
    have haccepts : Accepts .loose (goesOn (inside ++ (Part.row later ++ rest)) grip may) later
        rest := by
      rintro back - - hback
      obtain rfl := hback (by simp)
      rw [Part.row_nil, nil_append, goesOn_length (hrests.trans hsuffix), hrest.suffixes_eq,
        pick_cons_of_may hend]
      rfl
    have hguards : Guards (goesOn (inside ++ (Part.row later ++ rest)) grip may)
        (Part.row later ++ rest) :=
      (hguard.goesOn (suffix_cons _ _) grip).mono hsuffix
    obtain ⟨word, front, back, hleaves, hvalue, hpick⟩ :=
      ih hguards ((hts ▸ hout).right first.quiet.state) haccepts
    obtain rfl := hleaves.nothing (by simp)
    obtain rfl : later = front := by simpa using hleaves.parts_eq
    obtain ⟨all, hall, hword⟩ := first.pick_word_before hts hdeep hguard hout hrests hrest hend hpick
    exact ⟨all, .chunk first :: later, [], ⟨by simp, tail_nil, fun _ => rfl⟩,
      by simpa [Part.value] using hall _ hvalue, hword⟩
  | @void gap later hlater ih =>
    obtain ⟨ts, hts, hsuffix⟩ := Part.suffix_void gap (Part.row later ++ rest)
    rw [Part.row_cons, append_assoc, hts] at hguard hout ⊢
    have hrow : ∀ back, back <:+ later → Part.row back ++ rest <:+ ts := by
      rintro back ⟨front, rfl⟩
      refine List.IsSuffix.trans ?_ hsuffix
      rw [Part.row_append, append_assoc]
      exact suffix_append _ _
    have haccepts : Accepts .tight (goesOn ts grip may) later rest := by
      intro back hback htail _
      obtain ⟨suffixes, _, _, -, hpick, -⟩ :=
        htail.pick_suffixes hrest (hmay.suffix (hback.trans (suffix_cons _ _)))
      rw [goesOn_length (hrow back hback), hpick]
      rfl
    have hguards : Guards (goesOn ts grip may) (Part.row later ++ rest) :=
      (hguard.goesOn (suffix_cons _ _) grip).mono hsuffix
    obtain ⟨word, front, back, hleaves, hvalue, hpick⟩ :=
      ih hguards ((hts ▸ hout).right (Part.openAfter_void gap)) haccepts
    have hback : back <:+ later := hleaves.parts_eq ▸ suffix_append front back
    obtain ⟨suffixes, front', back', hleaves', hpick', hvalue'⟩ :=
      hleaves.tail.pick_suffixes hrest (hmay.suffix (hback.trans (suffix_cons _ _)))
    obtain ⟨others, hprimaries⟩ := Part.primaries_void gap hts hsuffix
    have hbefore : (Word.voidBefore gap word).value =
        .ok (gapText gap ++ front.flatMap Part.value) := by
      rw [Word.value, hvalue]
      rfl
    refine ⟨suffixes.foldl Word.append (.voidBefore gap word), .void gap :: front ++ front', back',
      ⟨by rw [hleaves.parts_eq, hleaves'.parts_eq]; simp, hleaves'.tail, hleaves'.nothing⟩,
      by simpa [Part.value] using hvalue' _ _ hbefore, pick_word (hrow back hback) ?_ hpick'⟩
    rw [hprimaries, pick_append, pick_as, hpick]
    rfl

end CommandShell.Line

import CommandShell.Proofs.Chart.WordShape

/-!
# Which reading is preferred

A row lists readings in order of preference, and a later part of the line is read from wherever an
earlier part may end. So the reading of a whole line is found from the left: of the ways in which a
command can be opened, it takes the first after which the rest of the line can still be read.

For a redirect before the name this makes a difference. The first reading of its target takes as
many strings as follow, but of characters and dashes only one: where the target goes on after that,
what is left of it becomes the name of the command.
-/

namespace CommandShell.Line

open List

/-! ## First readings -/

variable {left : Nat} {token : Token} {ts : List Token} {chunks : List Chunk}

namespace Readings

variable {α β γ : Type}

/-- The first reading ends where `left` tokens are left. -/
def Leads (xs : Readings α) (left : Nat) : Prop := ∃ a, xs.head? = some (a, left)

theorem leads_cons (a : α) (left : Nat) (xs : Readings α) : Leads ((a, left) :: xs) left :=
  ⟨a, rfl⟩

namespace Leads

theorem distinct {xs : Readings α} (h : xs.Leads left) : xs.distinct.Leads left := by
  obtain ⟨a, ha⟩ := h
  obtain ⟨xs, rfl⟩ := List.head?_eq_some_iff.mp ha
  exact leads_cons a left _

theorem as {xs : Readings α} (h : xs.Leads left) (f : α → β) : (Readings.as f xs).Leads left := by
  obtain ⟨a, ha⟩ := h
  obtain ⟨xs, rfl⟩ := List.head?_eq_some_iff.mp ha
  exact leads_cons (f a) left _

theorem append_left {xs : Readings α} (h : xs.Leads left) (ys : Readings α) :
    Leads (xs ++ ys) left := by
  obtain ⟨a, ha⟩ := h
  obtain ⟨xs, rfl⟩ := List.head?_eq_some_iff.mp ha
  exact leads_cons a left _

theorem andThen {xs : Readings α} {middle : Nat} {next : α → Nat → Readings β} (h : xs.Leads middle)
    (hnext : ∀ a, (next a middle).Leads left) : (xs.andThen next).Leads left := by
  obtain ⟨a, ha⟩ := h
  obtain ⟨xs, rfl⟩ := List.head?_eq_some_iff.mp ha
  exact (hnext a).append_left _

end Leads

end Readings

open Readings

/-- Words that begin with a quote begin with a run of strings, if possible. -/
theorem primaries_quote (ts : List Token) (quote : Quote) :
    ∃ others, primaries quote.token ts =
      (Row.ofTokens (quote.token :: ts)).strings.as .strings ++ others := by
  unfold primaries
  rw [Row.ofTokens_cons]
  cases quote <;> exact ⟨_, rfl⟩

theorem Chunk.exists_cons (chunk : Chunk) : ∃ token ts, chunk.tokens = token :: ts := by
  cases chunk <;> exact ⟨_, _, rfl⟩

@[simp] theorem Row.strings_space (text : Text) (ts : List Token) :
    (Row.ofTokens (.space text :: ts)).strings = [] := by
  rw [Row.ofTokens_cons]
  rfl

theorem Chunk.leads_quoted {chunk : Chunk} (h : chunk.isString) (rest : List Token) :
    (Row.ofTokens (chunk.tokens ++ rest)).quoted.Leads rest.length := by
  obtain ⟨q, hquoted⟩ := Chunk.exists_quoted h rest
  rw [hquoted]
  exact leads_cons q _ _

theorem leads_word_of_primaries {rest : List Token} {grip : Grip}
    (h : (primaries token ts).Leads rest.length)
    (hsuffixes : ((Row.ofTokens rest).suffixes grip).Leads left) (hrest : rest <:+ ts) :
    ((Row.ofTokens (token :: ts)).word grip).Leads left := by
  rw [Row.word_cons]
  apply Leads.distinct
  refine h.distinct.andThen fun front => ?_
  rw [Chart.row_ofTokens hrest]
  exact hsuffixes.as _

section Compact

variable (text : Text) (ts : List Token)

theorem leads_suffixes_space :
    ((Row.ofTokens (.space text :: ts)).suffixes .loose).Leads (Token.space text :: ts).length := by
  rw [Row.ofTokens_cons, length_cons, ← Chart.size_ofTokens ts]
  exact leads_cons _ _ _

private theorem leads_suffixes {strings : List Chunk} (h : ∀ chunk ∈ strings, chunk.isString) :
    ((Row.ofTokens (Chunk.row strings ++ .space text :: ts)).suffixes .loose).Leads
      (Token.space text :: ts).length := by
  induction strings with
  | nil => exact leads_suffixes_space text ts
  | cons first later ih =>
    have hlater := ih fun chunk hchunk => h chunk (mem_cons_of_mem _ hchunk)
    have hquoted := Chunk.leads_quoted (h first mem_cons_self)
      (Chunk.row later ++ .space text :: ts)
    rw [Chunk.row_cons, append_assoc]
    obtain ⟨token, more, hmore⟩ := first.exists_cons
    rw [hmore, cons_append] at hquoted ⊢
    rw [Row.suffixes_cons]
    apply Leads.distinct
    unfold readSuffixes
    apply Leads.append_left
    apply Leads.append_left
    apply Leads.append_left
    refine hquoted.andThen fun last => ?_
    dsimp only
    rw [Chart.row_ofTokens (suffix_append _ _)]
    exact hlater.as _

private theorem leads_strings {first : Chunk} {later : List Chunk} (hfirst : first.isString)
    (hlater : ∀ chunk ∈ later, chunk.isString) :
    (Row.ofTokens (Chunk.row (first :: later) ++ .space text :: ts)).strings.Leads
      (Token.space text :: ts).length := by
  induction later generalizing first with
  | nil =>
    have hquoted := Chunk.leads_quoted hfirst (.space text :: ts)
    obtain ⟨token, more, hmore⟩ := first.exists_cons
    rw [Chunk.row_cons, Chunk.row_nil, append_nil]
    rw [hmore, cons_append] at hquoted ⊢
    rw [Row.strings_cons]
    apply Leads.distinct
    refine hquoted.andThen fun string => ?_
    rw [Chart.row_ofTokens (suffix_append _ _), Row.strings_space]
    exact leads_cons _ _ _
  | cons second later ih =>
    have hmore := ih (hlater second mem_cons_self)
      fun chunk hchunk => hlater chunk (mem_cons_of_mem _ hchunk)
    have hquoted := Chunk.leads_quoted hfirst
      (Chunk.row (second :: later) ++ .space text :: ts)
    obtain ⟨token, inside, hinside⟩ := first.exists_cons
    rw [Chunk.row_cons, append_assoc]
    rw [hinside, cons_append] at hquoted ⊢
    rw [Row.strings_cons]
    apply Leads.distinct
    refine hquoted.andThen fun string => ?_
    rw [Chart.row_ofTokens (suffix_append _ _)]
    exact (hmore.as _).append_left _

theorem Compact.leads_word (h : Compact chunks) :
    ((Row.ofTokens (Chunk.row chunks ++ .space text :: ts)).word .loose).Leads
      (Token.space text :: ts).length := by
  cases chunks with
  | nil => exact h.elim
  | cons first later =>
    have hlater := leads_suffixes text ts h
    cases first with
    | chars t | dash => exact leads_word_of_primaries (leads_cons _ _ _) hlater (suffix_refl _)
    | string quote inside plain =>
      have hfirst : (Chunk.string quote inside plain).isString := rfl
      have hstrings := leads_strings text ts hfirst h
      rw [Chunk.row_cons, Chunk.tokens, cons_append, cons_append, append_assoc,
        append_assoc] at hstrings ⊢
      obtain ⟨others, hothers⟩ := primaries_quote
        (inside ++ ([quote.token] ++ (Chunk.row later ++ .space text :: ts))) quote
      have hprimary : (primaries quote.token (inside ++ ([quote.token] ++ (Chunk.row later ++
          .space text :: ts)))).Leads (Token.space text :: ts).length := by
        rw [hothers]
        exact (hstrings.as _).append_left _
      refine leads_word_of_primaries hprimary (leads_suffixes_space text ts) ?_
      rw [← append_assoc, ← append_assoc]
      exact suffix_append _ _

end Compact

def redirectTokens (direction : Direction) (gap : Option Text) (target : List Chunk) : List Token :=
  direction.token :: (gapTokens gap ++ Chunk.row target)

theorem Chunk.row_ne_space (h : chunks ≠ []) (ts : List Token) (text : Text) (later : List Token) :
    row chunks ++ ts ≠ .space text :: later := by
  intro heq
  exact row_not_stopped h ts (heq ▸ Stopped.cons rfl later)

theorem Compact.ne_nil (h : Compact chunks) : chunks ≠ [] := by
  rintro rfl
  exact h

theorem Compact.leads_redirect (direction : Direction) (gap : Option Text) {target : List Chunk}
    (h : Compact target) (text : Text) (ts : List Token) :
    (Row.ofTokens (redirectTokens direction gap target ++ .space text :: ts)).redirect.Leads
      (Token.space text :: ts).length := by
  rw [redirectTokens, cons_append, append_assoc,
    Row.redirect_direction direction gap (Chunk.row_ne_space h.ne_nil _)]
  exact ((h.leads_word text ts).as _).distinct

/-! ## The first reading that can be continued -/

namespace Readings

variable {α β γ : Type}

/-- The first reading that ends at a place allowed by `may`. -/
def pick (may : Nat → Bool) (xs : Readings α) : Option (α × Nat) :=
  xs.find? fun reading => may reading.2

section Pick

variable {may : Nat → Bool} {xs : Readings α} {a : α} {left : Nat}

theorem mem_of_pick (h : xs.pick may = some (a, left)) : (a, left) ∈ xs :=
  List.mem_of_find?_eq_some h

theorem may_of_pick (h : xs.pick may = some (a, left)) : may left = true := by
  have hmay := List.find?_some h
  exact hmay

theorem exists_pick (h : xs.Reaches left) (hleft : may left = true) :
    ∃ b middle, xs.pick may = some (b, middle) := by
  obtain ⟨a, ha⟩ := h
  cases hpick : xs.pick may with
  | none => exact absurd hleft (List.find?_eq_none.mp hpick (a, left) ha)
  | some reading => exact ⟨reading.1, reading.2, rfl⟩

theorem pick_cons_of_may (h : may left = true) (a : α) (xs : Readings α) :
    pick may ((a, left) :: xs) = some (a, left) :=
  List.find?_cons_of_pos h

theorem pick_cons_of_not (h : may left = false) (a : α) (xs : Readings α) :
    pick may ((a, left) :: xs) = xs.pick may :=
  List.find?_cons_of_neg (by simpa using h)

/-- What is left out of readings that end at the same place is never the first. -/
@[simp] theorem pick_distinct (may : Nat → Bool) (xs : Readings α) :
    xs.distinct.pick may = xs.pick may := by
  induction xs with
  | nil => rfl
  | cons reading xs ih =>
    obtain ⟨a, left⟩ := reading
    rw [distinct_cons]
    cases hleft : may left with
    | true => rw [pick_cons_of_may hleft, pick_cons_of_may hleft]
    | false =>
      rw [pick_cons_of_not hleft, pick_cons_of_not hleft, ← ih]
      unfold pick
      rw [List.find?_filter]
      congr 1
      funext reading
      by_cases heq : reading.2 = left
      · simp [heq, hleft]
      · simp [heq]

@[simp] theorem pick_as (may : Nat → Bool) (f : α → β) (xs : Readings α) :
    (xs.as f).pick may = (xs.pick may).map fun reading => (f reading.1, reading.2) :=
  List.find?_map ..

@[simp] theorem pick_append (may : Nat → Bool) (xs ys : Readings α) :
    pick may (xs ++ ys) = (xs.pick may).or (ys.pick may) :=
  List.find?_append

theorem andThen_cons (a : α) (left : Nat) (xs : Readings α) (next : α → Nat → Readings β) :
    andThen ((a, left) :: xs) next = next a left ++ xs.andThen next :=
  flatMap_cons

theorem pick_andThen_of_head {next : α → Nat → Readings β} {reading : β × Nat}
    (h : xs.head? = some (a, left)) (hnext : (next a left).pick may = some reading) :
    (xs.andThen next).pick may = some reading := by
  obtain ⟨xs, rfl⟩ := List.head?_eq_some_iff.mp h
  rw [andThen_cons, pick_append, hnext]
  rfl

theorem mem_distinct_iff :
    (a, left) ∈ xs.distinct ↔ xs.pick (fun k => decide (k = left)) = some (a, left) := by
  constructor
  · intro h
    obtain ⟨b, middle, hpick⟩ : ∃ b middle,
        xs.distinct.pick (fun k => decide (k = left)) = some (b, middle) :=
      exists_pick ⟨a, h⟩ (decide_eq_true rfl)
    obtain rfl : middle = left := of_decide_eq_true (may_of_pick hpick)
    rw [← pick_distinct, hpick, eq_of_mem_distinct (mem_of_pick hpick) h]
  · intro h
    rw [← pick_distinct] at h
    exact mem_of_pick h

end Pick

def ends (left : Nat) (xs : Readings α) : Bool := xs.any fun reading => reading.2 = left

theorem ends_iff {xs : Readings α} : xs.ends left = true ↔ xs.Reaches left := by
  simp [ends, Reaches]

private theorem pick_eq_none {xs : Readings α} (h : xs.ends left = false) :
    xs.pick (fun k => decide (k = left)) = none := by
  apply List.find?_eq_none.mpr
  intro reading hreading
  exact any_eq_false.mp h reading hreading

/-- Of readings that go on, those after the first reading that can go on to the end come first. -/
theorem exists_mem_distinct_andThen {xs : Readings α} {next : Nat → Readings β} {a : α}
    {middle : Nat} (f : α → β → γ) (h : xs.pick (fun k => (next k).ends left) = some (a, middle)) :
    ∃ b, (b, left) ∈ next middle ∧
      (f a b, left) ∈ (xs.andThen fun a k => (next k).as (f a)).distinct := by
  simp only [mem_distinct_iff]
  induction xs with
  | nil => cases h
  | cons reading xs ih =>
    obtain ⟨a', k⟩ := reading
    rw [andThen_cons]
    simp only [pick_append, pick_as] at ih ⊢
    cases hk : (next k).ends left with
    | true =>
      rw [pick_cons_of_may hk] at h
      obtain ⟨rfl, rfl⟩ := Prod.mk.inj (Option.some.inj h)
      obtain ⟨b, j, hb⟩ : ∃ b j, (next k).pick (fun j => decide (j = left)) = some (b, j) :=
        exists_pick (ends_iff.mp hk) (decide_eq_true rfl)
      obtain rfl : j = left := of_decide_eq_true (may_of_pick hb)
      refine ⟨b, mem_of_pick hb, ?_⟩
      rw [hb]
      rfl
    | false =>
      rw [pick_cons_of_not hk] at h
      rw [pick_eq_none hk]
      exact ih h

end Readings

/-! ## The opening of a command -/

theorem pick_opened_space (may : Nat → Bool) (text : Text) (ts : List Token) :
    (Row.ofTokens (.space text :: ts)).opened.pick may =
      ((Row.ofTokens ts).opened.pick may).map fun o => ((.space text o.1.1, o.1.2), o.2) := by
  rw [Row.opened_cons, pick_distinct]
  exact pick_as may (fun o => (Opening.space text o.1, o.2)) (Row.ofTokens ts).opened

theorem Row.redirect_eq_nil (h : Direction.ofToken? token = none) (ts : List Token) :
    (Row.ofTokens (token :: ts)).redirect = [] := by
  rw [Row.redirect_cons]
  unfold readRedirect
  rw [h]
  rfl

private theorem Row.word_direction (direction : Direction) (ts : List Token) (grip : Grip) :
    (Row.ofTokens (direction.token :: ts)).word grip = [] := by
  rw [Row.ofTokens_cons]
  cases direction <;> cases grip <;> rfl

theorem Row.spacedRedirect_of_not_space (h : token.isSpace = false) (ts : List Token) :
    (Row.ofTokens (token :: ts)).spacedRedirect =
      (Row.ofTokens (token :: ts)).redirect.as ([], ·) := by
  rw [Row.ofTokens_cons]
  have hread (redirect : Readings Redirect) : readSpacedRedirect (Chart.ofTokens ts) token
      ((Chart.ofTokens ts).size - 1) redirect = redirect.as ([], ·) := by
    cases token with
    | space text => cases h
    | _ => rfl
  change (readSpacedRedirect (Chart.ofTokens ts) token _ _).distinct = _
  rw [hread, distinct_as]
  exact congrArg _ (distinct_distinct _)

/-- A command that does not begin with a blank is opened in the same ways as after a redirect. -/
theorem readOpening_eq (h : token.isSpace = false) (ts : List Token) :
    readOpening (Chart.ofTokens ts) (Row.ofTokens (token :: ts)).spacedRedirect
        ((Row.ofTokens (token :: ts)).word .loose) =
      readOpened (Chart.ofTokens ts) token ts.length (Row.ofTokens (token :: ts)).redirect
        ((Row.ofTokens (token :: ts)).word .loose) := by
  rw [Row.spacedRedirect_of_not_space h]
  unfold readOpening
  rw [andThen_as]
  cases hdirection : Direction.ofToken? token with
  | none =>
    rw [Row.redirect_eq_nil hdirection]
    cases token with
    | space text => cases h
    | less => cases hdirection
    | greater => cases hdirection
    | _ => rfl
  | some direction =>
    obtain rfl : token = direction.token := by
      cases token <;> cases hdirection <;> rfl
    rw [Row.word_direction]
    cases direction <;> exact append_nil _

/-- A line is read with the first opening and name after which its rest can be read. -/
theorem reads_of_pick (htoken : token.isSpace = false) {o : Opening × Word}
    (h : (Row.ofTokens (token :: ts)).opened.pick
      (fun k => ((Chart.ofTokens ts).row k).ending.ends 0) = some (o, left)) :
    ∃ e, (e, 0) ∈ ((Chart.ofTokens ts).row left).ending ∧
      (Command.mk o.1 o.2 e).Reads (token :: ts) := by
  rw [Row.opened_cons, ← readOpening_eq htoken ts] at h
  unfold Command.Reads
  rw [Row.command_cons]
  exact exists_mem_distinct_andThen (fun o e => Command.mk o.1 o.2 e) h

theorem Readings.Sound.taken {α : Type} {R : α → List Token → Prop} {xs : Readings α}
    {c rest : List Token} (h : xs.Sound R (c ++ rest)) {a : α} (ha : (a, rest.length) ∈ xs) :
    R a c := by
  obtain ⟨taken, later, hts, hleft, hR⟩ := h a rest.length ha
  obtain ⟨rfl, -⟩ := append_inj' hts hleft
  exact hR

theorem Compact.pick_opened (direction : Direction) (gap : Option Text) {target : List Chunk}
    (h : Compact target) {may : Nat → Bool} {text : Text} {o : Opening × Word}
    (hlater : (Row.ofTokens (.space text :: ts)).opened.pick may = some (o, left)) :
    ∃ r : Redirect, r.tree.tokens = redirectTokens direction gap target ∧
      (Row.ofTokens (redirectTokens direction gap target ++ .space text :: ts)).opened.pick may =
        some ((.redirect r o.1, o.2), left) := by
  obtain ⟨r, hr⟩ := h.leads_redirect direction gap text ts
  refine ⟨r, ?_, ?_⟩
  · have hforms := (Row.sound_ofTokens _).redirect.taken (mem_of_head? hr)
    simpa using hforms.tokensOf_eq
  · rw [redirectTokens, cons_append] at hr ⊢
    rw [Row.opened_direction, pick_distinct]
    apply pick_andThen_of_head hr
    rw [Chart.row_ofTokens (suffix_append _ _), pick_as, hlater]
    rfl

/-- A name is read whole if the rest of the line can be read only from where a word has ended. -/
theorem pick_opened_name (hne : chunks ≠ []) {rest : List Token}
    (hplain : .backquote ∉ Chunk.row chunks ++ rest) (may : Nat → Bool)
    (hrest : may rest.length = true) (hstopped : Stopped rest)
    (hmay : ∀ taken later, Chunk.row chunks ++ rest = taken ++ later → taken ≠ [] →
      may later.length = true → Stopped later) :
    ∃ name : Word, name.tree.tokens = Chunk.row chunks ∧
      (Row.ofTokens (Chunk.row chunks ++ rest)).opened.pick may =
        some ((.done, name), rest.length) := by
  have hatoms := Chunk.atoms_row hne
  obtain ⟨name, left, hpick⟩ := exists_pick (hatoms.covers_word .loose rest) hrest
  obtain ⟨taken, later, hts, rfl, hforms⟩ :=
    (Row.sound_ofTokens _).word .loose name left (mem_of_pick hpick)
  have htokens : name.tree.tokens = taken := by
    simpa using hforms.tokensOf_eq
  have hlater := hmay taken later hts (htokens ▸ name.tokens_ne_nil) (may_of_pick hpick)
  rw [hts] at hplain
  obtain ⟨chunks', hchunks', -⟩ := name.exists_chunks
    (htokens ▸ fun hmem => hplain (mem_append_left later hmem))
  rw [htokens] at hchunks'
  obtain ⟨hsame, rfl⟩ := Chunk.row_cancel hstopped hlater (hchunks' ▸ hts)
  refine ⟨name, by rw [htokens, hchunks', hsame], ?_⟩
  obtain ⟨token, ts, hcons, hspace, hdirection⟩ := hatoms.exists_cons
  rw [hcons, cons_append] at hpick ⊢
  rw [Row.opened_of_word hspace hdirection, pick_distinct, pick_as, hpick]
  rfl

/-! ## What follows the name -/

/-- A modifier is the preferred reading of all the tokens. -/
def Modifier.Reads (m : Modifier) (ts : List Token) : Prop := (m, 0) ∈ (Row.ofTokens ts).modifier

theorem Modifier.Reads.eq {m m' : Modifier} (h : m.Reads ts) (h' : m'.Reads ts) : m = m' := by
  cases ts with
  | nil => cases h
  | cons token ts =>
    unfold Modifier.Reads at h h'
    rw [Row.ofTokens_cons] at h h'
    exact Readings.eq_of_mem_distinct h h'

private theorem Row.reads_modifier (ts : List Token) :
    (Row.ofTokens ts).modifier.Sound Modifier.Reads ts := by
  intro m left hmem
  obtain ⟨taken, later, rfl, rfl, -⟩ := (Row.sound_ofTokens ts).modifier m left hmem
  refine ⟨taken, later, rfl, rfl, ?_⟩
  have hwithin := ((Chart.within_ofTokens taken later).row taken (suffix_refl _)).modifier
  unfold Modifier.Reads Row.ofTokens
  rw [← hwithin, Readings.mem_within, Nat.zero_add]
  exact hmem

theorem Modifier.Reads.tokens_eq {m : Modifier} (h : m.Reads ts) : m.tree.tokens = ts := by
  have hforms := (Row.sound_ofTokens (ts ++ [])).modifier.taken (append_nil ts ▸ h)
  simpa using hforms.tokensOf_eq

/-- What follows a name, cut into its redirects and modifiers, each modifier read by itself. -/
inductive Ending.Reads : Ending → List Token → Prop where
  | done : Reads .done []
  | redirect (spaces : List Text) (first : Redirect) {rest : Ending} {ts : List Token}
      (later : Reads rest ts) :
      Reads (.redirect spaces first rest) (spaces.map .space ++ first.tree.tokens ++ ts)
  | modifier (text : Text) {first : Modifier} {c : List Token} (hfirst : first.Reads c)
      {rest : Ending} {ts : List Token} (later : Reads rest ts) :
      Reads (.modifier text first rest) (.space text :: (c ++ ts))

theorem Row.reads_ending (ts : List Token) : (Row.ofTokens ts).ending.Sound Ending.Reads ts := by
  induction hn : ts.length using Nat.strongRecOn generalizing ts with
  | _ n ih =>
    cases ts with
    | nil => exact .none_taken rfl .done
    | cons token ts =>
      have hlater : ∀ rest, rest <:+ ts →
          ((Chart.ofTokens ts).row rest.length).ending.Sound Ending.Reads rest := by
        intro rest hrest
        rw [Chart.row_ofTokens hrest]
        apply ih rest.length _ rest rfl
        have := hrest.length_le
        rw [length_cons] at hn
        omega
      rw [Row.ending_cons]
      apply Readings.Sound.distinct
      unfold readEnding
      refine .append (.append ?_ ?_) (.none_taken rfl .done)
      · apply (Row.sound_ofTokens (token :: ts)).spacedRedirect.andThen
        rintro ⟨spaces, first⟩ taken rest hts hforms
        have htaken : taken = spaces.map .space ++ first.tree.tokens := by
          rw [← hforms.tokensOf_eq, Tree.tokensOf_append, (forms_spaces spaces).tokensOf_eq]
          simp
        have hne : taken ≠ [] := by
          rw [htaken]
          exact append_ne_nil_of_right_ne_nil _ first.tokens_ne_nil
        apply (hlater rest (suffix_of_taken hts hne)).as
        intro ending more hending
        rw [htaken]
        exact .redirect spaces first hending
      · split
        · next text =>
            apply Readings.Sound.after [.space text]
            apply (Row.reads_modifier ts).andThen
            intro modifier taken rest hts hmodifier
            apply (hlater rest (hts ▸ suffix_append _ _)).as
            intro ending more hending
            exact .modifier text hmodifier hending
        · exact .nil _

end CommandShell.Line

import CommandShell.Proofs.Void.Openings

/-!
# Arguments padded with voids

A void, two backquotes with nothing or a blank between them, adds no more than the blank to the word
that it stands in. But as a backquote can open a substitution as well as close one, a line with
several voids can be read in other ways too. A void inside a word, with a run of characters on either side, makes the shell try
what follows it as the inside of a substitution that the next backquotes close. This fails as long as
each of these has a word going on behind it, and it succeeds if one of them ends a word. So voids can
stand inside words only behind all those that stand at the end of a word.
-/

namespace CommandShell.Line

open Readings List

/-! ## Words with voids -/

/-- Chunks with voids put before them, between them and behind them. A void with a blank in it takes
the place of the same blank between quotes. A void can also cut a run of characters in two, if this
does not part a backslash from what it stands before. -/
inductive Padding : List Chunk → List Part → Prop where
  | nil : Padding [] []
  | void {chunks : List Chunk} {parts : List Part} (later : Padding chunks parts) :
      Padding chunks (.void none :: parts)
  | blank {text : Text} {plain : ∀ token ∈ [Token.space text],
        token ≠ Quote.double.token ∧ token ≠ .backquote}
      {chunks : List Chunk} {parts : List Part} (later : Padding chunks parts) :
      Padding (.string .double [.space text] plain :: chunks) (.void (some text) :: parts)
  | chunk (first : Chunk) {chunks : List Chunk} {parts : List Part} (later : Padding chunks parts) :
      Padding (first :: chunks) (.chunk first :: parts)
  | cut {front back : Text} (hvalue : unescape (front ++ back) = unescape front ++ unescape back)
      {chunks : List Chunk} {parts : List Part} (later : Padding (.chars back :: chunks) parts) :
      Padding (.chars (front ++ back) :: chunks) (.chunk (.chars front) :: .void none :: parts)

variable {chunks : List Chunk} {parts : List Part} {ts : List Token} {token : Token}

theorem Padding.value_eq (h : Padding chunks parts) :
    parts.flatMap Part.value = chunks.flatMap Chunk.value := by
  induction h with
  | nil => rfl
  | void later ih => rw [flatMap_cons, ih]; rfl
  | blank later ih => simp [ih, Part.value, Chunk.value, gapText, Token.text]
  | chunk first later ih => rw [flatMap_cons, flatMap_cons, ih]; rfl
  | cut hvalue later ih =>
    rw [flatMap_cons, flatMap_cons, ih, flatMap_cons, flatMap_cons,
      Chunk.value, Chunk.value, hvalue, append_assoc]
    rfl

theorem padding_self (chunks : List Chunk) : Padding chunks (chunks.map .chunk) := by
  induction chunks with
  | nil => exact .nil
  | cons first chunks ih => exact .chunk first ih

theorem Part.row_map_chunk (chunks : List Chunk) :
    row (chunks.map .chunk) = Chunk.row chunks := by
  induction chunks with
  | nil => rfl
  | cons first chunks ih => rw [map_cons, row_cons, ih, Chunk.row_cons]; rfl

def Part.isVoid : Part → Bool
  | chunk _ => false
  | void _ => true

/-- Where the voids of a word can stand: at its edges, or only before a run of characters. -/
inductive Phase where
  | edges
  | insides
deriving DecidableEq, Repr

/-- The places of the voids in a word. -/
def Phase.Allows : Phase → List Part → Prop
  | edges, parts => ∀ front gap back, parts = front ++ .void gap :: back →
      (∀ part ∈ front, part.isVoid = true) ∨ Tail back
  | insides, parts => ∀ front gap back, parts = front ++ .void gap :: back →
      ∃ part ∈ back, part.isRun = true

variable {phase : Phase}

theorem Phase.Allows.of_cons {part : Part} (h : phase.Allows (part :: parts)) :
    phase.Allows parts := by
  cases phase with
  | edges =>
    intro front gap back hparts
    refine (h (part :: front) gap back (by rw [hparts]; rfl)).imp_left fun hfront => ?_
    exact fun p hp => hfront p (mem_cons_of_mem _ hp)
  | insides =>
    intro front gap back hparts
    exact h (part :: front) gap back (by rw [hparts]; rfl)

theorem edges_allows_chunks (chunks : List Chunk) : Phase.edges.Allows (chunks.map .chunk) := by
  intro front gap back hparts
  have hmem : Part.void gap ∈ chunks.map Part.chunk := hparts ▸ by simp
  obtain ⟨chunk, -, hchunk⟩ := mem_map.mp hmem
  cases hchunk

/-! ## Places where a word goes on -/

/-- Behind each backquote that could close a substitution a word goes on. -/
def Deepens (ts : List Token) : Prop :=
  ∀ front back : List Token,
    ts = front ++ Token.backquote :: back → front.count .backquote % 2 = 1 → Deep back

theorem deepens_nil : Deepens [] := fun front _ h => by cases front <;> cases h

theorem Deepens.append_left {us : List Token} (hts : .backquote ∉ ts) (h : Deepens us) :
    Deepens (ts ++ us) := by
  intro front back hcut hodd
  rcases append_eq_append_cons hcut with ⟨middle, rfl, -⟩ | ⟨middle, rfl, hus⟩
  · simp at hts
  · rw [count_append, count_eq_zero.mpr hts, Nat.zero_add] at hodd
    exact h middle back hus hodd

theorem Deepens.void (gap : Option Text) (h : Deepens ts) (hdeep : Deep ts) :
    Deepens ((Part.void gap).tokens ++ ts) := by
  have hgap : .backquote ∉ gapTokens gap := (quiet_gap gap).plain
  intro front back hcut hodd
  cases front with
  | nil => cases hodd
  | cons first front =>
    obtain ⟨rfl, htail⟩ := List.cons.inj hcut
    have hinner : gapTokens gap ++ .backquote :: ts = front ++ .backquote :: back := by
      rw [append_cons (gapTokens gap)]
      exact htail
    rcases append_eq_append_cons hinner with ⟨middle, hmem, -⟩ | ⟨middle, rfl, hclose⟩
    · exact absurd (hmem ▸ by simp) hgap
    · cases middle with
      | nil => exact (List.cons.inj hclose).2 ▸ hdeep
      | cons last middle =>
        obtain ⟨rfl, hts⟩ := List.cons.inj hclose
        rw [count_cons_self, count_append, count_cons_self,
          count_eq_zero.mpr hgap] at hodd
        exact h middle back hts (by omega)

section Legible

variable {rest : List Token} {parts : List Part}

/-- A word whose voids stand before runs only: it goes on behind every void. -/
theorem deepens_insides (hrest : Deepens rest) (h : Phase.insides.Allows parts) :
    Deepens (Part.row parts ++ rest) ∧ (¬ Tail parts → Deep (Part.row parts ++ rest)) := by
  induction parts with
  | nil => exact ⟨hrest, fun hrun => absurd (by simp [Tail]) hrun⟩
  | cons part parts ih =>
    obtain ⟨hdeepens, hdeep⟩ := ih h.of_cons
    rw [Part.row_cons, append_assoc]
    cases part with
    | chunk only =>
      refine ⟨hdeepens.append_left only.backquote_not_mem, fun hrun => ?_⟩
      cases hstring : only.isString with
      | false => exact .run hstring _
      | true =>
        refine .string hstring (hdeep fun htail => hrun ?_)
        intro part hpart
        rcases mem_cons.mp hpart with rfl | hpart
        · simp [Part.isRun, hstring]
        · exact htail part hpart
    | void gap =>
      obtain ⟨run, hmem, hrun⟩ := h [] gap parts rfl
      have hlater := hdeep fun htail => by
        rw [htail run hmem] at hrun
        cases hrun
      have hvoid := hdeepens.void gap hlater
      exact ⟨hvoid, fun _ => .void gap hvoid⟩

/-- A word whose voids stand at its edges: behind its first chunk it goes on up to its last run. -/
theorem deep_edges (h : ∀ front gap back, parts = front ++ .void gap :: back → Tail back)
    (hrun : ¬ Tail parts) : Deep (Part.row parts ++ rest) := by
  induction parts with
  | nil => exact absurd (by simp [Tail]) hrun
  | cons part parts ih =>
    cases part with
    | chunk only =>
      rw [Part.row_cons, append_assoc]
      cases hstring : only.isString with
      | false => exact .run hstring _
      | true =>
        refine .string hstring (ih (fun front gap back hparts => ?_) fun htail => hrun ?_)
        · exact h (.chunk only :: front) gap back (by rw [hparts]; rfl)
        · intro part hpart
          rcases mem_cons.mp hpart with rfl | hpart
          · simp [Part.isRun, hstring]
          · exact htail part hpart
    | void gap =>
      refine absurd (fun part hpart => ?_) hrun
      rcases mem_cons.mp hpart with rfl | hpart
      · rfl
      · exact h [] gap parts rfl part hpart

private theorem legible_of_deep
    (hdeep : ∀ first later, .chunk first :: later <:+ parts → ¬ Tail later →
    Deep (Part.row later ++ rest)) (hchunk : ∃ chunk, .chunk chunk ∈ parts) :
    Legible rest parts := by
  induction parts with
  | nil =>
    obtain ⟨chunk, hmem⟩ := hchunk
    cases hmem
  | cons part parts ih =>
    have hlater := ih fun first later hsuffix => hdeep first later (hsuffix.trans (suffix_cons _ _))
    cases part with
    | chunk only =>
      by_cases htail : Tail parts
      · exact .last only htail
      · refine .before only (hlater ?_) (hdeep only parts (suffix_refl _) htail)
        simp only [Tail, not_forall] at htail
        obtain ⟨part, hmem, hrun⟩ := htail
        cases part with
        | chunk only => exact ⟨only, hmem⟩
        | void gap => exact absurd rfl hrun
    | void gap =>
      obtain ⟨chunk, hmem⟩ := hchunk
      rcases mem_cons.mp hmem with h | hmem
      · cases h
      · exact .void gap (hlater ⟨chunk, hmem⟩)

theorem Phase.Allows.legible (h : phase.Allows parts) (hrest : phase = .insides → Deepens rest)
    (hchunk : ∃ chunk, .chunk chunk ∈ parts) : Legible rest parts := by
  refine legible_of_deep ?_ hchunk
  rintro first later ⟨before, rfl⟩ hrun
  cases phase with
  | edges =>
    refine deep_edges (fun front gap back hlater => ?_) hrun
    refine (h (before ++ .chunk first :: front) gap back ?_).resolve_left fun hvoid => ?_
    · rw [hlater]
      simp
    · have hfirst := hvoid (.chunk first) (by simp)
      cases hfirst
  | insides =>
    refine (deepens_insides (hrest rfl) fun front gap back hlater => ?_).2 hrun
    refine h (before ++ .chunk first :: front) gap back ?_
    rw [hlater]
    simp

end Legible

/-! ## Words in an ending -/

theorem Deep.exists_cons (h : Deep ts) : ∃ token later, ts = token :: later ∧
    token.isSpace = false ∧ Direction.ofToken? token = none := by
  have hchunk : ∀ (chunk : Chunk) (ts : List Token), ∃ token later,
      chunk.tokens ++ ts = token :: later ∧ token.isSpace = false ∧
        Direction.ofToken? token = none := by
    intro chunk ts
    cases chunk with
    | chars text | dash => exact ⟨_, _, rfl, rfl, rfl⟩
    | string quote inside plain =>
      exact ⟨_, _, rfl, by cases quote <;> rfl, by cases quote <;> rfl⟩
  cases h with
  | run hstring ts => exact hchunk _ ts
  | string hstring later => exact hchunk _ _
  | void gap later => exact ⟨_, _, rfl, rfl, rfl⟩

private theorem Row.ending_eq_done (hspace : token.isSpace = false)
    (hdirection : Direction.ofToken? token = none) (ts : List Token) :
    (Row.ofTokens (token :: ts)).ending = [(.done, (token :: ts).length)] := by
  rw [Row.ending_cons, Row.spacedRedirect_of_not_space hspace, Row.redirect_eq_nil hdirection]
  cases token with
  | space text => cases hspace
  | _ => rfl

theorem Judges.guards {may : Nat → Bool} (h : Judges may ts) : Guards may ts := by
  intro us hus _ hdeep
  obtain ⟨token, later, rfl, hspace, hdirection⟩ := hdeep.exists_cons
  rw [h _ hus, Row.ending_eq_done hspace hdirection]
  rfl

theorem Halted.word_eq_nil (h : Halted ts) : (Row.ofTokens ts).word .loose = [] := by
  refine eq_nil_iff_forall_not_mem.mpr ?_
  rintro ⟨word, left⟩ hmem
  obtain ⟨taken, rest, rfl, -, rfl⟩ := Row.sound_word ts word left hmem
  exact word.not_halted rest h

/-- Tokens that close the quotes that they open and have no backquotes between them. -/
structure Confined (ts : List Token) : Prop where
  outside : Outside ts
  state : openAfter none ts = none

theorem Quiet.confined (h : Quiet ts) : Confined ts :=
  ⟨outside_of_not_mem h.plain, h.state⟩

theorem Confined.append {ts us : List Token} (hts : Confined ts) (hus : Confined us) :
    Confined (ts ++ us) :=
  ⟨hts.outside.append hts.state hus.outside, by rw [openAfter_append, hts.state, hus.state]⟩

theorem confined_backquote : Confined [.backquote] := by
  refine ⟨fun front back h => ?_, rfl⟩
  cases front with
  | nil => rfl
  | cons token front => cases front <;> cases h

theorem Part.confined_row (parts : List Part) : Confined (row parts) := by
  induction parts with
  | nil => exact ⟨outside_of_not_mem (by simp), rfl⟩
  | cons part parts ih =>
    rw [row_cons]
    refine Confined.append ?_ ih
    cases part with
    | chunk only => exact only.quiet.confined
    | void gap =>
      exact confined_backquote.append ((quiet_gap gap).confined.append confined_backquote)

theorem Part.balanced_row {separator : Token} (hsep : separator.Separates) (parts : List Part) :
    Balanced separator none (row parts) := by
  induction parts with
  | nil => exact .nil
  | cons part parts ih =>
    rw [row_cons]
    refine Balanced.append ?_ ih
    cases part with
    | void gap =>
      have hquote : Balanced separator none [.backquote] := by
        refine .one (fun _ => ?_) rfl
        rcases hsep with rfl | rfl <;> simp
      have hgap := balanced_gap hsep none gap
      rw [tokensOf_gapLeaves] at hgap
      exact hquote.append (hgap.append hquote)
    | chunk only =>
      cases only with
      | chars text => exact balanced_chars hsep text
      | dash => exact balanced_dash hsep
      | string quote inside plain =>
        exact balanced_quoted hsep quote (balanced_inside fun hmem => (plain _ hmem).1 rfl)

theorem Part.atom (part : Part) : Atom part.tokens := by
  cases part with
  | chunk only => exact only.atom
  | void gap =>
    have hcovers := Covers.substitution gap none (.inl rfl)
    exact .substitution hcovers

theorem Part.atoms_row (hne : parts ≠ []) : Atoms (row parts) := by
  induction parts with
  | nil => exact absurd rfl hne
  | cons part parts ih =>
    rw [row_cons]
    by_cases hparts : parts = []
    · rw [hparts, row_nil, append_nil]
      exact .one part.atom
    · exact .cons part.atom (ih hparts)

/-- An ending that reads the tokens behind a word. -/
structure Ending.Follows (e : Ending) (rest : List Token) : Prop where
  halted : Halted rest
  outside : Outside rest
  mem : (e, 0) ∈ (Row.ofTokens rest).ending

theorem Phase.Allows.exists_pick_word {phase : Phase} {parts : List Part} (h : phase.Allows parts)
    (hchunk : ∃ chunk, .chunk chunk ∈ parts) {rest : List Token}
    (hdeepens : phase = .insides → Deepens rest) {e : Ending} (hrest : e.Follows rest)
    {may : Nat → Bool} (hmay : Judges may (Part.row parts ++ rest)) :
    ∃ word : Word, word.value = .ok (parts.flatMap Part.value) ∧
      word.tree.tokens = Part.row parts ∧
      ((Row.ofTokens (Part.row parts ++ rest)).word .loose).pick may = some (word, rest.length) := by
  have hrow := Part.confined_row parts
  have haccepts : Accepts .loose may parts rest := by
    intro back _ _ hback
    rw [hback nofun, Part.row_nil, nil_append, hmay rest (suffix_append _ _)]
    exact ends_iff.mpr ⟨e, hrest.mem⟩
  obtain ⟨word, front, back, hleaves, hvalue, hpick⟩ :=
    (h.legible hdeepens hchunk).exists_pick_word hrest.halted hmay.guards
      (hrow.outside.append hrow.state hrest.outside) haccepts
  obtain rfl := hleaves.nothing nofun
  obtain rfl : parts = front := by simpa using hleaves.parts_eq
  rw [Part.row_nil, nil_append] at hpick
  exact ⟨word, hvalue, (Row.sound_word _).taken (mem_of_pick hpick), hpick⟩

/-! ## Endings are read item by item -/

theorem Ending.eq_of_mem {e e' : Ending} (h : (e, 0) ∈ (Row.ofTokens ts).ending)
    (h' : (e', 0) ∈ (Row.ofTokens ts).ending) : e = e' := by
  cases ts with
  | nil =>
    cases mem_singleton.mp h
    cases mem_singleton.mp h'
    rfl
  | cons token ts =>
    rw [Row.ofTokens_cons] at h h'
    exact Readings.eq_of_mem_distinct h h'

theorem Readings.mem_distinct_append {α : Type} {xs : Readings α} {reading : α × Nat}
    (h : reading ∈ xs.distinct) (ys : Readings α) : reading ∈ distinct (xs ++ ys) := by
  obtain ⟨zs, hzs⟩ := distinct_append xs ys
  rw [hzs]
  exact mem_append_left _ h

theorem Ending.mem_of_pick {α : Type} {xs : Readings α} {token : Token} {ts rest : List Token}
    {may : Nat → Bool} (hmay : Judges may (token :: ts)) (hxs : xs.Takes (token :: ts)) {a : α}
    (hpick : xs.pick may = some (a, rest.length)) (hrest : rest <:+ token :: ts) {e : Ending}
    (he : (e, 0) ∈ (Row.ofTokens rest).ending) (f : α → Ending → Ending) :
    (f a e, 0) ∈
      (xs.andThen fun a left => ((Chart.ofTokens ts).row left).ending.as (f a)).distinct := by
  obtain ⟨taken, later, hcut, hlength, hne⟩ := hxs a rest.length (Readings.mem_of_pick hpick)
  have hsuffix : later <:+ token :: ts := hcut ▸ suffix_append _ _
  obtain rfl : rest = later :=
    (suffix_of_suffix_length_le hrest hsuffix hlength.le).eq_of_length hlength
  rw [hmay.pick_takes hxs] at hpick
  obtain ⟨e', he', hmem⟩ := exists_mem_distinct_andThen f hpick
  rw [Chart.row_ofTokens (suffix_of_taken hcut hne)] at he'
  exact Ending.eq_of_mem he' he ▸ hmem

private theorem pick_spacedRedirect (spaces : List Text) (direction : Direction) (gap : Option Text)
    (hts : ∀ text later, ts ≠ .space text :: later) (may : Nat → Bool) :
    (Row.ofTokens (spaces.map .space ++
      direction.token :: (gapTokens gap ++ ts))).spacedRedirect.pick may =
      (((Row.ofTokens ts).word .loose).pick may).map
        fun w => ((spaces, .mk direction gap w.1), w.2) := by
  induction spaces with
  | nil =>
    rw [map_nil, nil_append,
      Row.spacedRedirect_of_not_space (by cases direction <;> rfl),
      Row.redirect_direction direction gap hts, pick_as, pick_distinct, pick_as, Option.map_map]
    rfl
  | cons text spaces ih =>
    rw [map_cons, cons_append, Row.spacedRedirect_space, pick_as, ih, Option.map_map]
    rfl

section Items

variable {may : Nat → Bool} {ts rest : List Token} {e : Ending}

theorem Ending.mem_redirect (spaces : List Text) (direction : Direction) (gap : Option Text)
    (hts : ∀ text later, ts ≠ .space text :: later)
    (hmay : Judges may (spaces.map .space ++ direction.token :: (gapTokens gap ++ ts)))
    {target : Word} (hpick : ((Row.ofTokens ts).word .loose).pick may = some (target, rest.length))
    (hrest : rest <:+ ts) (he : (e, 0) ∈ (Row.ofTokens rest).ending) :
    (.redirect spaces (.mk direction gap target) e, 0) ∈
      (Row.ofTokens (spaces.map .space ++ direction.token :: (gapTokens gap ++ ts))).ending := by
  have hspaced := pick_spacedRedirect spaces direction gap hts may
  rw [hpick, Option.map_some] at hspaced
  have hsuffix : rest <:+ spaces.map .space ++ direction.token :: (gapTokens gap ++ ts) :=
    hrest.trans ⟨spaces.map .space ++ direction.token :: gapTokens gap, by simp⟩
  revert hmay hspaced hsuffix
  cases spaces.map Token.space ++ direction.token :: (gapTokens gap ++ ts) with
  | nil => exact fun _ hspaced => nomatch hspaced
  | cons token us =>
    intro hmay hspaced hsuffix
    rw [Row.ending_cons]
    unfold readEnding
    rw [append_assoc]
    exact mem_distinct_append (Ending.mem_of_pick hmay
      (Row.sound_ofTokens (token :: us)).takes.spacedRedirect hspaced hsuffix he
      fun r => .redirect r.1 r.2) _

theorem Ending.mem_modifier (text : Text) {us : List Token} (hts : ts = token :: us)
    (hspace : token.isSpace = false) (hdirection : Direction.ofToken? token = none)
    (hmay : Judges may (.space text :: ts)) {m : Modifier}
    (hpick : (Row.ofTokens ts).modifier.pick may = some (m, rest.length)) (hrest : rest <:+ ts)
    (he : (e, 0) ∈ (Row.ofTokens rest).ending) :
    (.modifier text m e, 0) ∈ (Row.ofTokens (.space text :: ts)).ending := by
  have hspaced : (Row.ofTokens (.space text :: ts)).spacedRedirect = [] := by
    rw [Row.spacedRedirect_space, hts, Row.spacedRedirect_of_not_space hspace,
      Row.redirect_eq_nil hdirection]
    rfl
  have htakes : (Row.ofTokens ts).modifier.Takes (.space text :: ts) :=
    Readings.Sound.after [.space text]
      ((Row.sound_ofTokens ts).takes.modifier.mono fun _ _ _ => cons_ne_nil _ _)
  rw [Row.ending_cons, hspaced]
  exact mem_distinct_append (Ending.mem_of_pick hmay htakes hpick
    (hrest.trans (suffix_cons _ _)) he (.modifier text)) [(Ending.done, ts.length + 1)]

theorem pick_modifier_flag {name : Word} {left : Nat}
    (h : ((Row.ofTokens ts).word .loose).pick may = some (name, left)) :
    (Row.ofTokens (.dash :: ts)).modifier.pick may = some (.flag name, left) := by
  rw [Row.modifier_cons, pick_distinct]
  unfold readModifier
  rw [if_pos rfl, pick_append, pick_as]
  change (Option.map _ (((Row.ofTokens ts).word .loose).pick may)).or _ = _
  rw [h]
  rfl

/-- Behind a dash that stands alone, no flag is found. -/
theorem pick_modifier_arg (htoken : token = .dash → Halted ts) {value : Word} {left : Nat}
    (h : ((Row.ofTokens (token :: ts)).word .loose).pick may = some (value, left)) :
    (Row.ofTokens (token :: ts)).modifier.pick may = some (.arg value, left) := by
  have hflag : (if token = .dash then
      (((Chart.ofTokens ts).row ts.length).word .loose).as Modifier.flag else []) = [] := by
    split
    · next heq => exact congrArg (Readings.as Modifier.flag) (htoken heq).word_eq_nil
    · rfl
  rw [Row.modifier_cons, pick_distinct]
  unfold readModifier
  rw [hflag, nil_append, pick_as, h]
  rfl

end Items

/-! ## Words without voids -/

private theorem spelling_row (chunks : List Chunk) :
    spelling none (Chunk.row chunks) = chunks.flatMap Chunk.value := by
  induction chunks with
  | nil => rfl
  | cons chunk chunks ih =>
    rw [Chunk.row_cons, spelling_append, chunk.quiet.state, ih, flatMap_cons]
    congr 1
    cases chunk with
    | chars text => exact append_nil _
    | dash => rfl
    | string quote inside plain =>
      have hquote : quote.token ∉ inside := fun h => (plain _ h).1 rfl
      rw [Chunk.tokens, spelling_quoted quote (openAfter_inside hquote),
        spelling_inside_all hquote, Chunk.value]

theorem Word.value_of_chunks {w : Word} (h : w.tree.tokens = Chunk.row chunks) :
    w.value = .ok (chunks.flatMap Chunk.value) := by
  rw [w.value_eq (h ▸ Chunk.backquote_not_mem_row chunks), h, spelling_row]

theorem Word.exists_pick_word (w : Word) (hplain : .backquote ∉ w.tree.tokens) {rest : List Token}
    {e : Ending} (h : e.Follows rest) {may : Nat → Bool}
    (hmay : Judges may (w.tree.tokens ++ rest)) :
    ∃ word : Word, word.value = w.value ∧ word.tree.tokens = w.tree.tokens ∧
      ((Row.ofTokens (w.tree.tokens ++ rest)).word .loose).pick may = some (word, rest.length) := by
  obtain ⟨chunks, hchunks, hne, -⟩ := w.exists_chunks hplain
  have hrow := Part.row_map_chunk chunks
  rw [hchunks, ← hrow] at hmay
  obtain ⟨word, hvalue, htokens, hpick⟩ := (edges_allows_chunks chunks).exists_pick_word
    ((exists_mem_of_ne_nil chunks hne).imp fun _ => mem_map_of_mem) nofun h hmay
  rw [hrow] at htokens hpick
  rw [w.value_of_chunks hchunks, hchunks]
  exact ⟨word, by rw [hvalue, (padding_self chunks).value_eq], htokens, hpick⟩

theorem Part.exists_row_cons (hne : parts ≠ []) (rest : List Token) :
    ∃ token us, row parts ++ rest = token :: us ∧ token.isSpace = false ∧
      Direction.ofToken? token = none ∧ (token = .dash → parts.head? = some (.chunk .dash)) := by
  cases parts with
  | nil => exact absurd rfl hne
  | cons part parts =>
    cases part with
    | void gap => exact ⟨_, _, rfl, rfl, rfl, nofun⟩
    | chunk only =>
      cases only with
      | chars text => exact ⟨_, _, rfl, rfl, rfl, nofun⟩
      | dash => exact ⟨_, _, rfl, rfl, rfl, fun _ => rfl⟩
      | string quote inside plain =>
        cases quote <;> exact ⟨_, _, rfl, rfl, rfl, nofun⟩

/-! ## Items before an ending -/

namespace Ending.Follows

variable {e : Ending} {rest : List Token} (h : e.Follows rest)

include h

theorem exists_redirect (spaces : List Text) (first : Redirect)
    (hplain : .backquote ∉ first.tree.tokens) :
    ∃ first' : Redirect, first'.tree.tokens = first.tree.tokens ∧
      (.redirect spaces first' e, 0) ∈
        (Row.ofTokens (spaces.map .space ++ first.tree.tokens ++ rest)).ending := by
  obtain ⟨direction, gap, target⟩ := first
  rw [Redirect.tokens_mk] at hplain ⊢
  simp only [mem_cons, mem_append, not_or] at hplain
  have hfull : spaces.map .space ++ direction.token :: (gapTokens gap ++ target.tree.tokens) ++ rest =
      spaces.map .space ++ direction.token :: (gapTokens gap ++ (target.tree.tokens ++ rest)) := by
    simp
  have hmay := judges_self
    (spaces.map .space ++ direction.token :: (gapTokens gap ++ (target.tree.tokens ++ rest)))
  have hsuffix : target.tree.tokens ++ rest <:+
      spaces.map .space ++ direction.token :: (gapTokens gap ++ (target.tree.tokens ++ rest)) :=
    ⟨spaces.map .space ++ direction.token :: gapTokens gap, by simp⟩
  obtain ⟨word, -, htokens, hpick⟩ := target.exists_pick_word hplain.2.2 h (hmay.mono hsuffix)
  have hspace : ∀ text later, target.tree.tokens ++ rest ≠ .space text :: later := by
    intro text later heq
    obtain ⟨token, ts, hts, htoken, -⟩ := (target.atoms hplain.2.2).exists_cons
    rw [hts] at heq
    exact htoken text (List.cons.inj heq).1
  refine ⟨.mk direction gap word, by rw [Redirect.tokens_mk, htokens], ?_⟩
  rw [hfull]
  exact Ending.mem_redirect spaces direction gap hspace hmay hpick (suffix_append _ _) h.mem

theorem exists_flag (text : Text) (name : Word) (hplain : .backquote ∉ name.tree.tokens) :
    ∃ name' : Word, name'.value = name.value ∧
      (.modifier text (.flag name') e, 0) ∈
        (Row.ofTokens (.space text :: .dash :: (name.tree.tokens ++ rest))).ending := by
  have hmay := judges_self (.space text :: .dash :: (name.tree.tokens ++ rest))
  obtain ⟨word, hvalue, -, hpick⟩ := name.exists_pick_word hplain h
    (hmay.mono ⟨[.space text, .dash], rfl⟩)
  exact ⟨word, hvalue, Ending.mem_modifier text rfl rfl rfl hmay (pick_modifier_flag hpick)
    ⟨.dash :: name.tree.tokens, rfl⟩ h.mem⟩

theorem exists_arg (text : Text) (hallows : phase.Allows parts)
    (hchunk : ∃ chunk, .chunk chunk ∈ parts) (hdeepens : phase = .insides → Deepens rest)
    (hdash : parts.head? = some (.chunk .dash) → parts = [.chunk .dash]) :
    ∃ value : Word, value.value = .ok (parts.flatMap Part.value) ∧
      (.modifier text (.arg value) e, 0) ∈
        (Row.ofTokens (.space text :: (Part.row parts ++ rest))).ending := by
  have hmay := judges_self (.space text :: (Part.row parts ++ rest))
  obtain ⟨word, hvalue, -, hpick⟩ := hallows.exists_pick_word hchunk hdeepens h
    (hmay.mono (suffix_cons _ _))
  have hne : parts ≠ [] := by
    obtain ⟨chunk, hmem⟩ := hchunk
    exact ne_nil_of_mem hmem
  obtain ⟨token, us, hrow, hspace, hdirection, hfirst⟩ := Part.exists_row_cons hne rest
  have halone : token = .dash → Halted us := by
    intro htoken
    rw [hdash (hfirst htoken)] at hrow
    exact (List.cons.inj hrow).2 ▸ h.halted
  have hmodifier := hrow ▸ pick_modifier_arg halone (hrow ▸ hpick)
  exact ⟨word, hvalue, Ending.mem_modifier text hrow hspace hdirection hmay hmodifier
    (suffix_append _ _) h.mem⟩

end Ending.Follows

/-! ## Endings with voids -/

/-- The tokens of an ending with voids in its arguments. In the first of these, voids stand at the
edges, and from some argument on only before runs. There is no void right behind a dash that stands
alone. -/
inductive Ending.Pads : Phase → Ending → List Token → Prop where
  | done (phase : Phase) : Pads phase .done []
  | redirect (spaces : List Text) (first : Redirect) {phase : Phase} {rest : Ending}
      {ts : List Token} (later : Pads phase rest ts) :
      Pads phase (.redirect spaces first rest) (spaces.map .space ++ first.tree.tokens ++ ts)
  | flag (text : Text) (name : Word) {phase : Phase} {rest : Ending} {ts : List Token}
      (later : Pads phase rest ts) :
      Pads phase (.modifier text (.flag name) rest)
        (.space text :: (.dash :: name.tree.tokens ++ ts))
  | arg (text : Text) {value : Word} {chunks : List Chunk} {parts : List Part}
      (hvalue : value.tree.tokens = Chunk.row chunks) (hparts : Padding chunks parts)
      (hchunk : ∃ chunk, .chunk chunk ∈ parts) {phase : Phase} (hphase : phase.Allows parts)
      (hdash : parts.head? = some (.chunk .dash) → parts = [.chunk .dash]) {rest : Ending}
      {ts : List Token} (later : Pads phase rest ts) :
      Pads phase (.modifier text (.arg value) rest) (.space text :: (Part.row parts ++ ts))
  | turn {e : Ending} {ts : List Token} (later : Pads .insides e ts) : Pads .edges e ts

/-- Two modifiers of the same kind that stand for the same text. -/
def Modifier.Agrees : Modifier → Modifier → Prop
  | .flag name, .flag name' => ∃ v, name.value = .ok v ∧ name'.value = .ok v
  | .arg value, .arg value' => ∃ v, value.value = .ok v ∧ value'.value = .ok v
  | _, _ => False

/-- Two endings with the same redirects and modifiers that agree. -/
structure Ending.Agrees (e e' : Ending) : Prop where
  redirects : e'.redirects.map (·.tree.tokens) = e.redirects.map (·.tree.tokens)
  modifiers : List.Forall₂ Modifier.Agrees e.modifiers e'.modifiers

/-- What the tokens of an ending are like, with voids in its arguments or without. -/
structure Padded (phase : Phase) (ts : List Token) : Prop where
  confined : Confined ts
  deepens : phase = .insides → Deepens ts
  balanced {separator : Token} : separator.Separates → Balanced separator none ts
  covers : Covers (·.ending) ts

namespace Ending.Pads

variable {phase : Phase} {e : Ending} {ts : List Token}

theorem halted (h : e.Pads phase ts) : Halted ts := by
  induction h with
  | done phase => exact ⟨.nil, nofun⟩
  | redirect spaces first later ih =>
    cases spaces with
    | nil =>
      cases first with
      | mk direction gap target =>
        rw [Redirect.tokens_mk]
        cases direction <;> exact ⟨.cons rfl _, nofun⟩
    | cons text spaces => exact ⟨.cons rfl _, nofun⟩
  | flag text name later ih | arg text hvalue hparts hchunk hphase hdash later ih =>
    exact ⟨.cons rfl _, nofun⟩
  | turn later ih => exact ih

theorem padded (h : e.Pads phase ts) (hplain : .backquote ∉ Tree.tokensOf e.trees) :
    Padded phase ts := by
  induction h with
  | done phase =>
    exact ⟨⟨outside_of_not_mem (by simp), rfl⟩, fun _ => deepens_nil, fun _ => .nil,
      covers_ending_nil⟩
  | redirect spaces first later ih =>
    rw [tokensOf_redirect, mem_append, not_or] at hplain
    have hfirst : .backquote ∉ first.tree.tokens := fun hmem => hplain.1 (mem_append_right _ hmem)
    obtain ⟨hconfined, hdeepens, hbalanced, hcovers⟩ := ih hplain.2
    refine ⟨((first.encloses_spaced spaces).quiet hplain.1).confined.append hconfined,
      fun hphase => (hdeepens hphase).append_left hplain.1, fun hsep => ?_,
      (first.covers_spaced hfirst spaces).ending_redirect hcovers⟩
    have hspaces := balanced_spaces hsep spaces
    rw [(forms_spaces spaces).tokensOf_eq] at hspaces
    exact (hspaces.append (first.balanced hsep hfirst)).append (hbalanced hsep)
  | flag text name later ih =>
    rw [tokensOf_modifier, mem_append, not_or] at hplain
    have hname : .backquote ∉ (Modifier.flag name).tree.tokens :=
      fun hmem => hplain.1 (mem_cons_of_mem _ hmem)
    have hquiet := ((Modifier.flag name).encloses_spaced text).quiet hplain.1
    have hatoms := (Modifier.flag name).atoms hname
    obtain ⟨hconfined, hdeepens, hbalanced, hcovers⟩ := ih hplain.2
    rw [Modifier.tokens_flag] at hquiet hatoms
    refine ⟨hquiet.confined.append hconfined,
      fun hphase => (hdeepens hphase).append_left hquiet.plain, fun hsep => ?_,
      hatoms.covers_arg.ending_modifier text hcovers⟩
    have hflag := (Modifier.flag name).balanced hsep hname
    rw [Modifier.tokens_flag] at hflag
    exact (balanced_space hsep none text).append (hflag.append (hbalanced hsep))
  | arg text hvalue hparts hchunk hallows hdash later ih =>
    rw [tokensOf_modifier, mem_append, not_or] at hplain
    obtain ⟨hconfined, hdeepens, hbalanced, hcovers⟩ := ih hplain.2
    obtain ⟨chunk, hmem⟩ := hchunk
    refine ⟨(Quiet.confined (quiet_gap (some text))).append
        ((Part.confined_row _).append hconfined), ?_,
      fun hsep => (balanced_space hsep none text).append
        ((Part.balanced_row hsep _).append (hbalanced hsep)),
      (Part.atoms_row (ne_nil_of_mem hmem)).covers_arg.ending_modifier text hcovers⟩
    rintro rfl
    exact (deepens_insides (hdeepens rfl) hallows).1.append_left (quiet_gap (some text)).plain
  | turn later ih =>
    obtain ⟨hconfined, -, hbalanced, hcovers⟩ := ih hplain
    exact ⟨hconfined, nofun, hbalanced, hcovers⟩

theorem eq_of_modifiers (h : e.Pads phase ts) (hmodifiers : e.modifiers = []) :
    ts = Tree.tokensOf e.trees := by
  induction h with
  | done phase => rfl
  | redirect spaces first later ih => rw [tokensOf_redirect, ih hmodifiers]
  | flag text name later ih => cases hmodifiers
  | arg text hvalue hparts hchunk hallows hdash later ih => cases hmodifiers
  | turn later ih => exact ih hmodifiers

theorem exists_mem (h : e.Pads phase ts) (hplain : .backquote ∉ Tree.tokensOf e.trees) :
    ∃ e', (e', 0) ∈ (Row.ofTokens ts).ending ∧ e.Agrees e' := by
  induction h with
  | done phase => exact ⟨.done, mem_singleton.mpr rfl, rfl, .nil⟩
  | redirect spaces first later ih =>
    rw [tokensOf_redirect, mem_append, mem_append, not_or, not_or] at hplain
    obtain ⟨e', he', hagrees⟩ := ih hplain.2
    have hfollows : e'.Follows _ := ⟨later.halted, (later.padded hplain.2).confined.outside, he'⟩
    obtain ⟨first', htokens, hmem⟩ := hfollows.exists_redirect spaces first hplain.1.2
    refine ⟨_, hmem, ?_, hagrees.modifiers⟩
    rw [Ending.redirects, Ending.redirects, map_cons, map_cons, htokens,
      hagrees.redirects]
  | flag text name later ih =>
    rw [tokensOf_modifier, mem_append, not_or, Modifier.tokens_flag] at hplain
    simp only [mem_cons, not_or] at hplain
    obtain ⟨e', he', hagrees⟩ := ih hplain.2
    have hfollows : e'.Follows _ := ⟨later.halted, (later.padded hplain.2).confined.outside, he'⟩
    obtain ⟨name', hvalue, hmem⟩ := hfollows.exists_flag text name hplain.1.2.2
    have hname := name.value_eq hplain.1.2.2
    exact ⟨_, hmem, hagrees.redirects, .cons ⟨_, hname, hvalue.trans hname⟩ hagrees.modifiers⟩
  | arg text hvalue hparts hchunk hallows hdash later ih =>
    rw [tokensOf_modifier, mem_append, not_or, Modifier.tokens_arg] at hplain
    obtain ⟨e', he', hagrees⟩ := ih hplain.2
    have hfollows : e'.Follows _ := ⟨later.halted, (later.padded hplain.2).confined.outside, he'⟩
    obtain ⟨value', hvalue', hmem⟩ := hfollows.exists_arg text hallows hchunk
      (later.padded hplain.2).deepens hdash
    rw [hparts.value_eq] at hvalue'
    exact ⟨_, hmem, hagrees.redirects,
      .cons ⟨_, Word.value_of_chunks hvalue, hvalue'⟩ hagrees.modifiers⟩
  | turn later ih => exact ih hplain

end Ending.Pads

end CommandShell.Line

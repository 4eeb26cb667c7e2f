import CommandShell.Proofs.Substitution.Splicing

/-!
# Unescaping

Outside quotes a token loses backslashes in three replacements over its whole text, one for each of
the characters that a backslash can stand before. They do not get in each other's way: one pass from
the left has the same result, however long a run of backslashes is and whatever comes after it. A
word that is put into a line with its quotes escaped therefore stands for itself again, unless it has
two backslashes side by side.
-/

namespace CommandShell.Line

open Token List

variable {c q : Char} {s w : Text} {ts : List Token} {token : Token}

/-! ## One pass -/

/-- A text without the backslashes right before its quotes, first the single ones and then the
double ones. -/
def bare (s : Text) : Text :=
  Text.replacePair '\\' '"' '"' (Text.replacePair '\\' '\'' '\'' s)

theorem collapse_bare (s : Text) : collapse (bare s) = unescape s := rfl

private theorem head?_replacePair {a b d e : Char} (hd : d ≠ e) (h : s.head? ≠ some e) :
    (Text.replacePair a b d s).head? ≠ some e := by
  fun_cases Text.replacePair a b d s with
  | case1 => simpa using hd
  | case2 => simpa using h
  | case3 => exact h

theorem bare_cons (h : c = '\\' → ∀ d, s.head? = some d → isQuote d = false) :
    bare (c :: s) = c :: bare s := by
  have hhead : ∀ q, isQuote q = true → c ≠ '\\' ∨ s.head? ≠ some q := by
    intro q hq
    by_contra! hboth
    rw [h hboth.1 q hboth.2] at hq
    cases hq
  unfold bare
  rw [replacePair_cons (hhead '\'' rfl),
    replacePair_cons ((hhead '"' rfl).imp_right (head?_replacePair (by decide)))]

theorem bare_cons_of_ne (h : c ≠ '\\') (s : Text) : bare (c :: s) = c :: bare s :=
  bare_cons fun hc => absurd hc h

theorem bare_quote (h : isQuote q = true) (s : Text) : bare ('\\' :: q :: s) = q :: bare s := by
  simp only [isQuote, Bool.or_eq_true, decide_eq_true_eq] at h
  rcases h with rfl | rfl
  · have hsingle : Text.replacePair '\\' '\'' '\'' ('\\' :: '"' :: s) =
        '\\' :: '"' :: Text.replacePair '\\' '\'' '\'' s := by
      rw [replacePair_cons (.inr (by simp)), replacePair_cons (.inl (by decide))]
    rw [bare, hsingle, Text.replacePair, if_pos ⟨rfl, rfl⟩]
    rfl
  · rw [bare, Text.replacePair, if_pos ⟨rfl, rfl⟩, replacePair_cons (.inl (by decide))]
    rfl

theorem ne_backslash_of_isQuote (h : isQuote q = true) : q ≠ '\\' := by
  rintro rfl
  cases h

theorem unescape_cons (h : c ≠ '\\') (s : Text) : unescape (c :: s) = c :: unescape s := by
  rw [← collapse_bare, bare_cons_of_ne h, collapse_cons (.inl h), collapse_bare]

theorem unescape_quote (h : isQuote q = true) (s : Text) :
    unescape ('\\' :: q :: s) = q :: unescape s := by
  rw [← collapse_bare, bare_quote h, collapse_cons (.inl (ne_backslash_of_isQuote h)),
    collapse_bare]

/-- Of two backslashes one is dropped, whatever comes after them: a quote takes the second one, and
then the first stays. -/
theorem unescape_backslash (s : Text) : unescape ('\\' :: '\\' :: s) = '\\' :: unescape s := by
  have hfirst : bare ('\\' :: '\\' :: s) = '\\' :: bare ('\\' :: s) :=
    bare_cons fun _ d hd => by cases hd; rfl
  by_cases hquote : ∃ q rest, s = q :: rest ∧ isQuote q = true
  · obtain ⟨q, rest, rfl, hq⟩ := hquote
    have hne := ne_backslash_of_isQuote hq
    rw [← collapse_bare, hfirst, bare_quote hq, collapse_cons (.inr (by simpa using hne)),
      ← bare_cons_of_ne hne, collapse_bare]
  · have hsecond : bare ('\\' :: s) = '\\' :: bare s := by
      refine bare_cons fun _ d hd => Bool.eq_false_iff.mpr fun hq => hquote ?_
      obtain ⟨rest, rfl⟩ := List.head?_eq_some_iff.mp hd
      exact ⟨d, rest, rfl, hq⟩
    rw [← collapse_bare, hfirst, hsecond, collapse, Text.replacePair, if_pos ⟨rfl, rfl⟩]
    rfl

def isEscaped (c : Char) : Bool := isQuote c || c = '\\'

private theorem unescape_lone (h : isEscaped c = false) (s : Text) :
    unescape ('\\' :: c :: s) = '\\' :: unescape (c :: s) := by
  simp only [isEscaped, Bool.or_eq_false_iff, decide_eq_false_iff_not] at h
  obtain ⟨hquote, hne⟩ := h
  have hlone : bare ('\\' :: c :: s) = '\\' :: c :: bare s := by
    rw [bare_cons fun _ d hd => by cases hd; exact hquote, bare_cons_of_ne hne]
  rw [← collapse_bare, hlone, collapse_cons (.inr (by simpa using hne)), ← bare_cons_of_ne hne,
    collapse_bare]

/-- A text without its escapes, in one pass from the left: of a backslash and a quote or another
backslash after it only the second character is kept. -/
def dropEscapes : Text → Text
  | x :: y :: rest =>
    if x = '\\' ∧ isEscaped y = true then y :: dropEscapes rest
    else x :: dropEscapes (y :: rest)
  | rest => rest

theorem unescape_eq_dropEscapes (s : Text) : unescape s = dropEscapes s := by
  fun_induction dropEscapes s with
  | case1 x y rest h ih =>
    obtain ⟨rfl, hy⟩ := h
    simp only [isEscaped, Bool.or_eq_true, decide_eq_true_eq] at hy
    rcases hy with hy | rfl
    · rw [unescape_quote hy, ih]
    · rw [unescape_backslash, ih]
  | case2 x y rest h ih =>
    by_cases hx : x = '\\'
    · subst hx
      rw [unescape_lone (by simpa using h), ih]
    · rw [unescape_cons hx, ih]
  | case3 rest hrest =>
    match rest, hrest with
    | [], _ => rfl
    | [x], _ => rfl
    | x :: y :: rest, hrest => exact absurd rfl (hrest x y rest)

/-! ## Lines of one word -/

theorem Redirect.exists_not_isPart (r : Redirect) : ∃ t ∈ r.tree.tokens, isPart t = false := by
  obtain ⟨direction, gap, target⟩ := r
  exact ⟨direction.token, by simp, by cases direction <;> rfl⟩

theorem Opening.eq_done_of_parts {opening : Opening}
    (h : ∀ t ∈ Tree.tokensOf opening.trees, isPart t = true) : opening = .done := by
  cases opening with
  | done => rfl
  | space text rest => cases h (.space text) (by simp [trees, spaceLeaf])
  | redirect first rest =>
    obtain ⟨t, ht, hpart⟩ := first.exists_not_isPart
    cases hpart.symm.trans (h t (by simp [trees, ht]))

theorem Ending.eq_done_of_parts {ending : Ending}
    (h : ∀ t ∈ Tree.tokensOf ending.trees, isPart t = true) : ending = .done := by
  cases ending with
  | done => rfl
  | redirect spaces first rest =>
    obtain ⟨t, ht, hpart⟩ := first.exists_not_isPart
    cases hpart.symm.trans (h t (by simp [trees, ht]))
  | modifier space first rest => cases h (.space space) (by simp [trees, spaceLeaf])

theorem Script.ofLine?_of_parts {line : Text} (solid : Token.ofLine line ≠ [])
    (parts : ∀ t ∈ Token.ofLine line, isPart t = true) :
    ∃ word : Word, Script.ofLine? line = some ⟨some (.command (.mk .done word .done)), []⟩ ∧
      word.tree.tokens = Token.ofLine line := by
  have hcovers := Covers.commandLine
    (.inl ((atoms_of_parts solid parts).covers_command covers_ending_nil))
  obtain ⟨⟨line?, trailing⟩, hread, hsome⟩ := Script.exists_of_covers hcovers []
  obtain ⟨l, rfl⟩ := Option.isSome_iff_exists.mp hsome
  simp only [map_nil, append_nil] at hread
  have htokens : Token.ofLine line = l.tree.tokens ++ trailing.map .space :=
    Script.tokens_of_line hread rfl
  rw [htokens] at parts ⊢
  obtain rfl : trailing = [] := by
    cases trailing with
    | nil => rfl
    | cons t trailing => cases parts (.space t) (by simp)
  simp only [map_nil, append_nil] at parts ⊢
  cases l with
  | pipe all => cases parts .bar (by simpa using all.bar_mem)
  | sequence all => cases parts .semicolon (by simpa using all.semicolon_mem)
  | command only =>
    obtain ⟨opening, name, ending⟩ := only
    have hparts : ∀ t ∈ Tree.tokensOf opening.trees ++ (name.tree.tokens ++
        Tree.tokensOf ending.trees), isPart t = true := by simpa using parts
    obtain rfl : opening = .done :=
      Opening.eq_done_of_parts fun t ht => hparts t (mem_append_left _ ht)
    obtain rfl : ending = .done :=
      Ending.eq_done_of_parts fun t ht => hparts t (mem_append_right _ (mem_append_right _ ht))
    exact ⟨name, hread, by simp [Opening.trees, Ending.trees]⟩

/-! ## Words that are put into a line -/

theorem oneLine_of_isSpace (hne : w ≠ []) (h : ∀ c ∈ w, Text.isSpace c = false) :
    oneLine w = w := by
  have htrim : Text.trim w = w := Text.dropEnds_of_neg h
  have hbreak : ∀ c ∈ w, isBreak c = false := fun c hc => by
    by_contra hbreak
    have hspace := isSpace_of_isBreak (by simpa using hbreak)
    rw [h c hc] at hspace
    cases hspace
  have hmap : w.map unbreak = w :=
    (map_congr_left fun c hc => unbreak_of_isBreak (hbreak c hc)).trans (map_id w)
  have hfields : Text.fields (· = ' ') w = [w] := by
    refine Text.fields_of_neg hne fun c hc => decide_eq_false ?_
    rintro rfl
    cases h ' ' hc
  rw [oneLine, htrim, hmap, Text.squeeze, hfields]
  rfl

private theorem Lexed.isSpace_of_mem (h : Lexed w ts) (hw : ∀ c ∈ w, isBlank c = false)
    (hmem : token ∈ ts) : token.isSpace = false := by
  rcases h.mem_cases hmem with ⟨t, rfl, hne, hblank⟩ | ⟨t, rfl, -⟩ | ⟨c, -, -, hspecial⟩
  · obtain ⟨c, hc⟩ := exists_mem_of_ne_nil t hne
    have htext : c ∈ (Token.ofLine (escape w)).flatMap Token.text :=
      mem_flatMap.mpr ⟨.space t, h.ofLine_eq ▸ hmem, hc⟩
    rw [text_ofLine] at htext
    have hc := hblank c hc
    rcases mem_escape (mem_of_mem_filter htext) with rfl | hmem
    · cases hc
    · rw [hw c hmem] at hc
      cases hc
  · rfl
  · exact isSpace_of_ofSpecial? hspecial

private theorem exists_lexed_word (hne : w ≠ []) (hspace : ∀ c ∈ w, Text.isSpace c = false)
    (hplain : ∀ c ∈ ['\x60', '|', ';', '<', '>'], c ∉ w) :
    ∃ ts, Lexed w ts ∧ ∀ token ∈ ts, isPart token = true := by
  have hline := oneLine_of_isSpace hne hspace
  have hreturn : '\r' ∉ w := fun hmem => by cases hspace _ hmem
  obtain ⟨ts, hlexed⟩ := Lexed.exists_of_isLineBreak w fun c hc =>
    isLineBreak_of_mem_oneLine hreturn (hline.symm ▸ hc)
  refine ⟨ts, hlexed, fun token hmem => ?_⟩
  have hparts := (parts_iff (hplain _ mem_cons_self) (hline.symm ▸ hlexed)).mp
    fun c hc => hplain c (mem_cons_of_mem _ hc)
  have hsolid := hlexed.isSpace_of_mem (fun c hc => isBlank_of_isSpace (hspace c hc)) hmem
  exact (hparts token hmem).resolve_right (by simp [hsolid])

private theorem collapse_eq_self_iff : collapse s = s ↔ ¬ ['\\', '\\'] <:+: s := by
  refine ⟨fun h => (length_filter_collapse (p := fun _ => true) rfl s).2 ?_, collapse_eq_self⟩
  rw [h]

/-- A word that is put into a line gets a backslash before each of its quotes. What is put in has no
tokens but characters and dashes and is read as one word; however its tokens are grouped, they stand
for the word if and only if no two of its backslashes stand side by side. -/
theorem value_of_escaped_word (hne : w ≠ []) (hspace : ∀ c ∈ w, Text.isSpace c = false)
    (hplain : ∀ c ∈ ['\x60', '|', ';', '<', '>'], c ∉ w) :
    splice w = escape w ∧
    (∀ token ∈ Token.ofLine (escape w), token = .dash ∨ ∃ t, token = .chars t) ∧
    (∃ word : Word,
      Script.ofLine? (escape w) = some ⟨some (.command (.mk .done word .done)), []⟩ ∧
        word.tree.tokens = Token.ofLine (escape w)) ∧
    ∀ word : Word, word.tree.tokens = Token.ofLine (escape w) →
      ∃ value, word.value = .ok value ∧ (value = w ↔ ¬ ['\\', '\\'] <:+: w) := by
  obtain ⟨ts, hlexed, hparts⟩ := exists_lexed_word hne hspace hplain
  have htrim : Text.trim w = w := Text.dropEnds_of_neg hspace
  have hsolid : ts ≠ [] := by
    rintro rfl
    cases hlexed
    exact hne rfl
  rw [hlexed.ofLine_eq]
  refine ⟨?_, fun token hmem => ?_, ?_, fun word hword => ?_⟩
  · rw [splice_eq (htrim.symm ▸ hne), oneLine_of_isSpace hne hspace]
  · have hpart := hparts token hmem
    cases token with
    | dash => exact .inl rfl
    | chars t => exact .inr ⟨t, rfl⟩
    | _ => cases hpart
  · rw [← hlexed.ofLine_eq] at hsolid hparts ⊢
    exact Script.ofLine?_of_parts hsolid hparts
  · have hunquoted : Unquoted word.tree.tokens := by
      rw [hword]
      exact ⟨fun h => (nomatch hparts _ h), fun h => (nomatch hparts _ h),
        fun h => (nomatch hparts _ h)⟩
    refine ⟨collapse w, ?_, collapse_eq_self_iff⟩
    rw [(word.value_of_unquoted hunquoted).1, hword, hlexed.flatMap_value]

def dashedText : Text := ['-', '"', '\\', '\'', 'a', '\\']

/-- Quotes, single backslashes and a dash in front arrive as they are. -/
theorem value_of_escaped_word_mixed : splice dashedText = escape dashedText ∧
    ∃ word : Word, Script.ofLine? (splice dashedText) =
        some ⟨some (.command (.mk .done word .done)), []⟩ ∧ word.value = .ok dashedText := by
  obtain ⟨hsplice, -, ⟨word, hread, htokens⟩, hvalue⟩ :=
    value_of_escaped_word (w := dashedText) (by decide) (by simp [dashedText, Text.isSpace])
      (by simp [dashedText])
  obtain ⟨value, hvalue, hiff⟩ := hvalue word htokens
  obtain rfl := hiff.mpr (by decide)
  exact ⟨hsplice, word, hsplice ▸ hread, hvalue⟩

end CommandShell.Line

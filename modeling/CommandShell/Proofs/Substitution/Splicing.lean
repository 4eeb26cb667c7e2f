import CommandShell.Proofs.Line.PlainCommands
import CommandShell.Proofs.Text.Fields

/-!
# Spliced output

The output of a command line is put into another line as data: its words, cut at spaces, tabs and
newlines, are to become arguments and nothing else. What is put in has its quotes escaped, but no
other character that means something in a line. So the words arrive as they are exactly when the
output is inert.
-/

namespace CommandShell.Line

open Token List

/-! ## What is put in -/

def unbreak (c : Char) : Char := if c = '\n' then ' ' else c

/-- An output in one line, with single spaces in it and its ends trimmed. -/
def oneLine (out : Text) : Text := Text.squeeze ((Text.trim out).map unbreak)

theorem replaceChar_newline (s : Text) : Text.replaceChar '\n' [' '] s = s.map unbreak := by
  induction s with
  | nil => rfl
  | cons c s ih =>
    rw [Text.replaceChar, flatMap_cons, ← Text.replaceChar, ih, map_cons, unbreak]
    split <;> rfl

theorem replaceChar_quotes (s : Text) :
    Text.replaceChar '\'' ['\\', '\''] (Text.replaceChar '"' ['\\', '"'] s) = escape s := by
  rw [Text.replaceChar, Text.replaceChar, flatMap_assoc, escape, mark]
  congr 1
  funext c
  by_cases hdouble : c = '"'
  · subst hdouble
    rfl
  · by_cases hsingle : c = '\''
    · subst hsingle
      rfl
    · simp [isQuote, hdouble, hsingle]

variable {s : Text} {c : Char} {token : Token} {values : List Text}

@[simp] theorem escape_eq_nil : escape s = [] ↔ s = [] := by
  constructor
  · intro h
    have hlength := length_le_mark isQuote s
    rw [← escape, h] at hlength
    exact eq_nil_of_length_eq_zero (by simpa using hlength)
  · rintro rfl
    rfl

private theorem isSpace_of_isQuote (h : isQuote c = true) : Text.isSpace c = false := by
  simp only [isQuote, Bool.or_eq_true, decide_eq_true_eq] at h
  rcases h with rfl | rfl <;> decide

theorem escape_of_isSpace (h : ∀ c ∈ s, Text.isSpace c = true) : escape s = s := by
  refine mark_of_neg fun c hc => ?_
  by_contra hq
  have hspace := isSpace_of_isQuote (by simpa using hq)
  rw [h c hc] at hspace
  cases hspace

private theorem trimmed_escape (h : s.Trimmed) : (escape s).Trimmed := by
  obtain ⟨⟨c, hhead, hc⟩, d, hlast, hd⟩ := h
  constructor
  · obtain ⟨rest, rfl⟩ := List.head?_eq_some_iff.mp hhead
    cases hq : isQuote c with
    | true => exact ⟨'\\', by rw [escape, mark_cons_of_pos hq]; rfl, by decide⟩
    | false => exact ⟨c, by rw [escape, mark_cons_of_neg hq]; rfl, hc⟩
  · obtain ⟨rest, rfl⟩ := List.getLast?_eq_some_iff.mp hlast
    refine ⟨d, ?_, hd⟩
    rw [escape, mark_append]
    cases hq : isQuote d with
    | true => simp [mark_cons_of_pos hq]
    | false => simp [mark_cons_of_neg hq]

theorem trim_escape (h : Text.trim s ≠ []) : Text.trim (escape s) = escape (Text.trim s) := by
  obtain ⟨a, b, hs, ha, hb⟩ := Text.exists_append_trim s
  have hescape : escape s = a ++ escape (Text.trim s) ++ b := by
    conv_lhs => rw [hs, escape, mark_append, mark_append]
    rw [← escape, escape_of_isSpace ha, escape_of_isSpace hb]
  rw [hescape, Text.trim_append ha hb (trimmed_escape (Text.trimmed_trim h))]

theorem fields_escape (s : Text) :
    Text.fields (· = ' ') (escape s) = (Text.fields (· = ' ') s).map escape := by
  refine Text.fields_of_cut (fun a c b hc => ?_) (fun s hs c hc => ?_) (fun s => escape_eq_nil) s
  · obtain rfl : c = ' ' := by simpa using hc
    rw [escape, mark_append, mark_cons_of_neg rfl]
  · obtain ⟨d, hd, hmem⟩ := mem_flatMap.mp hc
    split_ifs at hmem
    · rcases mem_cons.mp hmem with rfl | h
      · rfl
      · exact mem_singleton.mp h ▸ hs d hd
    · exact mem_singleton.mp hmem ▸ hs d hd

private theorem join_escape (pieces : List Text) :
    Text.join [' '] (pieces.map escape) = escape (Text.join [' '] pieces) := by
  induction pieces with
  | nil => rfl
  | cons piece pieces ih =>
    cases pieces with
    | nil => rfl
    | cons next pieces =>
      rw [map_cons, map_cons, Text.join_cons_cons, ← map_cons, ih,
        Text.join_cons_cons, escape, mark_append, mark_append, mark_cons_of_neg rfl, mark_nil]

@[simp] theorem isSpace_unbreak (c : Char) : Text.isSpace (unbreak c) = Text.isSpace c := by
  unfold unbreak
  split
  · next h => subst h; decide
  · rfl

theorem splice_eq {out : Text} (h : Text.trim out ≠ []) : splice out = escape (oneLine out) := by
  have hmap : Text.trim (out.map unbreak) = (Text.trim out).map unbreak :=
    Text.trim_map isSpace_unbreak h
  unfold splice
  dsimp only
  rw [replaceChar_newline, replaceChar_quotes, trim_escape (by simp [hmap, h]), hmap]
  change Text.join [' '] (Text.fields (· = ' ') (escape ((Text.trim out).map unbreak))) = _
  rw [fields_escape, join_escape]
  rfl

/-! ## The words of an output -/

/-- The characters that separate words. -/
def isBreak (c : Char) : Bool := c = ' ' || c = '\t' || c = '\n'

def wordsOf (s : Text) : List Text := s.fields isBreak

@[simp] theorem isBlank_unbreak (c : Char) : isBlank (unbreak c) = isBreak c := by
  by_cases h : c = '\n'
  · subst h
    rfl
  · simp [unbreak, isBlank, isBreak, h]

theorem unbreak_of_isBreak (h : isBreak c = false) : unbreak c = c := by
  rw [unbreak, if_neg]
  rintro rfl
  cases h

theorem isSpace_of_isBreak (h : isBreak c = true) : Text.isSpace c = true := by
  simp only [isBreak, Bool.or_eq_true, decide_eq_true_eq] at h
  rcases h with (rfl | rfl) | rfl <;> decide

section OneLine

variable {out : Text}

theorem fields_oneLine (out : Text) : (oneLine out).fields isBlank = wordsOf (Text.trim out) := by
  rw [oneLine, Text.fields_squeeze rfl, Text.fields,
    Text.splitWhere_map isBlank_unbreak fun c => unbreak_of_isBreak]
  rfl

theorem trimmed_oneLine (h : Text.trim out ≠ []) : (oneLine out).Trimmed := by
  refine Text.Trimmed.squeeze ?_
  obtain ⟨⟨c, hhead, hc⟩, d, hlast, hd⟩ := Text.trimmed_trim h
  exact ⟨⟨unbreak c, by simp [hhead], by rw [isSpace_unbreak, hc]⟩,
    unbreak d, by simp [hlast], by rw [isSpace_unbreak, hd]⟩

private theorem filter_oneLine (out : Text) :
    (oneLine out).filter (!Text.isSpace ·) = out.filter (!Text.isSpace ·) := by
  have hmap : ∀ s : Text, (s.map unbreak).filter (!Text.isSpace ·) = s.filter (!Text.isSpace ·) := by
    intro s
    induction s with
    | nil => rfl
    | cons c s ih =>
      cases hc : Text.isSpace c with
      | true => rw [map_cons, filter_cons_of_neg (by simp [hc]), ih,
          filter_cons_of_neg (by simp [hc])]
      | false =>
        have hbreak : isBreak c = false := by
          by_contra h
          rw [isSpace_of_isBreak (by simpa using h)] at hc
          cases hc
        rw [map_cons, unbreak_of_isBreak hbreak, filter_cons_of_pos (by simp [hc]),
          ih, filter_cons_of_pos (by simp [hc])]
  obtain ⟨a, b, hs, ha, hb⟩ := Text.exists_append_trim out
  have hnil : ∀ s : Text, (∀ c ∈ s, Text.isSpace c = true) → s.filter (!Text.isSpace ·) = [] :=
    fun s hs => filter_eq_nil_iff.mpr (by simpa using hs)
  rw [oneLine, Text.filter_squeeze (by decide), hmap]
  conv_rhs => rw [hs, filter_append, filter_append, hnil a ha, hnil b hb]
  simp

theorem mem_oneLine (hc : Text.isSpace c = false) : c ∈ oneLine out ↔ c ∈ out := by
  have hmem : ∀ s : Text, c ∈ s ↔ c ∈ s.filter (!Text.isSpace ·) := by simp [hc]
  rw [hmem, filter_oneLine, ← hmem]

theorem isLineBreak_of_mem_oneLine (hout : '\r' ∉ out) (hc : c ∈ oneLine out) :
    isLineBreak c = false := by
  have hmem : c = ' ' ∨ c ∈ (Text.trim out).map unbreak := by
    by_contra hnot
    rw [not_or] at hnot
    have hfilter : c ∈ (oneLine out).filter (· ≠ ' ') :=
      mem_filter.mpr ⟨hc, by simpa using hnot.1⟩
    rw [oneLine, Text.filter_squeeze (by decide)] at hfilter
    exact hnot.2 (mem_of_mem_filter hfilter)
  rcases hmem with rfl | hmem
  · rfl
  · obtain ⟨d, hd, rfl⟩ := mem_map.mp hmem
    obtain ⟨a, b, hs, -, -⟩ := Text.exists_append_trim out
    have hout : d ≠ '\r' := by
      rintro rfl
      exact hout (by rw [hs]; simp [hd])
    unfold unbreak
    split
    · rfl
    · next hnewline => simp [isLineBreak, hout, hnewline]

private theorem atEdge_append_space (a b : Text) : atEdge (a ++ ' ' :: b) = atEdge a := by
  induction a with
  | nil => rfl
  | cons c a ih =>
    unfold atEdge at ih ⊢
    by_cases hc : c = '\t'
    · rw [cons_append, dropWhile_cons_of_pos (by simpa using hc), ih,
        dropWhile_cons_of_pos (by simpa using hc)]
    · rw [cons_append, dropWhile_cons_of_neg (by simpa using hc),
        dropWhile_cons_of_neg (by simpa using hc)]

theorem tabsApart_append_space (before : Char) (a b : Text) :
    tabsApart before (a ++ ' ' :: b) = (tabsApart before a && tabsApart ' ' b) := by
  induction a generalizing before with
  | nil => rfl
  | cons c a ih =>
    by_cases hc : c = '\t'
    · subst hc
      rw [cons_append, tabsApart_tab, tabsApart_tab, ih, atEdge_append_space, Bool.and_assoc]
    · rw [cons_append, tabsApart_cons hc, tabsApart_cons hc, ih]

theorem unbreak_eq {d : Char} (hspace : d ≠ ' ') (hnewline : d ≠ '\n') : unbreak c = d ↔ c = d := by
  unfold unbreak
  split
  · next h => simp [h, hspace.symm, hnewline.symm]
  · rfl

@[simp] theorem isGap_unbreak (c : Char) : isGap (unbreak c) = isGap c := by
  unfold unbreak
  split
  · next h => subst h; rfl
  · rfl

@[simp] private theorem atEdge_map (s : Text) : atEdge (s.map unbreak) = atEdge s := by
  induction s with
  | nil => rfl
  | cons c s ih =>
    unfold atEdge at ih ⊢
    have htab : unbreak c = '\t' ↔ c = '\t' := unbreak_eq (by decide) (by decide)
    have hdash : unbreak c = '-' ↔ c = '-' := unbreak_eq (by decide) (by decide)
    by_cases hc : c = '\t'
    · rw [map_cons, dropWhile_cons_of_pos (by simpa [htab] using hc), ih,
        dropWhile_cons_of_pos (by simpa using hc)]
    · rw [map_cons, dropWhile_cons_of_neg (by simpa [htab] using hc),
        dropWhile_cons_of_neg (by simpa using hc)]
      simp [hdash]

@[simp] private theorem tabsApart_map (before : Char) (s : Text) :
    tabsApart (unbreak before) (s.map unbreak) = tabsApart before s := by
  induction s generalizing before with
  | nil => rfl
  | cons c s ih =>
    have htab : unbreak c = '\t' ↔ c = '\t' := unbreak_eq (by decide) (by decide)
    have hdash : unbreak before = '-' ↔ before = '-' := unbreak_eq (by decide) (by decide)
    by_cases hc : c = '\t'
    · subst hc
      rw [map_cons, htab.mpr rfl, tabsApart_tab, tabsApart_tab, ih, atEdge_map]
      simp [hdash]
    · rw [map_cons, tabsApart_cons (mt htab.mp hc), tabsApart_cons hc, ih]

/-- Tabs separate words in the one line if they do so in the output. -/
theorem tabsApart_oneLine (out : Text) :
    tabsApart ' ' (oneLine out) = tabsApart ' ' (Text.trim out) := by
  rw [oneLine, Text.squeeze_eq (tabsApart ' ') (· && ·) rfl (tabsApart_append_space ' ')
    Bool.true_and Bool.and_true]
  exact tabsApart_map ' ' (Text.trim out)

end OneLine

/-! ## Reading it again -/

section Reading

variable {x : Text} {ts : List Token}

theorem isSpace_of_ofSpecial? (h : ofSpecial? c = some token) : token.isSpace = false := by
  have hall : ∀ special ∈ specials, special.2.isSpace = false := by decide
  exact hall _ (mem_specials h)

theorem Lexed.head?_tokens (h : Lexed x ts) (hhead : x.head? = some c) (hc : isBlank c = false) :
    ∃ token, ts.head? = some token ∧ token.isSpace = false := by
  cases h with
  | nil => cases hhead
  | special known unquoted rest => exact ⟨_, rfl, isSpace_of_ofSpecial? known⟩
  | @space t x ts run blank whole longer rest =>
    rw [List.head?_append_of_ne_nil _ run] at hhead
    rw [blank c (mem_of_mem_head? hhead)] at hc
    cases hc
  | chars body whole longer rest => exact ⟨_, rfl, rfl⟩

variable {t : Text}

theorem getLast?_of_append {x : Text} (hlast : ∀ c, (t ++ x).getLast? = some c → isBlank c = false)
    (c : Char) (hc : x.getLast? = some c) : isBlank c = false :=
  hlast c (by rw [List.getLast?_append_of_ne_nil _ (by rintro rfl; cases hc), hc])

theorem ne_nil_of_blank {x : Text} (run : t ≠ []) (blank : ∀ c ∈ t, isBlank c = true)
    (hlast : ∀ c, (t ++ x).getLast? = some c → isBlank c = false) : x ≠ [] := by
  rintro rfl
  have hend := hlast (t.getLast run) (by simp [List.getLast?_eq_some_getLast run])
  rw [blank _ (getLast_mem run)] at hend
  cases hend

theorem Lexed.getLast?_tokens (h : Lexed x ts)
    (hlast : ∀ c, x.getLast? = some c → isBlank c = false) (t : Text) :
    ts.getLast? ≠ some (.space t) := by
  induction h with
  | nil => simp
  | @special c token x ts known unquoted rest ih =>
    cases ts with
    | nil =>
      rintro ⟨⟩
      cases isSpace_of_ofSpecial? known
    | cons next ts => exact ih (getLast?_of_append (t := [c]) hlast)
  | @space s x ts run blank whole longer rest ih =>
    cases ts with
    | nil =>
      cases rest
      exact absurd rfl (ne_nil_of_blank run blank hlast)
    | cons next ts => exact ih (getLast?_of_append hlast)
  | @chars s x ts body whole longer rest ih =>
    cases ts with
    | nil => rintro ⟨⟩
    | cons next ts => exact ih (getLast?_of_append hlast)

/-- Tokens that begin in the middle of a word. -/
def SpelledFrom (ts : List Token) : Prop :=
  ∃ word rest values, ts = word ++ rest ∧ (∀ t ∈ word, isPart t = true) ∧ Spelled rest values

theorem SpelledFrom.cons (hpart : isPart token = true) (h : SpelledFrom ts) :
    SpelledFrom (token :: ts) := by
  obtain ⟨word, rest, values, rfl, hword, hrest⟩ := h
  exact ⟨token :: word, rest, values, rfl, by simpa [hpart] using hword, hrest⟩

theorem SpelledFrom.space (h : SpelledFrom ts)
    (hhead : ∃ token, ts.head? = some token ∧ token.isSpace = false) (t : Text) :
    ∃ values, Spelled (.space t :: ts) values := by
  obtain ⟨word, rest, values, rfl, hword, hrest⟩ := h
  refine ⟨word.flatMap tokenValue :: values, .cons ?_ hword hrest⟩
  rintro rfl
  obtain ⟨token, htoken, hspace⟩ := hhead
  cases hrest with
  | nil => cases htoken
  | cons solid parts later =>
    cases htoken
    cases hspace

theorem Lexed.spelledFrom (h : Lexed x ts)
    (hparts : ∀ token ∈ ts, isPart token = true ∨ token.isSpace = true)
    (hlast : ∀ c, x.getLast? = some c → isBlank c = false) : SpelledFrom ts := by
  induction h with
  | nil => exact ⟨[], [], [], rfl, by simp, .nil⟩
  | @special c token x ts known unquoted rest ih =>
    have hpart : isPart token = true := by
      rcases hparts token mem_cons_self with h | h
      · exact h
      · rw [isSpace_of_ofSpecial? known] at h
        cases h
    exact (ih (fun t ht => hparts t (mem_cons_of_mem _ ht))
      (getLast?_of_append (t := [c]) hlast)).cons hpart
  | @space t x ts run blank whole longer rest ih =>
    obtain ⟨c, x, rfl⟩ := exists_cons_of_ne_nil (ne_nil_of_blank run blank hlast)
    have hfrom := ih (fun t ht => hparts t (mem_cons_of_mem _ ht)) (getLast?_of_append hlast)
    obtain ⟨values, hvalues⟩ := hfrom.space (rest.head?_tokens rfl (whole c rfl)) t
    exact ⟨[], _, values, rfl, by simp, hvalues⟩
  | @chars t x ts body whole longer rest ih =>
    exact (ih (fun t ht => hparts t (mem_cons_of_mem _ ht))
      (getLast?_of_append hlast)).cons rfl

/-- The words that tokens spell out are the fields of the text that they stand for, unless a word
holds a blank. -/
theorem Spelled.fields_eq (h : Spelled ts values)
    (hspace : ∀ t, .space t ∈ ts → t ≠ [] ∧ ∀ c ∈ t, isBlank c = true)
    (hpart : ∀ token ∈ ts, isPart token = true →
      tokenValue token ≠ [] ∧ ∀ c ∈ tokenValue token, isBlank c = false) :
    Text.fields isBlank (ts.flatMap tokenValue) = values := by
  induction h with
  | nil => rfl
  | @cons space word rest values solid parts later ih =>
    have hlater : ∀ c, (rest.flatMap tokenValue).head? = some c → isBlank c = true := by
      intro c hc
      cases later with
      | nil => cases hc
      | @cons space' word' rest' values' solid' parts' later' =>
        obtain ⟨hne, hblank⟩ := hspace space' (by simp)
        rw [flatMap_cons, tokenValue_space, List.head?_append_of_ne_nil _ hne] at hc
        exact hblank c (mem_of_mem_head? hc)
    obtain ⟨-, hblank⟩ := hspace space mem_cons_self
    have hword : ∀ t ∈ word, tokenValue t ≠ [] ∧ ∀ c ∈ tokenValue t, isBlank c = false :=
      fun t ht => hpart t (by simp [ht]) (parts t ht)
    have hvalue : word.flatMap tokenValue ≠ [] := by
      obtain ⟨t, word, rfl⟩ := exists_cons_of_ne_nil solid
      simp [(hword t mem_cons_self).1]
    rw [flatMap_cons, flatMap_append, tokenValue_space,
      Text.fields_append_left hblank, Text.fields_append_of_head? hvalue ?_ hlater,
      ih (fun t ht => hspace t (by simp [ht])) (fun t ht => hpart t (by simp [ht]))]
    intro c hc
    obtain ⟨t, ht, hc⟩ := mem_flatMap.mp hc
    exact (hword t ht).2 c hc

theorem fields_collapse {p : Char → Bool} (hp : p '\\' = false) (s : Text) :
    Text.fields p (collapse s) = (Text.fields p s).map collapse := by
  refine Text.fields_of_cut (fun a c b hc => ?_) (fun s hs => ?_) (fun s => collapse_eq_nil) s
  · have hne : c ≠ '\\' := by
      rintro rfl
      rw [hp] at hc
      cases hc
    rw [collapse_append (by simpa using hne), collapse_cons (.inl hne)]
  · have hfilter : (collapse s).filter p = [] := by
      rw [filter_collapse hp, filter_eq_nil_iff]
      simpa using hs
    simpa using filter_eq_nil_iff.mp hfilter

theorem Spelled.tab_mem (h : Spelled ts values) (hmem : .chars t ∈ ts)
    (htab : '\t' ∈ tokenValue (.chars t)) : ∃ value ∈ values, '\t' ∈ value := by
  induction h with
  | nil => cases hmem
  | @cons space word rest values solid parts later ih =>
    rw [mem_cons, mem_append] at hmem
    rcases hmem with hmem | hmem | hmem
    · cases hmem
    · exact ⟨_, mem_cons_self, mem_flatMap.mpr ⟨_, hmem, htab⟩⟩
    · obtain ⟨value, hvalue, htab⟩ := ih hmem
      exact ⟨value, mem_cons_of_mem _ hvalue, htab⟩

theorem Spelled.mem_cases (h : Spelled ts values) (hmem : token ∈ ts) :
    isPart token = true ∨ token.isSpace = true := by
  induction h with
  | nil => cases hmem
  | cons solid parts later ih =>
    rw [mem_cons, mem_append] at hmem
    rcases hmem with rfl | hmem | hmem
    · exact .inr rfl
    · exact .inl (parts token hmem)
    · exact ih hmem

end Reading

/-! ## Outputs whose words arrive -/

/-- An output that means nothing to the shell but its words. -/
structure Inert (out : Text) : Prop where
  /-- nothing joins commands or redirects them -/
  plain : ∀ c ∈ ['|', ';', '<', '>'], c ∉ out
  /-- no backslash stands before another -/
  single : ¬ ['\\', '\\'] <:+: out
  /-- tabs separate words -/
  tabs : tabsApart ' ' (Text.trim out) = true
  /-- only what separates words is trimmed -/
  ends : (Text.trim out).filter (!isBreak ·) = out.filter (!isBreak ·)

section Inert

variable {out : Text} {ts : List Token}

private theorem mem_of_ofSpecial? (h : ofSpecial? c = some token) :
    c ∈ ['|', ';', '-', '<', '>', '\x60', '"', '\''] :=
  mem_map_of_mem (f := Prod.fst) (mem_specials h)

theorem clean_iff (hplain : '\x60' ∉ out) :
    (∀ c ∈ ['|', ';', '<', '>'], c ∉ out) ↔
      ∀ c ∈ oneLine out, ∀ token, isQuote c = false → ofSpecial? c = some token → c = '-' := by
  constructor
  · intro h c hc token hquote hspecial
    have hcases : ∀ d ∈ ['|', ';', '-', '<', '>', '\x60', '"', '\''], isQuote d = false →
        Text.isSpace d = false ∧ (d ∈ ['|', ';', '<', '>'] ∨ d = '\x60' ∨ d = '-') := by
      simp [isQuote, Text.isSpace]
    obtain ⟨hspace, hd | rfl | rfl⟩ := hcases c (mem_of_ofSpecial? hspecial) hquote
    · exact absurd ((mem_oneLine hspace).mp hc) (h c hd)
    · exact absurd ((mem_oneLine hspace).mp hc) hplain
    · rfl
  · intro h c hc hout
    have hcases : ∀ d ∈ ['|', ';', '<', '>'], isQuote d = false ∧ Text.isSpace d = false ∧
        (ofSpecial? d).isSome = true ∧ d ≠ '-' := by
      simp only [forall_mem_cons, not_mem_nil, false_implies, implies_true]
      decide
    obtain ⟨hquote, hspace, hsome, hdash⟩ := hcases c hc
    obtain ⟨token, htoken⟩ := Option.isSome_iff_exists.mp hsome
    exact hdash (h c ((mem_oneLine hspace).mpr hout) token hquote htoken)

theorem parts_iff (hplain : '\x60' ∉ out) (h : Lexed (oneLine out) ts) :
    (∀ c ∈ ['|', ';', '<', '>'], c ∉ out) ↔
      ∀ token ∈ ts, isPart token = true ∨ token.isSpace = true := by
  rw [clean_iff hplain]
  constructor
  · intro hclean token hmem
    rcases h.mem_cases hmem with ⟨t, rfl, -⟩ | ⟨t, rfl, -⟩ | ⟨c, hc, hquote, hspecial⟩
    · exact .inr rfl
    · exact .inl rfl
    · obtain rfl := hclean c hc token hquote hspecial
      cases hspecial
      exact .inl rfl
  · intro hparts c hc token hquote hspecial
    have hmem := h.mem_of_special hc hquote hspecial
    rcases hparts token hmem with hpart | hspace
    · cases token with
      | chars t =>
        exact absurd (mem_specials hspecial) (by simp [specials])
      | dash => exact (singleton_inj.mp (ofSpecial?_text hspecial)).symm
      | _ => cases hpart
    · rw [isSpace_of_ofSpecial? hspecial] at hspace
      cases hspace

theorem unquoted_of_lexed (hplain : '\x60' ∉ out) (h : Lexed (oneLine out) ts) : Unquoted ts := by
  have hspecial : ∀ token ∈ ts, ∀ c, token.text = [c] → token.isSpace = false →
      isPart token = false → isQuote c = false ∧ c ∈ oneLine out := by
    intro token hmem c htext hspace hpart
    rcases h.mem_cases hmem with ⟨t, rfl, -⟩ | ⟨t, rfl, -⟩ | ⟨d, hd, hquote, hspecial⟩
    · cases hspace
    · cases hpart
    · obtain rfl := singleton_inj.mp ((ofSpecial?_text hspecial).symm.trans htext)
      exact ⟨hquote, hd⟩
  refine ⟨fun hmem => ?_, fun hmem => ?_, fun hmem => ?_⟩
  · exact hplain ((mem_oneLine (by decide)).mp (hspecial _ hmem '\x60' rfl rfl rfl).2)
  · cases (hspecial _ hmem '"' rfl rfl rfl).1
  · cases (hspecial _ hmem '\'' rfl rfl rfl).1

theorem Spelled.values_eq (h : Lexed (oneLine out) ts)
    (hspelled : Spelled (.space [' '] :: ts) values) (htab : ∀ t, .chars t ∈ ts → '\t' ∉ t) :
    values = (wordsOf (Text.trim out)).map collapse := by
  have hspace : ∀ t, .space t ∈ .space [' '] :: ts → t ≠ [] ∧ ∀ c ∈ t, isBlank c = true := by
    intro t hmem
    rcases mem_cons.mp hmem with ht | hmem
    · cases ht
      exact ⟨by simp, by simp [isBlank]⟩
    · rcases h.mem_cases hmem with ⟨s, hs, hrun⟩ | ⟨s, hs, -⟩ | ⟨c, -, -, hspecial⟩
      · cases hs
        exact hrun
      · cases hs
      · cases isSpace_of_ofSpecial? hspecial
  have hpart : ∀ token ∈ .space [' '] :: ts, isPart token = true →
      tokenValue token ≠ [] ∧ ∀ c ∈ tokenValue token, isBlank c = false := by
    intro token hmem hpart
    rcases mem_cons.mp hmem with rfl | hmem
    · cases hpart
    · rcases h.mem_cases hmem with ⟨t, rfl, -⟩ | ⟨t, rfl, hne, hbody⟩ | ⟨c, -, -, hspecial⟩
      · cases hpart
      · rw [tokenValue_chars]
        refine ⟨mt collapse_eq_nil.mp hne, fun c hc => ?_⟩
        by_contra hblank
        have hmem' : c ∈ (collapse t).filter isBlank := mem_filter.mpr ⟨hc, by simpa using hblank⟩
        rw [filter_collapse rfl, mem_filter] at hmem'
        have htab' : c ≠ '\t' := by
          rintro rfl
          exact htab _ hmem (tab_mem_escape.mpr hmem'.1)
        exact hblank (isBlank_of_isBody (hbody c hmem'.1) htab')
      · rw [Lexed.tokenValue_of_special hspecial]
        refine ⟨by simp, fun d hd => ?_⟩
        obtain rfl := mem_singleton.mp hd
        by_contra hblank
        rw [ofSpecial?_eq_none_of_isBlank (by simpa using hblank)] at hspecial
        cases hspecial
  have hblank : ∀ c ∈ [' '], isBlank c = true := by simp [isBlank]
  rw [← hspelled.fields_eq hspace hpart, flatMap_cons, tokenValue_space, h.flatMap_value,
    Text.fields_append_left hblank, fields_collapse rfl, fields_oneLine]

theorem map_collapse_iff : (wordsOf (Text.trim out)).map collapse = wordsOf out ↔
    ¬ ['\\', '\\'] <:+: out ∧
      (Text.trim out).filter (!isBreak ·) = out.filter (!isBreak ·) := by
  obtain ⟨a, b, hout, ha, hb⟩ := Text.exists_append_trim out
  have hwithin : Text.trim out <:+: out := ⟨a, b, hout.symm⟩
  constructor
  · intro h
    have hfilter : (collapse (Text.trim out)).filter (!isBreak ·) = out.filter (!isBreak ·) := by
      rw [← Text.flatten_fields, ← Text.flatten_fields, fields_collapse rfl]
      exact congrArg List.flatten h
    have hslash : ∀ s : Text, (∀ c ∈ s, Text.isSpace c = true) → ∀ c ∈ s, c ≠ '\\' := by
      rintro s hs c hc rfl
      cases hs _ hc
    have hcollapse : collapse out = a ++ (collapse (Text.trim out) ++ b) := by
      have hhead : b.head? ≠ some '\\' := fun hb' =>
        hslash b hb '\\' (mem_of_mem_head? hb') rfl
      have hback := collapse_append_of_ne (hslash b hb) []
      rw [append_nil] at hback
      have hnil : collapse [] = [] := rfl
      conv_lhs => rw [hout, append_assoc, collapse_append_of_ne (hslash a ha),
        collapse_append hhead, hback, hnil, append_nil]
    have hsub := (hwithin.sublist.filter (!isBreak ·)).length_le
    have htrim := (length_filter_collapse (p := (!isBreak ·)) rfl (Text.trim out)).1
    obtain ⟨hle, hpair⟩ := length_filter_collapse (p := (!isBreak ·)) rfl out
    rw [hfilter] at htrim
    refine ⟨hpair (Nat.le_antisymm hle ?_),
      (hwithin.sublist.filter _).eq_of_length (Nat.le_antisymm hsub htrim)⟩
    rw [← hfilter, hcollapse, filter_append, filter_append, length_append,
      length_append]
    omega
  · rintro ⟨hpair, hends⟩
    have hlength := congrArg List.length hends
    conv_rhs at hlength => rw [hout, filter_append, filter_append, length_append,
      length_append]
    have hbreak : ∀ s : Text, (s.filter (!isBreak ·)).length = 0 → ∀ c ∈ s, isBreak c = true := by
      intro s hs
      simpa using eq_nil_of_length_eq_zero hs
    have hwords : wordsOf out = wordsOf (Text.trim out) := by
      conv_lhs => rw [hout]
      exact (Text.fields_append_right (hbreak b (by omega)) _).trans
        (Text.fields_append_left (hbreak a (by omega)) _)
    rw [hwords]
    conv_rhs => rw [← map_id (wordsOf (Text.trim out))]
    refine map_congr_left fun word hword => collapse_eq_self fun hword' => hpair ?_
    exact (hword'.trans (Text.infix_of_mem_fields hword)).trans hwithin

theorem isBlank_of_isSpace (h : Text.isSpace c = false) : isBlank c = false := by
  by_contra hblank
  simp only [isBlank, Bool.not_eq_false, Bool.or_eq_true, decide_eq_true_eq] at hblank
  rcases hblank with rfl | rfl <;> cases h

private theorem exists_lexed (hreturn : '\r' ∉ out) (h : Text.trim out ≠ []) :
    ∃ ts, Lexed (oneLine out) ts ∧ Token.ofLine ("echo ".toList ++ splice out) =
      .chars "echo".toList :: .space [' '] :: ts := by
  obtain ⟨ts, hts⟩ := Lexed.exists_of_isLineBreak (oneLine out) fun c =>
    isLineBreak_of_mem_oneLine hreturn
  obtain ⟨⟨c, hhead, hc⟩, -⟩ := trimmed_oneLine h
  have hspace : Lexed ([' '] ++ oneLine out) (.space [' '] :: ts) :=
    .space (by simp) (by simp [isBlank]) (by simpa [hhead] using isBlank_of_isSpace hc) (by simp) hts
  have hline : Lexed ("echo".toList ++ ([' '] ++ oneLine out))
      (.chars (escape "echo".toList) :: .space [' '] :: ts) :=
    .chars (all_eq_true.mp (by decide)) (by simp [isBody, isPlain, isQuote])
      ⟨'e', by decide, by decide⟩ hspace
  have hescape : "echo ".toList ++ splice out =
      escape ("echo".toList ++ ([' '] ++ oneLine out)) := by
    rw [splice_eq h, escape, mark_append, mark_append]
    rfl
  exact ⟨ts, hts, by rw [hescape, hline.ofLine_eq]; rfl⟩

theorem tabs_iff (hplain : ∀ c ∈ ['|', ';', '<', '>'], c ∉ out) (hback : '\x60' ∉ out)
    (hreturn : '\r' ∉ out) (h : Text.trim out ≠ []) (hlexed : Lexed (oneLine out) ts) :
    (∀ t, .chars t ∈ ts → '\t' ∉ t) ↔ tabsApart ' ' (Text.trim out) = true := by
  obtain ⟨⟨c, hhead, hc⟩, -⟩ := trimmed_oneLine h
  have htab : (oneLine out).head? ≠ some '\t' := by
    rw [hhead]
    rintro ⟨⟩
    cases hc
  rw [← tabsApart_oneLine, tabsApart_congr htab ' ' '-']
  exact hlexed.tabsApart_iff ((clean_iff hback).mp hplain) fun c => isLineBreak_of_mem_oneLine hreturn

/-- A line that puts an output after `echo` is read as an `echo` of the words of the output exactly
when the output is inert. -/
theorem echoes_iff (hback : '\x60' ∉ out) (hreturn : '\r' ∉ out) (h : Text.trim out ≠ []) :
    (∃ script, Script.ofLine? ("echo ".toList ++ splice out) = some script ∧
      script.Echoes (wordsOf out)) ↔ Inert out := by
  obtain ⟨ts, hlexed, htokens⟩ := exists_lexed hreturn h
  obtain ⟨⟨c, hhead, hc⟩, d, hlast, hd⟩ := trimmed_oneLine h
  have hend : ∀ c, (oneLine out).getLast? = some c → isBlank c = false := by
    simpa [hlast] using isBlank_of_isSpace hd
  obtain ⟨token, hfirst, hsolid⟩ := hlexed.head?_tokens hhead (isBlank_of_isSpace hc)
  have hq : Unquoted (Token.ofLine ("echo ".toList ++ splice out)) := by
    obtain ⟨hback, hdouble, hsingle⟩ := unquoted_of_lexed hback hlexed
    rw [htokens]
    exact ⟨by simpa using hback, by simpa using hdouble, by simpa using hsingle⟩
  have hfinal : ∀ t, (Token.ofLine ("echo ".toList ++ splice out)).getLast? ≠ some (.space t) := by
    obtain ⟨ts, rfl⟩ := List.head?_eq_some_iff.mp hfirst
    rw [htokens, List.getLast?_cons_cons, List.getLast?_cons_cons]
    exact hlexed.getLast?_tokens hend
  constructor
  · rintro ⟨script, hread, hechoes⟩
    have hspelled := hechoes.spelled hread htokens hq hfinal
    have hplain := (parts_iff hback hlexed).mpr fun token hmem =>
      hspelled.mem_cases (mem_cons_of_mem _ hmem)
    -- the words have no tabs in them, so neither have the tokens
    have htab : ∀ t, .chars t ∈ ts → '\t' ∉ t := by
      intro t hmem htab
      have hvalue : '\t' ∈ tokenValue (.chars t) := by
        rcases hlexed.mem_cases hmem with ⟨s, hs, -⟩ | ⟨s, hs, -⟩ | ⟨c, -, -, hspecial⟩
        · cases hs
        · cases hs
          have hfilter : '\t' ∈ s.filter (· = '\t') :=
            mem_filter.mpr ⟨tab_mem_escape.mp htab, rfl⟩
          rw [← filter_collapse (by decide)] at hfilter
          exact tokenValue_chars s ▸ mem_of_mem_filter hfilter
        · exact absurd (mem_specials hspecial) (by simp [specials])
      obtain ⟨value, hmem, htab⟩ := hspelled.tab_mem (mem_cons_of_mem _ hmem) hvalue
      cases Text.sep_of_mem_fields hmem htab
    obtain ⟨hsingle, hends⟩ := map_collapse_iff.mp (hspelled.values_eq hlexed htab).symm
    exact ⟨hplain, hsingle, (tabs_iff hplain hback hreturn h hlexed).mp htab, hends⟩
  · intro hinert
    have hparts := (parts_iff hback hlexed).mp hinert.plain
    obtain ⟨values, hvalues⟩ := (hlexed.spelledFrom hparts hend).space ⟨token, hfirst, hsolid⟩ [' ']
    have hecho : isPart (.chars "echo".toList) = true := rfl
    obtain ⟨script, hread, hsome⟩ := hvalues.exists_script hecho
    rw [← htokens] at hread
    have hnot : ∀ token, isPart token = false → token.isSpace = false →
        token ∉ Token.ofLine ("echo ".toList ++ splice out) := by
      intro token hpart hspace hmem
      rw [htokens, mem_cons, mem_cons] at hmem
      rcases hmem with rfl | rfl | hmem
      · cases hpart
      · cases hspace
      · simpa [hpart, hspace] using hparts token hmem
    obtain ⟨words, hechoes⟩ := Script.exists_echoes hread hsome htokens rfl hq
      (hnot _ rfl rfl) (hnot _ rfl rfl) (hnot _ rfl rfl) (hnot _ rfl rfl)
    have hwords := (hechoes.spelled hread htokens hq hfinal).values_eq hlexed
      ((tabs_iff hinert.plain hback hreturn h hlexed).mpr hinert.tabs)
    rw [map_collapse_iff.mpr ⟨hinert.single, hinert.ends⟩] at hwords
    exact ⟨script, hread, hwords ▸ hechoes⟩

end Inert

end CommandShell.Line

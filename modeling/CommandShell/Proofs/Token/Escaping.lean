import CommandShell.Line.Meaning
import CommandShell.Proofs.Token.Lexing

/-!
# Escaped text

A text with a backslash before each of its quotes, and the tokens of such a text. `Lexed` relates a
text to the tokens of its escaped form: quotes belong to the words around them, and all that the
backslashes of the text itself lose is one of two that stand side by side.
-/

namespace CommandShell.Line

open Token List

def mark (p : Char → Bool) (s : Text) : Text := s.flatMap fun c => if p c then ['\\', c] else [c]

@[simp] theorem mark_nil (p : Char → Bool) : mark p [] = [] := rfl

variable {c : Char} {p : Char → Bool} {s t x : Text} {token : Token} {ts : List Token}

theorem mark_cons_of_pos (h : p c = true) (s : Text) : mark p (c :: s) = '\\' :: c :: mark p s := by
  simp [mark, h]

theorem mark_cons_of_neg (h : p c = false) (s : Text) : mark p (c :: s) = c :: mark p s := by
  simp [mark, h]

@[simp] theorem mark_append (p : Char → Bool) (s t : Text) : mark p
    (s ++ t) = mark p s ++ mark p t :=
  flatMap_append

theorem mark_of_neg (h : ∀ c ∈ s, p c = false) : mark p s = s := by
  induction s with
  | nil => rfl
  | cons c s ih =>
    rw [mark_cons_of_neg (h c mem_cons_self),
      ih fun d hd => h d (mem_cons_of_mem c hd)]

theorem head?_mark (hp : p '\\' = false) {q : Char} (hq : p q = true) (s : Text) :
    (mark p s).head? ≠ some q := by
  cases s with
  | nil => simp
  | cons c s =>
    cases hc : p c with
    | true =>
      rw [mark_cons_of_pos hc, List.head?_cons]
      rintro ⟨⟩
      rw [hp] at hq
      cases hq
    | false =>
      rw [mark_cons_of_neg hc, List.head?_cons]
      rintro ⟨⟩
      rw [hc] at hq
      cases hq

theorem length_mark (p : Char → Bool) (s : Text) :
    (mark p s).length = s.length + s.countP p := by
  induction s with
  | nil => rfl
  | cons c s ih =>
    cases hc : p c with
    | true => rw [mark_cons_of_pos hc]; simp [ih, hc]; omega
    | false => rw [mark_cons_of_neg hc]; simp [ih, hc]; omega

theorem length_le_mark (p : Char → Bool) (s : Text) : s.length ≤ (mark p s).length :=
  length_mark p s ▸ Nat.le_add_right ..

def isQuote (c : Char) : Bool := c = '"' || c = '\''

def escape : Text → Text := mark isQuote

theorem mem_escape (h : c ∈ escape s) : c = '\\' ∨ c ∈ s := by
  obtain ⟨d, hd, hmem⟩ := mem_flatMap.mp h
  split_ifs at hmem
  · rcases mem_cons.mp hmem with rfl | hmem
    · exact .inl rfl
    · exact .inr (mem_singleton.mp hmem ▸ hd)
  · exact .inr (mem_singleton.mp hmem ▸ hd)

/-! ## Backslashes -/

def collapse : Text → Text := Text.replacePair '\\' '\\' '\\'

theorem replacePair_cons {a b d : Char} (h : c ≠ a ∨ s.head? ≠ some b) :
    Text.replacePair a b d (c :: s) = c :: Text.replacePair a b d s := by
  cases s with
  | nil => rfl
  | cons x s =>
    rw [Text.replacePair, if_neg]
    rintro ⟨rfl, rfl⟩
    simp at h

theorem replacePair_mark {p' : Char → Bool} {q : Char} (hp : p '\\' = false) (hq : p q = true)
    (hq' : p' q = false) (h : ∀ c, c ≠ q → p c = p' c) (s : Text) :
    Text.replacePair '\\' q q (mark p s) = mark p' s := by
  have hne : ∀ c, p c = true → c ≠ '\\' := by
    rintro c hc rfl
    rw [hp] at hc
    cases hc
  induction s with
  | nil => rfl
  | cons c s ih =>
    by_cases hcq : c = q
    · subst hcq
      rw [mark_cons_of_pos hq, mark_cons_of_neg hq', Text.replacePair, if_pos ⟨rfl, rfl⟩, ih]
    · have hpc := h c hcq
      cases hc : p c with
      | true =>
        rw [mark_cons_of_pos hc, mark_cons_of_pos (hpc.symm.trans hc),
          replacePair_cons (.inr (by simpa using hcq)), replacePair_cons (.inl (hne c hc)), ih]
      | false =>
        rw [mark_cons_of_neg hc, mark_cons_of_neg (hpc.symm.trans hc),
          replacePair_cons (.inr (head?_mark hp hq s)), ih]

@[simp] theorem unescape_escape (s : Text) : unescape (escape s) = collapse s := by
  have hsingle : Text.replacePair '\\' '\'' '\'' (escape s) = mark (fun c => c = '"') s :=
    replacePair_mark rfl rfl rfl (fun c hc => by simp [isQuote, hc]) s
  have hdouble : Text.replacePair '\\' '"' '"' (mark (fun c => c = '"') s) =
      mark (fun _ => false) s :=
    replacePair_mark rfl rfl rfl (fun c hc => by simp [hc]) s
  unfold unescape collapse
  rw [hsingle, hdouble, mark_of_neg fun _ _ => rfl]

theorem collapse_cons (h : c ≠ '\\' ∨ s.head? ≠ some '\\') : collapse (c :: s) = c :: collapse s :=
  replacePair_cons h

theorem collapse_append (h : t.head? ≠ some '\\') :
    collapse (s ++ t) = collapse s ++ collapse t := by
  unfold collapse
  fun_induction Text.replacePair '\\' '\\' '\\' s with
  | case1 x y rest hxy ih =>
    obtain ⟨rfl, rfl⟩ := hxy
    simp [Text.replacePair, ih]
  | case2 x y rest hxy ih =>
    rw [cons_append, cons_append, replacePair_cons, ← cons_append, ih,
      cons_append]
    simpa [Classical.or_iff_not_imp_left] using hxy
  | case3 rest hrest =>
    match rest, hrest with
    | [], _ => rfl
    | [x], _ => exact replacePair_cons (.inr h)
    | x :: y :: rest, hrest => exact absurd rfl (hrest x y rest)

theorem collapse_append_of_ne (h : ∀ c ∈ s, c ≠ '\\') (t : Text) :
    collapse (s ++ t) = s ++ collapse t := by
  induction s with
  | nil => rfl
  | cons c s ih =>
    rw [cons_append, collapse_cons (.inl (h c mem_cons_self)),
      ih fun d hd => h d (mem_cons_of_mem c hd), cons_append]

theorem pair_infix_cons {x y : Char} (h : ¬ (x = '\\' ∧ y = '\\')) :
    ['\\', '\\'] <:+: x :: y :: s ↔ ['\\', '\\'] <:+: y :: s := by
  rw [infix_cons_iff, cons_prefix_cons, cons_prefix_cons]
  constructor
  · rintro (⟨hx, hy, -⟩ | hs)
    · exact absurd ⟨hx.symm, hy.symm⟩ h
    · exact hs
  · exact .inr

theorem length_filter_collapse (hp : p '\\' = true) (s : Text) :
    ((collapse s).filter p).length ≤ (s.filter p).length ∧
      (((collapse s).filter p).length = (s.filter p).length → ¬ ['\\', '\\'] <:+: s) := by
  unfold collapse
  fun_induction Text.replacePair '\\' '\\' '\\' s with
  | case1 x y rest hxy ih =>
    obtain ⟨rfl, rfl⟩ := hxy
    simp only [filter_cons, hp, if_true, length_cons]
    exact ⟨by omega, by omega⟩
  | case2 x y rest hxy ih =>
    rw [pair_infix_cons hxy, filter_cons, filter_cons]
    split
    · simp only [length_cons]
      exact ⟨by omega, fun h => ih.2 (by omega)⟩
    · exact ih
  | case3 rest hrest =>
    refine ⟨Nat.le_refl _, fun _ h => ?_⟩
    match rest, hrest with
    | [], _ => simp at h
    | [x], _ => simpa using h.length_le
    | x :: y :: rest, hrest => exact absurd rfl (hrest x y rest)

theorem filter_collapse (hp : p '\\' = false) (s : Text) : (collapse s).filter p = s.filter p := by
  unfold collapse
  fun_induction Text.replacePair '\\' '\\' '\\' s with
  | case1 x y rest hxy ih =>
    obtain ⟨rfl, rfl⟩ := hxy
    rw [filter_cons_of_neg (by simp [hp]), ih, filter_cons_of_neg (by simp [hp]),
      filter_cons_of_neg (by simp [hp])]
  | case2 x y rest hxy ih => rw [filter_cons, ih, ← filter_cons]
  | case3 rest hrest => rfl

@[simp] theorem collapse_eq_nil : collapse s = [] ↔ s = [] := by
  unfold collapse
  fun_cases Text.replacePair '\\' '\\' '\\' s <;> simp

theorem collapse_eq_self (h : ¬ ['\\', '\\'] <:+: s) : collapse s = s := by
  unfold collapse
  fun_induction Text.replacePair '\\' '\\' '\\' s with
  | case1 x y rest hxy ih =>
    obtain ⟨rfl, rfl⟩ := hxy
    exact absurd (prefix_append ['\\', '\\'] rest).isInfix h
  | case2 x y rest hxy ih =>
    rw [pair_infix_cons hxy] at h
    rw [ih h]
  | case3 rest hrest => rfl

/-! ## Tokens -/

/-- The characters that words are made of. -/
def isBody (c : Char) : Bool := isPlain c || isQuote c

theorem isQuote_of_isBlank (h : isBlank c = true) : isQuote c = false := by
  simp only [isBlank, Bool.or_eq_true, decide_eq_true_eq] at h
  rcases h with rfl | rfl <;> rfl

theorem takeWhile_escape (s : Text) : (escape s).takeWhile isBlank = s.takeWhile isBlank := by
  induction s with
  | nil => rfl
  | cons c s ih =>
    unfold escape at ih ⊢
    cases hc : isBlank c with
    | true =>
      rw [mark_cons_of_neg (isQuote_of_isBlank hc), takeWhile_cons_of_pos hc,
        takeWhile_cons_of_pos hc, ih]
    | false =>
      rw [takeWhile_cons_of_neg (by simp [hc])]
      cases hq : isQuote c with
      | true => rw [mark_cons_of_pos hq]; rfl
      | false => rw [mark_cons_of_neg hq, takeWhile_cons_of_neg (by simp [hc])]

theorem charsLength_escape (s : Text) :
    charsLength (escape s) = (escape (s.takeWhile isBody)).length := by
  induction s with
  | nil => rfl
  | cons c s ih =>
    unfold escape at ih ⊢
    cases hq : isQuote c with
    | true =>
      rw [takeWhile_cons_of_pos (by simp [isBody, hq]), mark_cons_of_pos hq,
        mark_cons_of_pos hq]
      simp only [isQuote, Bool.or_eq_true, decide_eq_true_eq] at hq
      rcases hq with rfl | rfl
      · simp only [charsLength, ih, length_cons]
      · simp only [charsLength, ih, length_cons]
    | false =>
      rw [mark_cons_of_neg hq, charsLength_cons (fun _ => head?_mark rfl rfl s)
        (fun _ => head?_mark rfl rfl s)]
      cases hc : isPlain c with
      | true =>
        rw [takeWhile_cons_of_pos (by simp [isBody, hc]), mark_cons_of_neg hq,
          if_pos rfl, ih, length_cons]
      | false =>
        rw [takeWhile_cons_of_neg (by simp [isBody, hc, hq])]
        rfl

/-- A text and the tokens of its escaped form. Blanks and what words are made of come in runs that
are as long as possible; tabs can be part of either, and the longer run takes them. -/
inductive Lexed : Text → List Token → Prop where
  | nil : Lexed [] []
  | special {c : Char} {token : Token} {x : Text} {ts : List Token}
      (known : ofSpecial? c = some token) (unquoted : isQuote c = false) (rest : Lexed x ts) :
      Lexed (c :: x) (token :: ts)
  | space {t x : Text} {ts : List Token} (run : t ≠ []) (blank : ∀ c ∈ t, isBlank c = true)
      (whole : ∀ c, x.head? = some c → isBlank c = false)
      (longer : (∀ c ∈ t, c = '\t') → ∀ c, x.head? = some c → isBody c = false)
      (rest : Lexed x ts) : Lexed (t ++ x) (.space t :: ts)
  | chars {t x : Text} {ts : List Token} (body : ∀ c ∈ t, isBody c = true)
      (whole : ∀ c, x.head? = some c → isBody c = false) (longer : ∃ c ∈ t, c ≠ '\t')
      (rest : Lexed x ts) : Lexed (t ++ x) (.chars (escape t) :: ts)

theorem takeWhile_append_of_head? (ht : ∀ c ∈ t, p c = true)
    (hx : ∀ c, x.head? = some c → p c = false) : (t ++ x).takeWhile p = t := by
  rw [takeWhile_append_of_pos ht]
  cases x with
  | nil => simp
  | cons c x => rw [takeWhile_cons_of_neg (by simp [hx c rfl]), append_nil]

theorem isLineBreak_of_ofSpecial? (h : ofSpecial? c = some token) : isLineBreak c = false := by
  simp only [isLineBreak, Bool.or_eq_false_iff, decide_eq_false_iff_not]
  constructor <;> rintro rfl <;> cases h

theorem isBlank_of_isBody (h : isBody c = true) (hc : c ≠ '\t') : isBlank c = false := by
  simp only [isBlank, hc, decide_false, Bool.or_false, decide_eq_false_iff_not]
  rintro rfl
  cases h

def tokenValue : Token → Text
  | .chars t => unescape t
  | token => token.text

@[simp] theorem tokenValue_space (t : Text) : tokenValue (.space t) = t := rfl

theorem tokenValue_chars (t : Text) : tokenValue (.chars (escape t)) = collapse t :=
  unescape_escape t

namespace Lexed

theorem escape_blank (blank : ∀ c ∈ t, isBlank c = true) : escape t = t :=
  mark_of_neg fun c hc => isQuote_of_isBlank (blank c hc)

theorem length_takeWhile_lt (h : ∃ c ∈ t, p c = false) (x : Text) :
    (t ++ x).takeWhile p = t.takeWhile p ∧ (t.takeWhile p).length < t.length := by
  have hlt : (t.takeWhile p).length < t.length := by
    refine Nat.lt_of_le_of_ne ( takeWhile_prefix p).length_le fun heq => ?_
    obtain ⟨c, hc, hpc⟩ := h
    have hall := takeWhile_eq_self_iff.mp (( takeWhile_prefix p).eq_of_length heq) c hc
    rw [hpc] at hall
    cases hall
  exact ⟨by rw [takeWhile_append, if_neg (Nat.ne_of_lt hlt)], hlt⟩

private theorem charsLength_le_of_blank (blank : ∀ c ∈ t, isBlank c = true)
    (longer : (∀ c ∈ t, c = '\t') → ∀ c, x.head? = some c → isBody c = false) :
    charsLength (escape (t ++ x)) ≤ t.length := by
  rw [charsLength_escape]
  by_cases htabs : ∀ c ∈ t, c = '\t'
  · have hbody : ∀ c ∈ t, isBody c = true := fun c hc => htabs c hc ▸ rfl
    rw [takeWhile_append_of_head? hbody (longer htabs), escape_blank blank]
  · have hspace : ∃ c ∈ t, isBody c = false := by
      simp only [not_forall] at htabs
      obtain ⟨c, hc, htab⟩ := htabs
      refine ⟨c, hc, Bool.eq_false_iff.mpr fun hbody => ?_⟩
      have hblank := isBlank_of_isBody hbody htab
      rw [blank c hc] at hblank
      cases hblank
    obtain ⟨htake, hlt⟩ := length_takeWhile_lt hspace x
    rw [htake, escape_blank fun c hc => blank c (( takeWhile_prefix isBody).subset hc)]
    omega

theorem ofLine_space (run : t ≠ []) (blank : ∀ c ∈ t, isBlank c = true)
    (whole : ∀ c, x.head? = some c → isBlank c = false)
    (longer : (∀ c ∈ t, c = '\t') → ∀ c, x.head? = some c → isBody c = false) :
    ofLine (escape (t ++ x)) = .space t :: ofLine (escape x) := by
  have htake : (escape (t ++ x)).takeWhile isBlank = t := by
    rw [takeWhile_escape, takeWhile_append_of_head? blank whole]
  have hdrop : (escape (t ++ x)).dropWhile isBlank = escape x := by
    have hsplit := takeWhile_append_dropWhile (p := isBlank) (l := escape (t ++ x))
    have happend : escape (t ++ x) = t ++ escape x := by
      rw [escape, mark_append, ← escape, escape_blank blank]
    rw [htake] at hsplit
    exact append_cancel_left (hsplit.trans happend)
  have hle : charsLength (escape (t ++ x)) ≤ spaceLength (escape (t ++ x)) := by
    rw [spaceLength, htake]
    exact charsLength_le_of_blank blank longer
  rw [ofLine_of_blank (by rwa [htake]) hle, htake, hdrop]

private theorem head_escape (h : isBody c = true) (s : Text) :
    ∃ d rest, escape (c :: s) = d :: rest ∧ isPlain d = true := by
  cases hq : isQuote c with
  | true => exact ⟨'\\', c :: escape s, mark_cons_of_pos hq s, rfl⟩
  | false => exact ⟨c, escape s, mark_cons_of_neg hq s, by simpa [isBody, hq] using h⟩

private theorem ofLine_chars (body : ∀ c ∈ t, isBody c = true)
    (whole : ∀ c, x.head? = some c → isBody c = false) (longer : ∃ c ∈ t, c ≠ '\t') :
    ofLine (escape (t ++ x)) = .chars (escape t) :: ofLine (escape x) := by
  have hlength : charsLength (escape (t ++ x)) = (escape t).length := by
    rw [charsLength_escape, takeWhile_append_of_head? body whole]
  have hspace : spaceLength (escape (t ++ x)) < (escape t).length := by
    obtain ⟨c, hc, htab⟩ := longer
    obtain ⟨htake, hlt⟩ := length_takeWhile_lt ⟨c, hc, isBlank_of_isBody (body c hc) htab⟩ x
    rw [spaceLength, takeWhile_escape, htake]
    exact Nat.lt_of_lt_of_le hlt (length_le_mark isQuote t)
  have happend : escape (t ++ x) = escape t ++ escape x := mark_append isQuote t x
  obtain ⟨d, rest, hcons, hplain⟩ : ∃ d rest, escape (t ++ x) = d :: rest ∧ isPlain d = true := by
    obtain ⟨c, hc, -⟩ := longer
    cases t with
    | nil => cases hc
    | cons c t => exact head_escape (body c mem_cons_self) (t ++ x)
  simp only [isPlain, Bool.and_eq_true, Bool.not_eq_true', Option.isNone_iff_eq_none] at hplain
  rw [hcons] at hlength hspace ⊢
  have hpos : 0 < (escape t).length := by omega
  rw [ofLine_cons, munch_chars hplain.1.2 hplain.2 (by omega), hlength, drop_pred d rest hpos,
    ← hcons, happend, take_left, drop_left]
  rfl

theorem ofLine_eq (h : Lexed x ts) : ofLine (escape x) = ts := by
  induction h with
  | nil => exact ofLine_nil
  | special known unquoted rest ih =>
    rw [escape, mark_cons_of_neg unquoted, ofLine_cons,
      munch_special _ (isLineBreak_of_ofSpecial? known) known]
    exact congrArg (_ :: ·) ih
  | space run blank whole longer rest ih => rw [ofLine_space run blank whole longer, ih]
  | chars body whole longer rest ih => rw [ofLine_chars body whole longer, ih]

theorem head?_dropWhile (s : Text) (c : Char) (h : (s.dropWhile p).head? = some c) :
    p c = false := by
  have hnot := List.head?_dropWhile_not p s
  rw [h] at hnot
  exact hnot

/-- Every text without line breaks is cut into such runs. -/
theorem exists_of_isLineBreak (x : Text) (h : ∀ c ∈ x, isLineBreak c = false) :
    ∃ ts, Lexed x ts := by
  induction hn : x.length using Nat.strongRecOn generalizing x with
  | _ n ih =>
    cases x with
    | nil => exact ⟨[], .nil⟩
    | cons c rest =>
      -- what is left after a run is shorter, so it can be cut
      have hlater : ∀ p : Char → Bool, p c = true →
          ∃ ts, Lexed ((c :: rest).dropWhile p) ts := by
        intro p hp
        rw [dropWhile_cons_of_pos hp]
        have hle := (dropWhile_suffix p (l := rest)).length_le
        simp only [length_cons] at hn
        exact ih _ (by omega) _ (fun d hd => h d (mem_cons_of_mem c
          ((dropWhile_suffix p).subset hd))) rfl
      have hchars : isBody c = true → (∃ d ∈ (c :: rest).takeWhile isBody, d ≠ '\t') →
          ∃ ts, Lexed (c :: rest) ts := by
        intro hbody hlonger
        obtain ⟨ts, hts⟩ := hlater isBody hbody
        refine ⟨.chars (escape ((c :: rest).takeWhile isBody)) :: ts, ?_⟩
        have hlexed := Lexed.chars (fun d hd => mem_takeWhile_imp hd)
          (head?_dropWhile (c :: rest)) hlonger hts
        rwa [takeWhile_append_dropWhile] at hlexed
      have hspace : isBlank c = true → ((∀ d ∈ (c :: rest).takeWhile isBlank, d = '\t') →
          ∀ d, ((c :: rest).dropWhile isBlank).head? = some d → isBody d = false) →
          ∃ ts, Lexed (c :: rest) ts := by
        intro hblank hlonger
        obtain ⟨ts, hts⟩ := hlater isBlank hblank
        refine ⟨.space ((c :: rest).takeWhile isBlank) :: ts, ?_⟩
        have hrun : (c :: rest).takeWhile isBlank ≠ [] := by
          simp [takeWhile_cons_of_pos hblank]
        have hlexed := Lexed.space hrun (fun d hd => mem_takeWhile_imp hd)
          (head?_dropWhile (c :: rest)) hlonger hts
        rwa [takeWhile_append_dropWhile] at hlexed
      cases hblank : isBlank c with
      | true =>
        by_cases hlonger : (∀ d ∈ (c :: rest).takeWhile isBlank, d = '\t') →
            ∀ d, ((c :: rest).dropWhile isBlank).head? = some d → isBody d = false
        · exact hspace hblank hlonger
        · simp only [Classical.not_imp, not_forall, Bool.not_eq_false] at hlonger
          obtain ⟨htabs, d, hd, hbody⟩ := hlonger
          have hc : c = '\t' := htabs c (by simp [takeWhile_cons_of_pos hblank])
          refine hchars (hc ▸ rfl) ⟨d, ?_, ?_⟩
          · rw [← takeWhile_append_dropWhile (p := isBlank) (l := c :: rest),
              takeWhile_append_of_pos fun e he => htabs e he ▸ rfl]
            obtain ⟨later, hlater⟩ := List.head?_eq_some_iff.mp hd
            simp [hlater, takeWhile_cons_of_pos hbody]
          · rintro rfl
            cases head?_dropWhile _ _ hd
      | false =>
        have htab : c ≠ '\t' := by
          rintro rfl
          cases hblank
        have hmem : isBody c = true → ∃ ts, Lexed (c :: rest) ts := fun hbody =>
          hchars hbody ⟨c, by simp [takeWhile_cons_of_pos hbody], htab⟩
        cases hspecial : ofSpecial? c with
        | none =>
          rcases isBlank_or_isPlain (h c mem_cons_self) hspecial with hc | hc
          · rw [hblank] at hc
            cases hc
          · exact hmem (by simp [isBody, hc])
        | some token =>
          cases hquote : isQuote c with
          | true => exact hmem (by simp [isBody, hquote])
          | false =>
            simp only [length_cons] at hn
            obtain ⟨ts, hts⟩ := ih rest.length (by omega) rest
              (fun d hd => h d (mem_cons_of_mem c hd)) rfl
            exact ⟨token :: ts, .special hspecial hquote hts⟩

theorem mem_cases (h : Lexed x ts) (hmem : token ∈ ts) :
    (∃ t, token = .space t ∧ t ≠ [] ∧ ∀ c ∈ t, isBlank c = true) ∨
      (∃ t, token = .chars (escape t) ∧ t ≠ [] ∧ ∀ c ∈ t, isBody c = true) ∨
      ∃ c ∈ x, isQuote c = false ∧ ofSpecial? c = some token := by
  induction h with
  | nil => cases hmem
  | @special c first x ts known unquoted rest ih =>
    rcases mem_cons.mp hmem with rfl | hmem
    · exact .inr (.inr ⟨c, mem_cons_self, unquoted, known⟩)
    · exact (ih hmem).imp_right (.imp_right fun ⟨d, hd, h⟩ => ⟨d, mem_cons_of_mem c hd, h⟩)
  | @space t x ts run blank whole longer rest ih =>
    rcases mem_cons.mp hmem with rfl | hmem
    · exact .inl ⟨t, rfl, run, blank⟩
    · exact (ih hmem).imp_right (.imp_right fun ⟨d, hd, h⟩ => ⟨d, mem_append_right t hd, h⟩)
  | @chars t x ts body whole longer rest ih =>
    rcases mem_cons.mp hmem with rfl | hmem
    · obtain ⟨c, hc, -⟩ := longer
      exact .inr (.inl ⟨t, rfl, ne_nil_of_mem hc, body⟩)
    · exact (ih hmem).imp_right (.imp_right fun ⟨d, hd, h⟩ => ⟨d, mem_append_right t hd, h⟩)

theorem mem_of_special (h : Lexed x ts) (hmem : c ∈ x) (hquote : isQuote c = false)
    (hc : ofSpecial? c = some token) : token ∈ ts := by
  induction h with
  | nil => cases hmem
  | special known unquoted rest ih =>
    rcases mem_cons.mp hmem with rfl | hmem
    · rw [hc] at known
      cases known
      exact mem_cons_self
    · exact mem_cons_of_mem _ (ih hmem)
  | space run blank whole longer rest ih =>
    rcases mem_append.mp hmem with hmem | hmem
    · rw [ofSpecial?_eq_none_of_isBlank (blank c hmem)] at hc
      cases hc
    · exact mem_cons_of_mem _ (ih hmem)
  | chars body whole longer rest ih =>
    rcases mem_append.mp hmem with hmem | hmem
    · have hbody := body c hmem
      simp [isBody, isPlain, hquote, hc] at hbody
    · exact mem_cons_of_mem _ (ih hmem)

theorem tokenValue_of_special (h : ofSpecial? c = some token) : tokenValue token = [c] := by
  have hall : ∀ special ∈ specials, tokenValue special.2 = [special.1] := by decide
  exact hall _ (mem_specials h)

theorem flatMap_value (h : Lexed x ts) : ts.flatMap tokenValue = collapse x := by
  induction h with
  | nil => rfl
  | @special c token x ts known unquoted rest ih =>
    have hc : c ≠ '\\' := by
      rintro rfl
      cases known
    rw [flatMap_cons, ih, collapse_cons (.inl hc), tokenValue_of_special known]
    rfl
  | @space t x ts run blank whole longer rest ih =>
    rw [flatMap_cons, ih, collapse_append_of_ne]
    · rfl
    · intro c hc
      rintro rfl
      cases blank _ hc
  | @chars t x ts body whole longer rest ih =>
    have hhead : x.head? ≠ some '\\' := fun hx => by cases whole '\\' hx
    rw [flatMap_cons, ih, collapse_append hhead]
    rw [tokenValue_chars]

end Lexed

/-! ## Tabs -/

/-- Blanks and line ends. -/
def isGap (c : Char) : Bool := c = ' ' || c = '\n'

/-- Whether tabs that come before a text are at an edge: at its end, or before a gap or a dash. -/
def atEdge (s : Text) : Bool :=
  match s.dropWhile (· = '\t') with
  | [] => true
  | c :: _ => isGap c || c = '-'

/-- Whether the tabs of a text separate words: they come after a gap, or after a dash and before an
edge. `before` is the last character before the text and its tabs. -/
def tabsApart (before : Char) : Text → Bool
  | [] => true
  | c :: s =>
    if c = '\t' then (isGap before || (before = '-' && atEdge s)) && tabsApart before s
    else tabsApart c s

theorem tabsApart_cons (hc : c ≠ '\t') (before : Char) (s : Text) :
    tabsApart before (c :: s) = tabsApart c s := by
  rw [tabsApart, if_neg hc]

theorem tabsApart_tab (before : Char) (s : Text) :
    tabsApart before ('\t' :: s) =
      ((isGap before || (before = '-' && atEdge s)) && tabsApart before s) := by
  rw [tabsApart, if_pos rfl]

theorem tabsApart_congr (h : s.head? ≠ some '\t') (before before' : Char) :
    tabsApart before s = tabsApart before' s := by
  cases s with
  | nil => rfl
  | cons c s =>
    have hc : c ≠ '\t' := fun hc => h (hc ▸ rfl)
    rw [tabsApart_cons hc, tabsApart_cons hc]

theorem tabsApart_append {a : Text} (ha : ∀ c ∈ a, c ≠ '\t') (before : Char) (s : Text) :
    tabsApart before (a ++ s) = tabsApart (a.getLastD before) s := by
  induction a generalizing before with
  | nil => rfl
  | cons c a ih =>
    rw [cons_append, tabsApart_cons (ha c mem_cons_self),
      ih (fun d hd => ha d (mem_cons_of_mem c hd)), getLastD_cons]

private theorem tabsApart_blank (blank : ∀ c ∈ t, isBlank c = true) {before : Char}
    (hbefore : isGap before = true) (hs : s.head? ≠ some '\t') :
    tabsApart before (t ++ s) = tabsApart '-' s := by
  induction t generalizing before with
  | nil => exact tabsApart_congr hs before '-'
  | cons c t ih =>
    have hrest := fun d hd => blank d (mem_cons_of_mem c hd)
    by_cases hc : c = '\t'
    · rw [hc, cons_append, tabsApart_tab, hbefore, ih hrest hbefore]
      rfl
    · have hspace : c = ' ' := by simpa [isBlank, hc] using blank c mem_cons_self
      rw [cons_append, tabsApart_cons hc, hspace, ih hrest rfl]

private theorem atEdge_blank (blank : ∀ c ∈ t, isBlank c = true)
    (hs : (∀ c ∈ t, c = '\t') → atEdge s = true) : atEdge (t ++ s) = true := by
  induction t with
  | nil => exact hs (by simp)
  | cons c t ih =>
    by_cases hc : c = '\t'
    · have hedge : atEdge (t ++ s) = true := by
        refine ih (fun d hd => blank d (mem_cons_of_mem c hd)) fun htabs => hs ?_
        simpa [hc] using htabs
      rw [← hedge, atEdge, atEdge, cons_append, dropWhile_cons_of_pos (by simp [hc])]
    · have hspace : c = ' ' := by simpa [isBlank, hc] using blank c mem_cons_self
      rw [atEdge, cons_append, dropWhile_cons_of_neg (by simp [hc]), hspace]
      rfl

theorem tabsApart_dash (blank : ∀ c ∈ t, isBlank c = true) (hs : s.head? ≠ some '\t')
    (hedge : (∀ c ∈ t, c = '\t') → atEdge s = true) : tabsApart '-' (t ++ s) = tabsApart '-' s := by
  induction t with
  | nil => rfl
  | cons c t ih =>
    have hrest := fun d hd => blank d (mem_cons_of_mem c hd)
    by_cases hc : c = '\t'
    · have htail : (∀ d ∈ t, d = '\t') → atEdge s = true := fun htabs =>
        hedge (by simpa [hc] using htabs)
      rw [hc, cons_append, tabsApart_tab, atEdge_blank hrest htail, ih hrest htail]
      rfl
    · have hspace : c = ' ' := by simpa [isBlank, hc] using blank c mem_cons_self
      rw [cons_append, tabsApart_cons hc, hspace, tabsApart_blank hrest rfl hs]

theorem isGap_of_isBody (h : isBody c = true) : isGap c = false ∧ c ≠ '-' := by
  constructor
  · simp only [isGap, Bool.or_eq_false_iff, decide_eq_false_iff_not]
    constructor <;> rintro rfl <;> cases h
  · rintro rfl
    cases h

private theorem atEdge_body (body : ∀ c ∈ t, isBody c = true) (longer : ∃ c ∈ t, c ≠ '\t')
    (s : Text) : atEdge (t ++ s) = false := by
  induction t with
  | nil =>
    obtain ⟨c, hc, -⟩ := longer
    cases hc
  | cons c t ih =>
    by_cases hc : c = '\t'
    · have hrest : ∃ d ∈ t, d ≠ '\t' := by simpa [hc] using longer
      rw [← ih (fun d hd => body d (mem_cons_of_mem c hd)) hrest, atEdge, atEdge,
        cons_append, dropWhile_cons_of_pos (by simp [hc])]
    · obtain ⟨hgap, hdash⟩ := isGap_of_isBody (body c mem_cons_self)
      rw [atEdge, cons_append, dropWhile_cons_of_neg (by simp [hc])]
      simp [hgap, hdash]

theorem tabsApart_body (body : ∀ c ∈ t, isBody c = true) (htab : '\t' ∈ t)
    (longer : ∃ c ∈ t, c ≠ '\t') (s : Text) : tabsApart '-' (t ++ s) = false := by
  obtain ⟨a, b, rfl, ha⟩ := eq_append_cons_of_mem htab
  rw [append_assoc, cons_append,
    tabsApart_append fun c hc h => ha (h ▸ hc), tabsApart_tab, Bool.and_eq_false_iff]
  left
  cases a with
  | nil =>
    have hb : ∃ c ∈ b, c ≠ '\t' := by simpa using longer
    have hedge := atEdge_body (fun c hc => body c (by simp [hc])) hb s
    simp [hedge, isGap]
  | cons c a =>
    rw [getLastD_cons]
    have hmem : a.getLastD c ∈ (c :: a) ++ '\t' :: b := by
      refine mem_append_left _ ?_
      rw [← getLast_eq_getLastD (cons_ne_nil c a)]
      exact getLast_mem _
    obtain ⟨hgap, hdash⟩ := isGap_of_isBody (body _ hmem)
    rw [hgap, decide_eq_false hdash]
    rfl

theorem tab_mem_escape : '\t' ∈ escape t ↔ '\t' ∈ t := by
  refine ⟨fun h => (mem_escape h).resolve_left (by decide), fun h => ?_⟩
  exact mem_flatMap.mpr ⟨'\t', h, by simp [isQuote]⟩

private theorem atEdge_of_clean
    (hx : ∀ c, x.head? = some c → isBlank c = false ∧
      isBody c = false ∧ isLineBreak c = false ∧
      ∀ token, isQuote c = false → ofSpecial? c = some token → c = '-') : atEdge x = true := by
  cases x with
  | nil => rfl
  | cons c x =>
    obtain ⟨hblank, hbody, hbreak, hclean⟩ := hx c rfl
    simp only [isBody, Bool.or_eq_false_iff] at hbody
    cases hspecial : ofSpecial? c with
    | none =>
      rcases isBlank_or_isPlain hbreak hspecial with h | h
      · rw [hblank] at h; cases h
      · rw [hbody.1] at h; cases h
    | some token =>
      obtain rfl := hclean token hbody.2 hspecial
      rfl

namespace Lexed

theorem tabsApart_iff (h : Lexed x ts)
    (hclean : ∀ c ∈ x, ∀ token, isQuote c = false → ofSpecial? c = some token → c = '-')
    (hbreak : ∀ c ∈ x, isLineBreak c = false) :
    (∀ t, .chars t ∈ ts → '\t' ∉ t) ↔ tabsApart '-' x = true := by
  induction h with
  | nil => simp [tabsApart]
  | @special c token x ts known unquoted rest ih =>
    obtain rfl := hclean c mem_cons_self token unquoted known
    have hne : ∀ t, token ≠ .chars t := by
      rintro t rfl
      cases known
    rw [tabsApart_cons (by decide), ← ih (fun d hd => hclean d (mem_cons_of_mem _ hd))
      (fun d hd => hbreak d (mem_cons_of_mem _ hd))]
    simp [(hne _).symm]
  | @space t x ts run blank whole longer rest ih =>
    have hhead : x.head? ≠ some '\t' := fun hx => by cases whole _ hx
    have hedge : (∀ c ∈ t, c = '\t') → atEdge x = true := by
      refine fun htabs => atEdge_of_clean fun c hc => ?_
      have hmem : c ∈ t ++ x := mem_append_right t (mem_of_mem_head? hc)
      exact ⟨whole c hc, longer htabs c hc, hbreak c hmem, hclean c hmem⟩
    rw [tabsApart_dash blank hhead hedge, ← ih (fun d hd => hclean d (mem_append_right t hd))
      (fun d hd => hbreak d (mem_append_right t hd))]
    simp
  | @chars t x ts body whole longer rest ih =>
    have hhead : x.head? ≠ some '\t' := fun hx => by cases whole _ hx
    have hrest := ih (fun d hd => hclean d (mem_append_right t hd))
      (fun d hd => hbreak d (mem_append_right t hd))
    by_cases htab : '\t' ∈ t
    · rw [tabsApart_body body htab longer]
      simp only [Bool.false_eq_true, iff_false, not_forall]
      exact ⟨escape t, mem_cons_self, not_not.mpr (tab_mem_escape.mpr htab)⟩
    · rw [tabsApart_append (fun c hc => fun h => htab (h ▸ hc)), tabsApart_congr hhead _ '-',
        ← hrest]
      have hescape := tab_mem_escape.not.mpr htab
      simp [hescape]

end Lexed

end CommandShell.Line

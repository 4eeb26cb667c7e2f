import CommandShell.Line.Token
import Mathlib

/-!
# Tokens of joined lines

The tokens of a line keep all its characters but the line breaks. A blank ends whatever token
stands before it, so a line can be cut at a blank: what is before it has the tokens it has alone,
but that blanks on both sides of the cut become one token.
-/

namespace CommandShell.Token

open List

/-! ## The first token -/

theorem charsLength_le (s : Text) : charsLength s ≤ s.length := by
  fun_induction charsLength s with
  | case1 => simp
  | case2 rest ih | case3 rest ih | case4 c rest _ _ _ ih => simp only [length_cons]; omega
  | case5 => simp

variable {c : Char} {rest : Text} {token : Token}

theorem charsLength_cons (hdouble : c = '\\' → rest.head? ≠ some '"')
    (hsingle : c = '\\' → rest.head? ≠ some '\'') :
    charsLength (c :: rest) = if isPlain c then charsLength rest + 1 else 0 := by
  rw [charsLength]
  · rintro later rfl rfl
    exact hdouble rfl rfl
  · rintro later rfl rfl
    exact hsingle rfl rfl

theorem charsLength_pos (rest : Text) (h : isPlain c = true) : 0 < charsLength (c :: rest) := by
  unfold charsLength
  split
  · contradiction
  · omega
  · omega
  · simp_all

theorem spaceLength_pos (rest : Text) (h : isBlank c = true) : 0 < spaceLength (c :: rest) := by
  simp [spaceLength, h]

theorem spaceLength_le (s : Text) : spaceLength s ≤ s.length :=
  ( takeWhile_prefix isBlank).length_le

def specials : List (Char × Token) :=
  [('|', bar), (';', semicolon), ('-', dash), ('<', less), ('>', greater), ('\x60', backquote),
    ('"', doubleQuote), ('\'', singleQuote)]

theorem mem_specials (h : ofSpecial? c = some token) : (c, token) ∈ specials := by
  unfold ofSpecial? at h
  unfold specials
  grind

theorem ofSpecial?_text (h : ofSpecial? c = some token) : token.text = [c] := by
  have hall : ∀ special ∈ specials, special.2.text = [special.1] := by decide
  exact hall _ (mem_specials h)

theorem isBlank_or_isPlain (hbreak : isLineBreak c = false) (hspecial : ofSpecial? c = none) :
    isBlank c = true ∨ isPlain c = true := by
  by_cases hc : c = ' '
  · exact .inl (by simp [isBlank, hc])
  · exact .inr (by simp [isPlain, hc, hbreak, hspecial])

theorem munch_lineBreak (rest : Text) (h : isLineBreak c = true) :
    munch c rest = (((c :: rest).takeWhile isLineBreak).length, none) := by
  simp [munch, h]

theorem munch_special (rest : Text) (hbreak : isLineBreak c = false) (h : ofSpecial? c = some token) :
    munch c rest = (1, some token) := by
  simp [munch, hbreak, h]

theorem munch_space (hbreak : isLineBreak c = false) (hspecial : ofSpecial? c = none)
    (h : charsLength (c :: rest) ≤ spaceLength (c :: rest)) :
    munch c rest = (spaceLength (c :: rest), some (space ((c :: rest).takeWhile isBlank))) := by
  have htake : (c :: rest).take (spaceLength (c :: rest)) = (c :: rest).takeWhile isBlank :=
    (prefix_iff_eq_take.mp ( takeWhile_prefix isBlank)).symm
  simp [munch, hbreak, hspecial, h, htake]

theorem munch_chars (hbreak : isLineBreak c = false) (hspecial : ofSpecial? c = none)
    (h : spaceLength (c :: rest) < charsLength (c :: rest)) :
    munch c rest =
      (charsLength (c :: rest), some (chars ((c :: rest).take (charsLength (c :: rest))))) := by
  simp [munch, hbreak, hspecial, Nat.not_le.mpr h]

theorem munch_cases (c : Char) (rest : Text) :
    (isLineBreak c = true ∧
      munch c rest = (((c :: rest).takeWhile isLineBreak).length, none)) ∨
    (isLineBreak c = false ∧ ∃ token, ofSpecial? c = some token ∧
      munch c rest = (1, some token)) ∨
    (isLineBreak c = false ∧ ofSpecial? c = none ∧
      charsLength (c :: rest) ≤ spaceLength (c :: rest) ∧
      munch c rest = (spaceLength (c :: rest), some (space ((c :: rest).takeWhile isBlank)))) ∨
    (isLineBreak c = false ∧ ofSpecial? c = none ∧
      spaceLength (c :: rest) < charsLength (c :: rest) ∧ munch c rest =
        (charsLength (c :: rest), some (chars ((c :: rest).take (charsLength (c :: rest)))))) := by
  cases hbreak : isLineBreak c with
  | true => exact .inl ⟨rfl, munch_lineBreak rest hbreak⟩
  | false =>
    cases hspecial : ofSpecial? c with
    | some token => exact .inr (.inl ⟨rfl, token, rfl, munch_special rest hbreak hspecial⟩)
    | none =>
      rcases Nat.lt_or_ge (spaceLength (c :: rest)) (charsLength (c :: rest)) with h | h
      · exact .inr (.inr (.inr ⟨rfl, rfl, h, munch_chars hbreak hspecial h⟩))
      · exact .inr (.inr (.inl ⟨rfl, rfl, h, munch_space hbreak hspecial h⟩))

theorem munch_pos (c : Char) (rest : Text) : 0 < (munch c rest).1 := by
  rcases munch_cases c rest with
    ⟨hbreak, h⟩ | ⟨-, token, -, h⟩ | ⟨hbreak, hspecial, hle, h⟩ | ⟨-, -, hlt, h⟩
  · simp [h, hbreak]
  · simp [h]
  · rw [h]
    rcases isBlank_or_isPlain hbreak hspecial with hc | hc
    · exact spaceLength_pos rest hc
    · exact Nat.lt_of_lt_of_le (charsLength_pos rest hc) hle
  · rw [h]
    exact Nat.lt_of_le_of_lt (Nat.zero_le _) hlt

theorem munch_le (c : Char) (rest : Text) : (munch c rest).1 ≤ rest.length + 1 := by
  rcases munch_cases c rest with ⟨-, h⟩ | ⟨-, token, -, h⟩ | ⟨-, -, -, h⟩ | ⟨-, -, -, h⟩
  · rw [h]
    exact ( takeWhile_prefix isLineBreak).length_le
  · simp [h]
  · rw [h]
    exact spaceLength_le (c :: rest)
  · rw [h]
    exact charsLength_le (c :: rest)

/-! ## Tokens without their places -/

private theorem map_token_scanFrom (start start' : Nat) (s : Text) :
    (scanFrom start s).map (·.token) = (scanFrom start' s).map (·.token) := by
  induction hn : s.length using Nat.strongRecOn generalizing start start' s with
  | _ n ih =>
    cases s with
    | nil => simp [scanFrom]
    | cons c rest =>
      have hrest := ih (rest.drop ((munch c rest).1 - 1)).length
        (by simp only [length_cons, length_drop] at hn ⊢; omega)
        (start + (munch c rest).1) (start' + (munch c rest).1) _ rfl
      rw [scanFrom, scanFrom]
      generalize munch c rest = munched at hrest
      rcases munched with ⟨size, token | token⟩
      · exact hrest
      · simp only [map_cons, hrest]

@[simp] theorem ofLine_nil : ofLine [] = [] := by
  simp [ofLine, scan, scanFrom]

theorem ofLine_cons (c : Char) (rest : Text) :
    ofLine (c :: rest) =
      (munch c rest).2.toList ++ ofLine (rest.drop ((munch c rest).1 - 1)) := by
  unfold ofLine scan
  rw [scanFrom, map_token_scanFrom 0 (0 + (munch c rest).1) (rest.drop ((munch c rest).1 - 1))]
  rcases munch c rest with ⟨size, token | token⟩ <;> rfl

theorem drop_pred {size : Nat} (c : Char) (rest : Text) (h : 0 < size) :
    rest.drop (size - 1) = (c :: rest).drop size := by
  cases size with
  | zero => omega
  | succ size => rfl

/-! ## Characters of tokens -/

theorem isLineBreak_eq_false_of_isBlank (h : isBlank c = true) : isLineBreak c = false := by
  simp only [isBlank, Bool.or_eq_true, decide_eq_true_eq] at h
  rcases h with rfl | rfl <;> rfl

theorem ofSpecial?_eq_none_of_isBlank (h : isBlank c = true) : ofSpecial? c = none := by
  simp only [isBlank, Bool.or_eq_true, decide_eq_true_eq] at h
  rcases h with rfl | rfl <;> rfl

theorem isLineBreak_eq_false_of_mem_chars {s : Text} (h : c ∈ s.take (charsLength s)) :
    isLineBreak c = false := by
  fun_induction charsLength s with
  | case1 => cases h
  | case2 rest ih | case3 rest ih =>
    rcases mem_cons.mp h with rfl | h
    · rfl
    · rcases mem_cons.mp h with rfl | h
      · rfl
      · exact ih h
  | case4 d rest _ _ hplain ih =>
    rcases mem_cons.mp h with rfl | h
    · simp only [isPlain, Bool.and_eq_true, Bool.not_eq_true'] at hplain
      exact hplain.1.2
    · exact ih h
  | case5 => cases h

theorem text_munch (c : Char) (rest : Text) :
    (munch c rest).2.toList.flatMap text =
      ((c :: rest).take (munch c rest).1).filter (!isLineBreak ·) := by
  rcases munch_cases c rest with
    ⟨-, h⟩ | ⟨hbreak, token, hspecial, h⟩ | ⟨-, -, -, h⟩ | ⟨-, -, -, h⟩
  · have htake : (c :: rest).take ((c :: rest).takeWhile isLineBreak).length =
        (c :: rest).takeWhile isLineBreak :=
      (prefix_iff_eq_take.mp ( takeWhile_prefix isLineBreak)).symm
    rw [h]
    simp only [Option.toList_none, flatMap_nil, htake]
    refine (filter_eq_nil_iff.mpr fun d hd => ?_).symm
    simp [mem_takeWhile_imp hd]
  · simp [h, ofSpecial?_text hspecial, hbreak]
  · have htake : (c :: rest).take (spaceLength (c :: rest)) = (c :: rest).takeWhile isBlank :=
      (prefix_iff_eq_take.mp ( takeWhile_prefix isBlank)).symm
    rw [h]
    simp only [Option.toList_some, flatMap_cons, flatMap_nil, append_nil, text,
      htake]
    refine (filter_eq_self.mpr fun d hd => ?_).symm
    simp [isLineBreak_eq_false_of_isBlank (mem_takeWhile_imp hd)]
  · rw [h]
    simp only [Option.toList_some, flatMap_cons, flatMap_nil, append_nil, text]
    refine (filter_eq_self.mpr fun d hd => ?_).symm
    simp [isLineBreak_eq_false_of_mem_chars hd]

theorem text_ofLine (s : Text) : (ofLine s).flatMap text = s.filter (!isLineBreak ·) := by
  induction hn : s.length using Nat.strongRecOn generalizing s with
  | _ n ih =>
    cases s with
    | nil => simp
    | cons c rest =>
      have hrest := ih (rest.drop ((munch c rest).1 - 1)).length
        (by simp only [length_cons, length_drop] at hn ⊢; omega) _ rfl
      rw [ofLine_cons, flatMap_append, text_munch, hrest, drop_pred c rest (munch_pos c rest),
        ← filter_append, take_append_drop]

/-! ## Cutting a line at a blank -/

theorem charsLength_append_space (s x : Text) :
    charsLength (s ++ ' ' :: x) = charsLength s := by
  fun_induction charsLength s with
  | case1 => simp [charsLength, isPlain]
  | case2 rest ih => simp [charsLength, ih]
  | case3 rest ih => simp [charsLength, ih]
  | case4 c rest hdouble hsingle hplain ih =>
    rw [cons_append, charsLength_cons, if_pos hplain, ih]
    · cases rest with
      | nil => simp
      | cons d rest => simpa using fun hc hd => hdouble rest hc (by rw [hd])
    · cases rest with
      | nil => simp
      | cons d rest => simpa using fun hc hd => hsingle rest hc (by rw [hd])
  | case5 c rest hdouble hsingle hplain =>
    rw [cons_append, charsLength_cons, if_neg hplain]
    · cases rest with
      | nil => simp
      | cons d rest => simpa using fun hc hd => hdouble rest hc (by rw [hd])
    · cases rest with
      | nil => simp
      | cons d rest => simpa using fun hc hd => hsingle rest hc (by rw [hd])

/-- A blank does not change what stands at the beginning of a text that is not all blank. -/
theorem munch_append_space (h : ¬ ∀ d ∈ c :: rest, isBlank d = true) (x : Text) :
    munch c (rest ++ ' ' :: x) = munch c rest := by
  have hchars : charsLength (c :: (rest ++ ' ' :: x)) = charsLength (c :: rest) :=
    charsLength_append_space (c :: rest) x
  have hblank : (c :: (rest ++ ' ' :: x)).takeWhile isBlank = (c :: rest).takeWhile isBlank := by
    rw [← cons_append, takeWhile_append, if_neg]
    intro hlength
    apply h
    intro d hd
    rw [← ( takeWhile_prefix isBlank).eq_of_length hlength] at hd
    exact mem_takeWhile_imp hd
  have hspace : spaceLength (c :: (rest ++ ' ' :: x)) = spaceLength (c :: rest) := by
    rw [spaceLength, hblank, spaceLength]
  rcases munch_cases c rest with
    ⟨hbreak, hm⟩ | ⟨hbreak, token, hspecial, hm⟩ | ⟨hbreak, hspecial, hle, hm⟩ |
      ⟨hbreak, hspecial, hlt, hm⟩
  · rw [munch_lineBreak _ hbreak, hm, ← cons_append, takeWhile_append]
    split
    · next hlength => simp [isLineBreak, ← hlength]
    · rfl
  · rw [munch_special _ hbreak hspecial, hm]
  · rw [munch_space hbreak hspecial (by omega), hm, hspace, hblank]
  · rw [munch_chars hbreak hspecial (by omega), hm, hchars, ← cons_append,
      take_append_of_le_length (charsLength_le (c :: rest))]

theorem ofLine_of_blank {s : Text} (hs : s.takeWhile isBlank ≠ [])
    (hle : charsLength s ≤ spaceLength s) :
    ofLine s = space (s.takeWhile isBlank) :: ofLine (s.dropWhile isBlank) := by
  cases s with
  | nil => exact absurd rfl hs
  | cons c rest =>
    have hc : isBlank c = true := by
      by_contra hc
      simp [hc] at hs
    have hdrop : (c :: rest).drop (spaceLength (c :: rest)) = (c :: rest).dropWhile isBlank := by
      have hsplit := takeWhile_append_dropWhile (p := isBlank) (l := c :: rest)
      calc (c :: rest).drop (spaceLength (c :: rest))
          = ((c :: rest).takeWhile isBlank ++ (c :: rest).dropWhile isBlank).drop
              ((c :: rest).takeWhile isBlank).length := by rw [hsplit, spaceLength]
        _ = (c :: rest).dropWhile isBlank := drop_left
    rw [ofLine_cons, munch_space (isLineBreak_eq_false_of_isBlank hc)
      (ofSpecial?_eq_none_of_isBlank hc) hle, drop_pred c rest (spaceLength_pos rest hc), hdrop]
    rfl

private theorem ofLine_blanks {t : Text} (ht : t ≠ []) (hblank : ∀ c ∈ t, isBlank c = true) :
    ofLine t = [space t] := by
  have htake : t.takeWhile isBlank = t := takeWhile_eq_self_iff.mpr hblank
  have hdrop : t.dropWhile isBlank = [] := dropWhile_eq_nil_iff.mpr hblank
  rw [ofLine_of_blank (by rwa [htake]) (by rw [spaceLength, htake]; exact charsLength_le t),
    htake, hdrop, ofLine_nil]

/-- A line cut before a blank: the tokens of the first part, of which the last is joined with the
blank if it is one itself. -/
theorem ofLine_append_space (l : Text) :
    ∃ (ts : List Token) (t : Text), (∀ c ∈ t, isBlank c = true) ∧
      (t = [] ∧ ofLine l = ts ∨ t ≠ [] ∧ ofLine l = ts ++ [space t]) ∧
      ∀ x, ofLine (l ++ ' ' :: x) = ts ++ ofLine (t ++ ' ' :: x) := by
  induction hn : l.length using Nat.strongRecOn generalizing l with
  | _ n ih =>
    cases l with
    | nil => exact ⟨[], [], by simp, .inl ⟨rfl, by simp⟩, fun x => rfl⟩
    | cons c rest =>
      by_cases hblank : ∀ d ∈ c :: rest, isBlank d = true
      · exact ⟨[], c :: rest, hblank, .inr ⟨by simp, ofLine_blanks (by simp) hblank⟩,
          fun x => rfl⟩
      · obtain ⟨ts, t, ht, hl, hx⟩ := ih (rest.drop ((munch c rest).1 - 1)).length
          (by simp only [length_cons, length_drop] at hn ⊢; omega) _ rfl
        refine ⟨(munch c rest).2.toList ++ ts, t, ht, ?_, fun x => ?_⟩
        · rw [ofLine_cons]
          rcases hl with ⟨ht, hl⟩ | ⟨ht, hl⟩
          · exact .inl ⟨ht, by rw [hl]⟩
          · exact .inr ⟨ht, by rw [hl, append_assoc]⟩
        · have hle := munch_le c rest
          rw [cons_append, ofLine_cons, munch_append_space hblank,
            drop_append_of_le_length (by omega), hx x, append_assoc]

theorem ofLine_blank_run {t : Text} (ht : ∀ c ∈ t, isBlank c = true) (y : Text) :
    ofLine (t ++ ' ' :: y) =
      space (t ++ ' ' :: y.takeWhile isBlank) :: ofLine (y.dropWhile isBlank) := by
  have htake : (t ++ ' ' :: y).takeWhile isBlank = t ++ ' ' :: y.takeWhile isBlank := by
    rw [takeWhile_append_of_pos ht]
    rfl
  have hdrop : (t ++ ' ' :: y).dropWhile isBlank = y.dropWhile isBlank := by
    rw [dropWhile_append_of_pos ht]
    rfl
  have hle : charsLength (t ++ ' ' :: y) ≤ spaceLength (t ++ ' ' :: y) := by
    have hchars := charsLength_le t
    rw [charsLength_append_space, spaceLength, htake, length_append]
    omega
  rw [ofLine_of_blank (by simp [htake]) hle, htake, hdrop]

theorem ofLine_semicolon (x : Text) : ofLine (';' :: x) = semicolon :: ofLine x := by
  rw [ofLine_cons, munch_special x rfl rfl]
  rfl

/-- Blanks at the beginning of a line make a token of their own, unless they are tabs that begin
a run of other characters. -/
theorem ofLine_leading (r : Text) :
    ofLine (r.dropWhile isBlank) = ofLine r ∨
      (∃ t, ofLine r = space t :: ofLine (r.dropWhile isBlank)) ∨
      ∃ t ts, ofLine r = chars ('\t' :: t) :: ts := by
  by_cases hr : r.takeWhile isBlank = []
  · left
    conv_rhs => rw [← takeWhile_append_dropWhile (p := isBlank) (l := r), hr, nil_append]
  · right
    rcases Nat.lt_or_ge (spaceLength r) (charsLength r) with hlt | hle
    · right
      cases r with
      | nil => exact absurd rfl hr
      | cons c rest =>
        have hc : isBlank c = true := by
          by_contra hc
          simp [hc] at hr
        have htab : c = '\t' := by
          simp only [isBlank, Bool.or_eq_true, decide_eq_true_eq] at hc
          rcases hc with rfl | rfl
          · simp [charsLength, isPlain] at hlt
          · rfl
        subst htab
        obtain ⟨k, hk⟩ := Nat.exists_eq_succ_of_ne_zero (Nat.pos_iff_ne_zero.mp
          (Nat.lt_of_le_of_lt (Nat.zero_le _) hlt))
        rw [ofLine_cons, munch_chars rfl rfl hlt, hk]
        exact ⟨_, _, rfl⟩
    · exact .inl ⟨_, ofLine_of_blank hr hle⟩

/-- Two lines joined by a semicolon: the tokens of both, but that blanks at the joint are joined
with those around the semicolon. The second line must not begin with a tab that belongs to a
run of other characters. -/
theorem ofLine_joined (l r : Text) (hr : ∀ t ts, ofLine r ≠ chars ('\t' :: t) :: ts) :
    ∃ (ts us : List Token) (t u : Text),
      (ofLine l = ts ∨ ∃ t', ofLine l = ts ++ [space t']) ∧
      (ofLine r = us ∨ ∃ u', ofLine r = space u' :: us) ∧
      ofLine (l ++ " ; ".toList ++ r) = ts ++ space t :: semicolon :: space u :: us := by
  obtain ⟨ts, t, ht, hl, hx⟩ := ofLine_append_space l
  have hline : l ++ " ; ".toList ++ r = l ++ ' ' :: ';' :: ([] ++ ' ' :: r) := by simp
  refine ⟨ts, ofLine (r.dropWhile isBlank), t ++ [' '], ' ' :: r.takeWhile isBlank, ?_, ?_, ?_⟩
  · rcases hl with ⟨-, hl⟩ | ⟨-, hl⟩
    · exact .inl hl
    · exact .inr ⟨t, hl⟩
  · rcases ofLine_leading r with h | ⟨u, h⟩ | ⟨u, us, h⟩
    · exact .inl h.symm
    · exact .inr ⟨u, h⟩
    · exact absurd h (hr u us)
  · rw [hline, hx, ofLine_blank_run ht]
    change ts ++ space (t ++ [' ']) :: ofLine (';' :: ([] ++ ' ' :: r)) = _
    rw [ofLine_semicolon, ofLine_blank_run (by simp)]
    rfl

end CommandShell.Token

import CommandShell.Proofs.Token.Lexing

/-!
# Scanning parts of a line

The first token of a text depends on nothing behind it, so the text of some tokens in a row is
scanned as those tokens again. Where two texts meet at a space, the space takes all blanks around
it: the tokens before it stay as they are, and the first word after it loses the tabs in front.
-/

namespace CommandShell.Token

open List

/-! ## A line cut after a token -/

variable {c : Char} {s : Text} {ts us : List Token}

theorem charsLength_cons_of_ne (h : c ≠ '\\') (rest : Text) :
    charsLength (c :: rest) = if isPlain c then charsLength rest + 1 else 0 :=
  charsLength_cons (fun hc => absurd hc h) (fun hc => absurd hc h)

theorem charsLength_take {m : Nat} (h : charsLength s ≤ m) :
    charsLength (s.take m) = charsLength s := by
  fun_induction charsLength s generalizing m with
  | case1 => rw [take_nil, charsLength]
  | case2 rest ih | case3 rest ih =>
    obtain ⟨k, rfl⟩ : ∃ k, m = k + 2 := ⟨m - 2, by omega⟩
    rw [take_succ_cons, take_succ_cons, charsLength, ih (by omega)]
  | case4 c rest hdouble hsingle hplain ih =>
    obtain ⟨k, rfl⟩ : ∃ k, m = k + 1 := ⟨m - 1, by omega⟩
    have hhead : ∀ d, (rest.take k).head? = some d → rest.head? = some d := by
      intro d hd
      rw [List.head?_take] at hd
      split at hd
      · cases hd
      · exact hd
    have hne : ∀ d, (∀ later, c = '\\' → rest = d :: later → False) → c = '\\' →
        (rest.take k).head? ≠ some d := by
      intro d hd hc htake
      obtain ⟨later, hrest⟩ := List.head?_eq_some_iff.mp (hhead d htake)
      exact hd later hc hrest
    rw [take_succ_cons, charsLength_cons (hne '"' hdouble) (hne '\'' hsingle),
      if_pos hplain, ih (by omega)]
  | case5 c rest hdouble hsingle hplain =>
    have hc : c ≠ '\\' := by
      rintro rfl
      exact hplain rfl
    cases m with
    | zero => rw [take_zero, charsLength]
    | succ k =>
      rw [take_succ_cons, charsLength_cons_of_ne hc, if_neg hplain]

private theorem charsLength_take_le (s : Text) (m : Nat) : charsLength
    (s.take m) ≤ charsLength s := by
  rcases Nat.le_total (charsLength s) m with h | h
  · exact (charsLength_take h).le
  · have htake := charsLength_le (s.take m)
    rw [length_take] at htake
    omega

theorem takeWhile_isBlank_take (s : Text) (m : Nat) :
    (s.take m).takeWhile isBlank = (s.takeWhile isBlank).take m :=
  (take_takeWhile ..).symm

theorem munch_take {rest : Text} (hbreak : isLineBreak c = false) {m : Nat}
    (h : (munch c rest).1 ≤ m + 1) : munch c (rest.take m) = munch c rest := by
  have hcons : c :: rest.take m = (c :: rest).take (m + 1) := rfl
  rcases munch_cases c rest with
    ⟨hb, -⟩ | ⟨-, token, hspecial, hm⟩ | ⟨-, hspecial, hle, hm⟩ | ⟨-, hspecial, hlt, hm⟩
  · rw [hbreak] at hb
    cases hb
  · rw [munch_special _ hbreak hspecial, hm]
  · rw [hm] at h
    have hspace : (c :: rest.take m).takeWhile isBlank = (c :: rest).takeWhile isBlank := by
      rw [hcons, takeWhile_isBlank_take, take_of_length_le h]
    have hchars : charsLength (c :: rest.take m) ≤ charsLength (c :: rest) :=
      hcons ▸ charsLength_take_le _ _
    have hlength : spaceLength (c :: rest.take m) = spaceLength (c :: rest) := by
      rw [spaceLength, hspace, spaceLength]
    rw [munch_space hbreak hspecial (by omega), hm, hspace, hlength]
  · rw [hm] at h
    have hchars : charsLength (c :: rest.take m) = charsLength (c :: rest) := by
      rw [hcons, charsLength_take h]
    have hspace : spaceLength (c :: rest.take m) ≤ spaceLength (c :: rest) := by
      rw [hcons, spaceLength, takeWhile_isBlank_take, length_take, spaceLength]
      omega
    rw [munch_chars hbreak hspecial (by omega), hm, hchars, hcons, take_take,
      Nat.min_eq_left h]

/-! ## Tokens in a row -/

def Unbroken (s : Text) : Prop := ∀ c ∈ s, isLineBreak c = false

theorem Unbroken.text_ofLine {s : Text} (h : Unbroken s) : (ofLine s).flatMap text = s := by
  rw [Token.text_ofLine]
  exact filter_eq_self.mpr fun c hc => by simp [h c hc]

theorem Unbroken.ofLine_eq_cons (h : Unbroken s) {token : Token} (hs : ofLine s = token :: ts) :
    ∃ c rest, s = c :: rest ∧ munch c rest =
      (token.text.length, some token) ∧ s = token.text ++ s.drop token.text.length ∧
      ofLine (s.drop token.text.length) = ts := by
  cases s with
  | nil => simp at hs
  | cons c rest =>
    have hc : isLineBreak c = false := h c mem_cons_self
    obtain ⟨token', htoken⟩ : ∃ token', (munch c rest).2 = some token' := by
      rcases munch_cases c rest with ⟨hb, -⟩ | ⟨-, token', -, hm⟩ | ⟨-, -, -, hm⟩ | ⟨-, -, -, hm⟩
      · rw [hc] at hb
        cases hb
      all_goals exact ⟨_, by rw [hm]⟩
    rw [ofLine_cons, drop_pred c rest (munch_pos c rest), htoken] at hs
    obtain ⟨rfl, hrest⟩ := List.cons.inj hs
    have htext := text_munch c rest
    rw [htoken, filter_eq_self.mpr fun d hd => by
      simp [h d (mem_of_mem_take hd)]] at htext
    have htext' : token'.text = (c :: rest).take (munch c rest).1 := by simpa using htext
    have hsize : token'.text.length = (munch c rest).1 := by
      rw [htext', length_take, length_cons]
      exact Nat.min_eq_left (munch_le c rest)
    refine ⟨c, rest, rfl, Prod.ext hsize.symm htoken, ?_, by rw [hsize]; exact hrest⟩
    rw [hsize, htext', take_append_drop]

theorem Unbroken.drop (h : Unbroken s) (n : Nat) : Unbroken (s.drop n) :=
  fun c hc => h c (mem_of_mem_drop hc)

private theorem Unbroken.ofLine_suffix (h : Unbroken s) (hs : ofLine s = ts ++ us) :
    ofLine (us.flatMap text) = us := by
  induction ts generalizing s with
  | nil => rw [← nil_append us, ← hs, h.text_ofLine]
  | cons token ts ih =>
    obtain ⟨-, -, -, -, -, hrest⟩ := h.ofLine_eq_cons hs
    exact ih (h.drop _) hrest

private theorem Unbroken.ofLine_prefix (h : Unbroken s) (hs : ofLine s = ts ++ us) :
    ofLine (ts.flatMap text) = ts := by
  induction ts generalizing s with
  | nil => simp
  | cons token ts ih =>
    obtain ⟨c, rest, rfl, hm, hsplit, hrest⟩ := h.ofLine_eq_cons hs
    have hlater := ih (h.drop _) hrest
    have hpos := munch_pos c rest
    rw [hm] at hpos
    -- the text of the first tokens is a beginning of the line
    have htext : (token :: ts).flatMap text ++ us.flatMap text = c :: rest := by
      rw [← flatMap_append, ← h.text_ofLine, hs]
    obtain ⟨m, hm'⟩ : ∃ m, (token :: ts).flatMap text = c :: rest.take m := by
      have htake := prefix_iff_eq_take.mp ⟨_, htext⟩
      have hlength : ((token :: ts).flatMap text).length =
          token.text.length + (ts.flatMap text).length := by
        rw [flatMap_cons, length_append]
      obtain ⟨m, hm'⟩ := Nat.exists_eq_succ_of_ne_zero (n := ((token :: ts).flatMap text).length)
        (by omega)
      rw [hm', Nat.succ_eq_add_one, take_succ_cons] at htake
      exact ⟨m, htake⟩
    have hlength : token.text.length ≤ m + 1 := by
      have hle := congrArg List.length hm'
      rw [flatMap_cons, length_append, length_cons, length_take] at hle
      omega
    have hmunch := munch_take (m := m) (h c mem_cons_self) (by rw [hm]; exact hlength)
    rw [hm', ofLine_cons, drop_pred c _ (munch_pos c _), hmunch, hm, ← hm', flatMap_cons,
      drop_left, hlater]
    rfl

theorem Unbroken.ofLine_infix (h : Unbroken s) (hs : us <:+: ofLine s) :
    ofLine (us.flatMap text) = us := by
  obtain ⟨ts, vs, hs⟩ := hs
  have hprefix := h.ofLine_prefix hs.symm
  have hunbroken : Unbroken ((ts ++ us).flatMap text) := by
    intro c hc
    apply h c
    rw [← h.text_ofLine, ← hs, flatMap_append]
    exact mem_append_left _ hc
  exact hunbroken.ofLine_suffix hprefix

/-! ## Texts that meet at a space -/

theorem charsLength_blanks {b : Text} (hb : ∀ c ∈ b, isBlank c = true) (s : Text) :
    charsLength (b ++ s) ≤ b.length ∨ charsLength (b ++ s) = b.length + charsLength s := by
  induction b with
  | nil => exact .inr (by simp)
  | cons c b ih =>
    have hc := hb c mem_cons_self
    simp only [isBlank, Bool.or_eq_true, decide_eq_true_eq] at hc
    rw [cons_append, length_cons]
    rcases hc with rfl | rfl
    · rw [charsLength_cons_of_ne (by decide), if_neg (by decide)]
      exact .inl (Nat.zero_le _)
    · rw [charsLength_cons_of_ne (by decide), if_pos (by decide)]
      rcases ih fun d hd => hb d (mem_cons_of_mem _ hd) with h | h
      · exact .inl (by omega)
      · exact .inr (by omega)

private theorem ofSpecial?_eq_none_of_charsLength_pos {rest : Text}
    (h : 0 < charsLength (c :: rest)) : ofSpecial? c = none := by
  by_cases hc : c = '\\'
  · rw [hc]
    rfl
  · rw [charsLength_cons_of_ne hc] at h
    split at h
    · next hplain =>
        simp only [isPlain, Bool.and_eq_true, Option.isNone_iff_eq_none] at hplain
        exact hplain.2
    · omega

private theorem ofLine_tabs {b : Text} (hb : ∀ c ∈ b, isBlank c = true) (hne : b ≠ [])
    (hs : s.takeWhile isBlank = []) (hlt : b.length < charsLength (b ++ s)) :
    (b ++ s).head? = some '\t' ∧
      ∃ t u ts, ofLine (b ++ s) = chars ('\t' :: t) :: ts ∧ ofLine s = chars u :: ts := by
  have hlength : charsLength (b ++ s) = b.length + charsLength s :=
    (charsLength_blanks hb s).resolve_left (Nat.not_le.mpr hlt)
  obtain ⟨c, b, rfl⟩ := exists_cons_of_ne_nil hne
  obtain ⟨d, s, rfl⟩ : ∃ d s', s = d :: s' := by
    cases s with
    | nil =>
      rw [charsLength] at hlength
      omega
    | cons d s => exact ⟨d, s, rfl⟩
  have hc : c = '\t' := by
    have hblank := hb c mem_cons_self
    simp only [isBlank, Bool.or_eq_true, decide_eq_true_eq] at hblank
    rcases hblank with rfl | rfl
    · rw [cons_append, charsLength_cons_of_ne (by decide), if_neg (by decide)] at hlt
      omega
    · rfl
  subst hc
  have hpos : 0 < charsLength (d :: s) := by omega
  have hbreak : isLineBreak d = false := by
    apply isLineBreak_eq_false_of_mem_chars (s := d :: s)
    obtain ⟨k, hk⟩ := Nat.exists_eq_succ_of_ne_zero (Nat.pos_iff_ne_zero.mp hpos)
    rw [hk, take_succ_cons]
    exact mem_cons_self
  have hspaces : spaceLength ('\t' :: b ++ d :: s) = ('\t' :: b).length := by
    rw [spaceLength, takeWhile_append_of_pos hb, hs, append_nil]
  have hsecond : spaceLength (d :: s) = 0 := by rw [spaceLength, hs, length_nil]
  have hfirst : munch '\t' (b ++ d :: s) = _ :=
    munch_chars rfl rfl (by rw [← cons_append, hspaces]; exact hlt)
  have hlast : munch d s = _ := munch_chars hbreak
    (ofSpecial?_eq_none_of_charsLength_pos hpos) (by rw [hsecond]; exact hpos)
  obtain ⟨k, hk⟩ := Nat.exists_eq_succ_of_ne_zero (Nat.pos_iff_ne_zero.mp
    (Nat.lt_of_le_of_lt (Nat.zero_le _) hlt))
  refine ⟨rfl, (b ++ d :: s).take k, (d :: s).take (charsLength (d :: s)),
    ofLine ((d :: s).drop (charsLength (d :: s))), ?_, ?_⟩
  · rw [cons_append, ofLine_cons, drop_pred _ _ (munch_pos _ _), hfirst, ← cons_append,
      hlength, drop_append, drop_of_length_le (by omega), Nat.add_sub_cancel_left,
      ← hlength, hk]
    rfl
  · rw [ofLine_cons, drop_pred _ _ (munch_pos _ _), hlast]
    rfl

private theorem takeWhile_dropWhile_isBlank (r : Text) :
    (r.dropWhile isBlank).takeWhile isBlank = [] := by
  cases hdrop : r.dropWhile isBlank with
  | nil => rfl
  | cons d s =>
    have hd := head_dropWhile_not isBlank (hdrop ▸ cons_ne_nil d s)
    simp only [hdrop, head_cons] at hd
    rw [takeWhile_cons_of_neg (by rw [hd]; decide)]

/-- A text without the blanks in front: they were a token of their own, or tabs that began the
first one. -/
theorem ofLine_dropWhile (r : Text) :
    r.dropWhile isBlank = r ∨
      (∃ t, ofLine r = space t :: ofLine (r.dropWhile isBlank)) ∨
      r.head? = some '\t' ∧ ∃ t u ts, ofLine r = chars ('\t' :: t) :: ts ∧
        ofLine (r.dropWhile isBlank) = chars u :: ts := by
  have hr := takeWhile_append_dropWhile (p := isBlank) (l := r)
  by_cases hblank : r.takeWhile isBlank = []
  · rw [hblank, nil_append] at hr
    exact .inl hr
  · right
    rcases Nat.lt_or_ge (spaceLength r) (charsLength r) with hlt | hle
    · right
      have htabs := ofLine_tabs (b := r.takeWhile isBlank) (s := r.dropWhile isBlank)
        (fun c hc => mem_takeWhile_imp hc) hblank
        (takeWhile_dropWhile_isBlank r)
        (by rw [hr]; exact hlt)
      rwa [hr] at htabs
    · exact .inl ⟨_, ofLine_of_blank hblank hle⟩

/-- The tokens before a space do not depend on what comes after it, and the space takes the
blanks on both sides. -/
theorem ofLine_meet (l : Text) :
    ∃ ts, (ofLine l = ts ∨ ∃ t, ofLine l = ts ++ [space t]) ∧
      ∃ b, ∀ x, ofLine (l ++ ' ' :: x) =
        ts ++ space (b ++ ' ' :: x.takeWhile isBlank) :: ofLine (x.dropWhile isBlank) := by
  obtain ⟨ts, b, hb, hl, hx⟩ := ofLine_append_space l
  refine ⟨ts, hl.imp And.right fun h => ⟨b, h.2⟩, b, fun x => ?_⟩
  rw [hx, ofLine_blank_run hb]

end CommandShell.Token

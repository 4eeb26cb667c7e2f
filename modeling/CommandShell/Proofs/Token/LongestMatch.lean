import CommandShell.Proofs.Token.Lexing

/-!
# The longest match at each place

Each kind of token has a language of its own: blanks, runs of characters in which a quote has a
backslash in front, and eight single characters; line breaks are the language of no token. A line
is cut into slices one after another, each of them the longest beginning of what is left that lies
in one of the languages, and blanks win a tie against a run of characters. There is one such cut
of every line, its tokens are those of the scan, and no character of the line is lost.
-/

namespace CommandShell.Token

open List

/-! ## The languages of the tokens -/

/-- The characters that cannot stand by themselves in a run of characters. -/
def reserved : List Char := ['-', '"', '\'', '\r', '\n', '\x60', '|', ';', '<', '>', ' ']

/-- Characters that are not reserved, and quotes with a backslash in front, one after another. -/
inductive IsRun : Text → Prop where
  | nil : IsRun []
  | plain {c : Char} {t : Text} (hc : c ∉ reserved) (ht : IsRun t) : IsRun (c :: t)
  | escaped {q : Char} {t : Text} (hq : q = '"' ∨ q = '\'') (ht : IsRun t) :
      IsRun ('\\' :: q :: t)

/-- The texts in the language of a token, and those of line breaks if there is no token. -/
def Matches : Option Token → Text → Prop
  | none, s => s ≠ [] ∧ ∀ c ∈ s, c = '\r' ∨ c = '\n'
  | some (space t), s => s = t ∧ s ≠ [] ∧ ∀ c ∈ s, c = ' ' ∨ c = '\t'
  | some (chars t), s => s = t ∧ s ≠ [] ∧ IsRun s
  | some token, s => s = token.text

/-- The text is the longest beginning of `s` in any of the languages. If two tokens have it, one
is made of blanks, the other one of characters, and the blanks are taken. -/
structure Longest (token? : Option Token) (text s : Text) : Prop where
  begins : text <+: s
  own : Matches token? text
  longest : ∀ other longer, Matches other longer → longer <+: s → longer.length ≤ text.length
  preferred : ∀ other, Matches other text →
    other = token? ∨ token? = some (space text) ∧ other = some (chars text)

variable {c : Char} {t s rest : Text} {token : Token}

theorem isPlain_iff : isPlain c = true ↔ c ∉ reserved := by
  simp only [isPlain, isLineBreak, ofSpecial?, reserved, mem_cons, not_mem_nil]
  grind

theorem isLineBreak_iff : isLineBreak c = true ↔ c = '\r' ∨ c = '\n' := by
  simp [isLineBreak]

theorem isBlank_iff : isBlank c = true ↔ c = ' ' ∨ c = '\t' := by
  simp [isBlank]

theorem IsRun.escaped_of_reserved (h : IsRun t) {front back : Text} (ht : t = front ++ c :: back)
    (hc : c ∈ reserved) : (c = '"' ∨ c = '\'') ∧ front.getLast? = some '\\' := by
  induction h generalizing front with
  | nil => simp at ht
  | @plain d t hd h ih =>
    cases front with
    | nil => exact absurd ((List.cons.inj ht).1 ▸ hc) hd
    | cons e front =>
      obtain ⟨hquote, hlast⟩ := ih (List.cons.inj ht).2
      exact ⟨hquote, by simp [List.getLast?_cons, hlast]⟩
  | @escaped q t hq h ih =>
    cases front with
    | nil => exact absurd ((List.cons.inj ht).1 ▸ hc) (by decide)
    | cons e front =>
      obtain ⟨rfl, hrest⟩ := List.cons.inj ht
      cases front with
      | nil => exact ⟨(List.cons.inj hrest).1 ▸ hq, rfl⟩
      | cons e front =>
        obtain ⟨hquote, hlast⟩ := ih (List.cons.inj hrest).2
        exact ⟨hquote, by simp [List.getLast?_cons, hlast]⟩

theorem IsRun.append_quote (h : IsRun t) (hlast : t.getLast? = some '\\') {q : Char}
    (hq : q = '"' ∨ q = '\'') : IsRun (t ++ [q]) := by
  induction h with
  | nil => cases hlast
  | @plain c t hc h ih =>
    cases t with
    | nil =>
      obtain rfl : c = '\\' := by simpa using hlast
      exact .escaped hq .nil
    | cons d t => exact .plain hc (ih (by simpa using hlast))
  | @escaped r t hr h ih =>
    cases t with
    | nil =>
      obtain rfl : r = '\\' := by simpa using hlast
      exact absurd hr (by decide)
    | cons d t => exact .escaped hr (ih (by simpa using hlast))

namespace Matches

variable {token? : Option Token} {s : Text}

theorem ne_nil (h : Matches token? s) : s ≠ [] := by
  cases token? with
  | none => exact h.1
  | some token =>
    cases token with
    | space t => exact h.2.1
    | chars t => exact h.2.1
    | _ => rw [show s = _ from h]; simp [text]

theorem text_eq (h : Matches (some token) s) : token.text = s := by
  cases token with
  | space t => exact h.1.symm
  | chars t => exact h.1.symm
  | _ => exact h.symm

theorem eq_none (h : Matches token? s) (hc : c ∈ s) (hbreak : isLineBreak c = true) :
    token? = none := by
  rw [isLineBreak_iff] at hbreak
  cases token? with
  | none => rfl
  | some token =>
    exfalso
    cases token with
    | space t => rcases h.2.2 c hc with rfl | rfl <;> simp at hbreak
    | chars t =>
      obtain ⟨front, back, hs⟩ := append_of_mem hc
      have hreserved : c ∈ reserved := by rcases hbreak with rfl | rfl <;> decide
      rcases (h.2.2.escaped_of_reserved hs hreserved).1 with rfl | rfl <;> simp at hbreak
    | _ =>
      rw [show s = _ from h] at hc
      rcases hbreak with rfl | rfl <;> simp [text] at hc

theorem eq_chars (h : Matches token? s) (hmem : '\\' ∈ s) :
    token? = some (chars s) ∧ IsRun s := by
  cases token? with
  | none => exact absurd (h.2 _ hmem) (by decide)
  | some token =>
    cases token with
    | space t => exact absurd (h.2.2 _ hmem) (by decide)
    | chars t => exact ⟨by rw [h.1], h.2.2⟩
    | _ =>
      rw [show s = _ from h] at hmem
      simp [text] at hmem

/-- A character that is a token of its own stands in the language of that token alone, or in a run
of characters with a backslash in front. -/
theorem special_cases (h : Matches token? s) {front back : Text} (hs : s = front ++ c :: back)
    (hc : (c, token) ∈ specials) :
    token? = some token ∧ front = [] ∨
      token? = some (chars s) ∧ (c = '"' ∨ c = '\'') ∧ front.getLast? = some '\\' := by
  have hmem : c ∈ s := by simp [hs]
  have hspecial : ∀ special ∈ specials, special.1 ∈ reserved ∧ special.1 ≠ '\r' ∧
      special.1 ≠ '\n' ∧ special.1 ≠ ' ' ∧ special.1 ≠ '\t' := by decide
  obtain ⟨hreserved, hcr, hlf, hspace, htab⟩ := hspecial _ hc
  cases token? with
  | none => exact absurd (h.2 c hmem) (by simp [hcr, hlf])
  | some other =>
    cases other with
    | space t => exact absurd (h.2.2 c hmem) (by simp [hspace, htab])
    | chars t => exact .inr ⟨by rw [h.1], h.2.2.escaped_of_reserved hs hreserved⟩
    | _ =>
      rw [show s = _ from h, text, cons_eq_append_iff] at hs
      obtain ⟨rfl, hs⟩ | ⟨front, rfl, hs⟩ := hs
      · obtain ⟨rfl, -⟩ := List.cons.inj hs
        exact .inl ⟨by simpa [specials, eq_comm] using hc, rfl⟩
      · simp at hs

end Matches

/-! ## What stands at the beginning of a text -/

theorem length_le_of_prefix {p : Char → Bool} (h : t <+: s) (ht : ∀ c ∈ t, p c = true) :
    t.length ≤ (s.takeWhile p).length := by
  obtain ⟨rest, rfl⟩ := h
  rw [takeWhile_append_of_pos ht, length_append]
  omega

private theorem succ_charsLength_le (rest : Text) (hc : isPlain c = true) :
    charsLength rest + 1 ≤ charsLength (c :: rest) := by
  rw [charsLength.eq_def (c :: rest)]
  split
  · contradiction
  · next heq =>
      obtain ⟨-, rfl⟩ := List.cons.inj heq
      simp [charsLength, isPlain, ofSpecial?]
  · next heq =>
      obtain ⟨-, rfl⟩ := List.cons.inj heq
      simp [charsLength, isPlain, ofSpecial?]
  · next heq =>
      obtain ⟨rfl, rfl⟩ := List.cons.inj heq
      rw [if_pos hc]

theorem IsRun.length_le (h : IsRun t) (hbegins : t <+: s) : t.length ≤ charsLength s := by
  induction h generalizing s with
  | nil => exact Nat.zero_le _
  | @plain c t hc h ih =>
    obtain ⟨rest, rfl⟩ := hbegins
    have hrest := ih (prefix_append t rest)
    have hstep := succ_charsLength_le (t ++ rest) (isPlain_iff.mpr hc)
    rw [cons_append, length_cons]
    omega
  | @escaped q t hq h ih =>
    obtain ⟨rest, rfl⟩ := hbegins
    have hrest := ih (prefix_append t rest)
    rcases hq with rfl | rfl <;> simpa [charsLength] using hrest

theorem isRun_take (s : Text) : IsRun (s.take (charsLength s)) := by
  fun_induction charsLength s with
  | case1 => exact .nil
  | case2 rest ih => exact .escaped (.inl rfl) ih
  | case3 rest ih => exact .escaped (.inr rfl) ih
  | case4 c rest _ _ hplain ih => exact .plain (isPlain_iff.mp hplain) ih
  | case5 => exact .nil

theorem take_takeWhile_length (p : Char → Bool) (s : Text) :
    s.take (s.takeWhile p).length = s.takeWhile p :=
  (prefix_iff_eq_take.mp ( takeWhile_prefix p)).symm

theorem longest_lineBreaks {c : Char} (rest : Text) (hc : isLineBreak c = true) :
    Longest none ((c :: rest).takeWhile isLineBreak) (c :: rest) where
  begins := takeWhile_prefix _
  own := ⟨by simp [hc], fun d hd => isLineBreak_iff.mp (mem_takeWhile_imp hd)⟩
  longest other longer hmatch hbegins := by
    obtain ⟨d, longer, rfl⟩ := exists_cons_of_ne_nil hmatch.ne_nil
    obtain ⟨rfl, -⟩ := cons_prefix_cons.mp hbegins
    obtain rfl := hmatch.eq_none mem_cons_self hc
    exact length_le_of_prefix hbegins fun e he => isLineBreak_iff.mpr (hmatch.2 e he)
  preferred other hmatch := .inl (hmatch.eq_none (c := c) (by simp [hc]) hc)

theorem longest_special (rest : Text) (hc : ofSpecial? c = some token) :
    Longest (some token) [c] (c :: rest) := by
  have hspecial := mem_specials hc
  have hsingle : ∀ other longer, Matches other (c :: longer) → other = some token := by
    intro other longer hmatch
    rcases hmatch.special_cases (nil_append _).symm hspecial with h | ⟨-, -, h⟩
    · exact h.1
    · cases h
  refine ⟨⟨rest, rfl⟩, ?_, ?_, fun other hmatch => .inl (hsingle other [] hmatch)⟩
  · have hown : ∀ special ∈ specials, Matches (some special.2) [special.1] := by
      simp [specials, Matches, text]
    exact hown _ hspecial
  · intro other longer hmatch hbegins
    obtain ⟨d, longer, rfl⟩ := exists_cons_of_ne_nil hmatch.ne_nil
    obtain ⟨rfl, -⟩ := cons_prefix_cons.mp hbegins
    obtain rfl := hsingle other longer hmatch
    rw [← hmatch.text_eq, ofSpecial?_text hc]

theorem Matches.length_le {other : Option Token} {c : Char} {rest longer : Text}
    (h : Matches other longer) (hbegins : longer <+: c :: rest) (hbreak : isLineBreak c = false)
    (hspecial : ofSpecial? c = none) :
    other = some (space longer) ∧ longer.length ≤ spaceLength (c :: rest) ∨
      other = some (chars longer) ∧ longer.length ≤ charsLength (c :: rest) := by
  obtain ⟨d, longer, rfl⟩ := exists_cons_of_ne_nil h.ne_nil
  obtain ⟨rfl, -⟩ := cons_prefix_cons.mp hbegins
  cases other with
  | none => simp [isLineBreak_iff.mpr (h.2 d mem_cons_self)] at hbreak
  | some token =>
    cases token with
    | space t =>
      refine .inl ⟨by rw [h.1], length_le_of_prefix hbegins fun e he => ?_⟩
      exact isBlank_iff.mpr (h.2.2 e he)
    | chars t => exact .inr ⟨by rw [h.1], h.2.2.length_le hbegins⟩
    | _ =>
      obtain ⟨rfl, -⟩ := List.cons.inj (show d :: longer = _ from h)
      cases hspecial

private theorem longest_space (hbreak : isLineBreak c = false) (hspecial : ofSpecial? c = none)
    (hle : charsLength (c :: rest) ≤ spaceLength (c :: rest)) :
    Longest (some (space ((c :: rest).takeWhile isBlank))) ((c :: rest).takeWhile isBlank)
      (c :: rest) := by
  have hpos : 0 < spaceLength (c :: rest) := by
    have hmunch := munch_pos c rest
    rwa [munch_space hbreak hspecial hle] at hmunch
  refine ⟨ takeWhile_prefix _, ⟨rfl, ne_nil_of_length_pos hpos, fun d hd =>
    isBlank_iff.mp (mem_takeWhile_imp hd)⟩, fun other longer hmatch hbegins => ?_,
    fun other hmatch => ?_⟩
  · rcases hmatch.length_le hbegins hbreak hspecial with ⟨-, hlength⟩ | ⟨-, hlength⟩
    · exact hlength
    · exact hlength.trans hle
  · rcases hmatch.length_le ( takeWhile_prefix _) hbreak hspecial with ⟨h, -⟩ | ⟨h, -⟩
    · exact .inl h
    · exact .inr ⟨rfl, h⟩

private theorem longest_chars (hbreak : isLineBreak c = false) (hspecial : ofSpecial? c = none)
    (hlt : spaceLength (c :: rest) < charsLength (c :: rest)) :
    Longest (some (chars ((c :: rest).take (charsLength (c :: rest)))))
      ((c :: rest).take (charsLength (c :: rest))) (c :: rest) := by
  have htake : ((c :: rest).take (charsLength (c :: rest))).length = charsLength (c :: rest) :=
    length_take_of_le (charsLength_le _)
  refine ⟨ take_prefix _ _, ⟨rfl, ne_nil_of_length_pos ?_, isRun_take _⟩,
    fun other longer hmatch hbegins => ?_, fun other hmatch => ?_⟩
  · rw [htake]
    exact Nat.lt_of_le_of_lt (Nat.zero_le _) hlt
  · rw [htake]
    rcases hmatch.length_le hbegins hbreak hspecial with ⟨-, hlength⟩ | ⟨-, hlength⟩
    · exact hlength.trans hlt.le
    · exact hlength
  · rcases hmatch.length_le ( take_prefix _ _) hbreak hspecial with ⟨-, hlength⟩ | ⟨h, -⟩
    · exact absurd (htake ▸ hlength) (Nat.not_le.mpr hlt)
    · exact .inl h

/-- What is cut off at the beginning of a text is the longest match there. -/
theorem longest_munch (c : Char) (rest : Text) :
    Longest (munch c rest).2 ((c :: rest).take (munch c rest).1) (c :: rest) := by
  rcases munch_cases c rest with
    ⟨hbreak, h⟩ | ⟨-, token, hspecial, h⟩ | ⟨hbreak, hspecial, hle, h⟩ | ⟨hbreak, hspecial, hlt, h⟩
  · rw [h, take_takeWhile_length]
    exact longest_lineBreaks rest hbreak
  · rw [h]
    exact longest_special rest hspecial
  · rw [h, spaceLength, take_takeWhile_length]
    exact longest_space hbreak hspecial hle
  · rw [h]
    exact longest_chars hbreak hspecial hlt

theorem Longest.unique {token? other? : Option Token} {u : Text} (h : Longest token? t s)
    (hother : Longest other? u s) : other? = token? ∧ u = t := by
  have hlength : t.length = u.length :=
    Nat.le_antisymm (hother.longest _ _ h.own h.begins) (h.longest _ _ hother.own hother.begins)
  obtain rfl : t = u := List.IsPrefix.eq_of_length
    (prefix_of_prefix_length_le h.begins hother.begins hlength.le) hlength
  refine ⟨?_, rfl⟩
  rcases h.preferred other? hother.own with rfl | ⟨rfl, rfl⟩
  · rfl
  · rcases hother.preferred _ h.own with h | ⟨h, -⟩ <;> cases h

theorem Longest.not_matches_append {token? : Option Token} {u : Text}
    (h : Longest token? t (t ++ rest)) (hu : u <+: rest) (hne : u ≠ []) (other : Option Token) :
    ¬ Matches other (t ++ u) := by
  intro hmatch
  have hle := h.longest other (t ++ u) hmatch ((prefix_append_right_inj t).mpr hu)
  have hpos := length_pos_of_ne_nil hne
  rw [length_append] at hle
  omega

/-! ## Slices of a line -/

/-- A part of a line, the index of its first character, and the token it makes if it is not
skipped. -/
structure Slice where
  token? : Option Token
  start : Nat
  text : Text

namespace Slice

def lexeme? (slice : Slice) : Option Lexeme := slice.token?.map (⟨·, slice.start⟩)

def texts (slices : List Slice) : Text := slices.flatMap (·.text)

@[simp] theorem texts_nil : texts [] = [] := rfl

@[simp] theorem texts_cons (slice : Slice) (slices : List Slice) :
    texts (slice :: slices) = slice.text ++ texts slices := rfl

@[simp] theorem texts_append (front back : List Slice) :
    texts (front ++ back) = texts front ++ texts back := flatMap_append

end Slice

open Slice (texts texts_cons texts_append)

/-- A text is cut into slices, each the longest match where the last one ends. -/
inductive Sliced : Nat → Text → List Slice → Prop where
  | nil (start : Nat) : Sliced start [] []
  | cons {token? : Option Token} {start : Nat} {t rest : Text} {slices : List Slice}
      (h : Longest token? t (t ++ rest)) (hrest : Sliced (start + t.length) rest slices) :
      Sliced start (t ++ rest) (⟨token?, start, t⟩ :: slices)

theorem exists_sliced (start : Nat) (s : Text) :
    ∃ slices, Sliced start s slices ∧ slices.filterMap Slice.lexeme? = scanFrom start s := by
  induction hn : s.length using Nat.strongRecOn generalizing start s with
  | _ n ih =>
    cases s with
    | nil => exact ⟨[], .nil start, by simp [scanFrom]⟩
    | cons c rest =>
      have hpos := munch_pos c rest
      have hlength : ((c :: rest).take (munch c rest).1).length = (munch c rest).1 :=
        length_take_of_le (munch_le c rest)
      obtain ⟨slices, hslices, hscan⟩ := ih ((c :: rest).drop (munch c rest).1).length
        (by rw [← hn, length_drop, length_cons]; omega) (start + (munch c rest).1) _ rfl
      refine ⟨⟨(munch c rest).2, start, (c :: rest).take (munch c rest).1⟩ :: slices, ?_, ?_⟩
      · have hsliced : Sliced start
            ((c :: rest).take (munch c rest).1 ++ (c :: rest).drop (munch c rest).1) _ :=
          .cons (by rw [take_append_drop]; exact longest_munch c rest)
            (by rw [hlength]; exact hslices)
        rwa [take_append_drop] at hsliced
      · rw [← drop_pred c rest hpos] at hscan
        rw [scanFrom]
        generalize munch c rest = munched at hscan ⊢
        rcases munched with ⟨size, token | token⟩
        · exact hscan
        · exact congrArg (_ :: ·) hscan

namespace Sliced

variable {start : Nat} {s : Text} {slices : List Slice}

theorem unique (h : Sliced start s slices) {others : List Slice} (hothers : Sliced start s others) :
    others = slices := by
  induction h generalizing others with
  | nil start =>
    generalize hs : ([] : Text) = s at hothers
    cases hothers with
    | nil => rfl
    | cons h => exact absurd (append_eq_nil_iff.mp hs.symm).1 h.own.ne_nil
  | @cons token? start t rest slices h hrest ih =>
    generalize hs : t ++ rest = s at hothers
    cases hothers with
    | nil => exact absurd (append_eq_nil_iff.mp hs).1 h.own.ne_nil
    | @cons other? _ u later others hother hlater =>
      rw [← hs] at hother
      obtain ⟨rfl, rfl⟩ := h.unique hother
      obtain rfl := append_cancel_left hs
      rw [ih hlater]

theorem texts_eq (h : Sliced start s slices) : texts slices = s := by
  induction h with
  | nil => rfl
  | @cons token? start t rest slices h hrest ih => rw [← ih]; rfl

variable {back front : List Slice}

theorem at_place (h : Sliced start s slices) {slice : Slice}
    (hslices : slices = front ++ slice :: back) :
    slice.start = start + (texts front).length ∧
      Longest slice.token? slice.text (slice.text ++ texts back) := by
  induction h generalizing front with
  | nil => simp at hslices
  | @cons token? start t rest slices h hrest ih =>
    cases front with
    | nil =>
      obtain ⟨rfl, rfl⟩ := List.cons.inj hslices
      exact ⟨rfl, hrest.texts_eq ▸ h⟩
    | cons first front =>
      obtain ⟨rfl, hrest⟩ := List.cons.inj hslices
      obtain ⟨hstart, hlongest⟩ := ih hrest
      refine ⟨?_, hlongest⟩
      rw [hstart, texts_cons, length_append, Nat.add_assoc]

theorem exists_last (h : Sliced start s (front ++ back)) (hc : (texts front).getLast? = some c) :
    ∃ (init : List Slice) (last : Slice), front = init ++ [last] ∧ last.text.getLast? = some c ∧
      Longest last.token? last.text (last.text ++ texts back) := by
  rcases eq_nil_or_concat' front with rfl | ⟨init, last, rfl⟩
  · cases hc
  · obtain ⟨-, hlongest⟩ := h.at_place (append_assoc init [last] back)
    refine ⟨init, last, rfl, ?_, hlongest⟩
    have htexts : texts (init ++ [last]) = texts init ++ last.text := by simp
    rw [htexts, List.getLast?_append, List.getLast?_eq_some_getLast hlongest.own.ne_nil] at hc
    rw [List.getLast?_eq_some_getLast hlongest.own.ne_nil]
    exact hc

theorem lineBreaks_maximal (h : Sliced start s slices) {slice : Slice}
    (hslices : slices = front ++ slice :: back) (hnone : slice.token? = none) :
    (∀ c ∈ slice.text, isLineBreak c = true) ∧
      (∀ c, (texts front).getLast? = some c → isLineBreak c = false) ∧
      ∀ c, (texts back).head? = some c → isLineBreak c = false := by
  obtain ⟨-, hlongest⟩ := h.at_place hslices
  have hown := hlongest.own
  rw [hnone] at hown
  refine ⟨fun c hc => isLineBreak_iff.mpr (hown.2 c hc), fun c hc => ?_, fun c hc => ?_⟩
  · by_contra hbreak
    obtain ⟨init, last, rfl, hlast, hlonger⟩ := (hslices ▸ h).exists_last hc
    have htoken := hlonger.own.eq_none (mem_of_getLast? hlast) (by simpa using hbreak)
    have hbreaks := hlonger.own
    rw [htoken] at hbreaks
    refine hlonger.not_matches_append (prefix_append slice.text _) hown.1 none ?_
    exact ⟨by simp [hown.1], fun d hd => (mem_append.mp hd).elim (hbreaks.2 d) (hown.2 d)⟩
  · by_contra hbreak
    obtain ⟨more, hmore⟩ := List.head?_eq_some_iff.mp hc
    refine hlongest.not_matches_append ⟨more, (singleton_append).trans hmore.symm⟩
      (cons_ne_nil c []) none ⟨by simp, fun d hd => ?_⟩
    rcases mem_append.mp hd with hd | hd
    · exact hown.2 d hd
    · rw [mem_singleton.mp hd]
      exact isLineBreak_iff.mp (by simpa using hbreak)

theorem exists_slice (h : Sliced start s slices) {before after : Text}
    (hs : s = before ++ c :: after) :
    ∃ (front : List Slice) (slice : Slice) (back : List Slice) (head tail : Text),
      slices = front ++ slice :: back ∧ slice.text = head ++ c :: tail ∧
        before = texts front ++ head := by
  induction h generalizing before with
  | nil => simp at hs
  | @cons token? start t rest slices h hrest ih =>
    rcases append_eq_append_iff.mp hs with ⟨more, rfl, hrest⟩ | ⟨more, ht, hmore⟩
    · obtain ⟨front, slice, back, head, tail, rfl, htext, rfl⟩ := ih hrest
      exact ⟨_ :: front, slice, back, head, tail, rfl, htext, by simp⟩
    · cases more with
      | nil =>
        have hrest' : rest = [] ++ c :: after := hmore.symm
        obtain ⟨front, slice, back, head, tail, rfl, htext, hnil⟩ := ih hrest'
        refine ⟨_ :: front, slice, back, head, tail, rfl, htext, ?_⟩
        rw [texts_cons, append_assoc, ← hnil, ht]
        simp
      | cons d more =>
        obtain ⟨rfl, rfl⟩ := List.cons.inj hmore
        exact ⟨[], _, slices, before, more, rfl, ht, rfl⟩

/-- A character that is a token of its own makes that token wherever it stands, but not as a quote
with a backslash right before it. -/
theorem special_mem_iff (h : Sliced start s slices) {before after : Text}
    (hs : s = before ++ c :: after) (hc : (c, token) ∈ specials) :
    ⟨token, start + before.length⟩ ∈ slices.filterMap Slice.lexeme? ↔
      ¬ ((c = '"' ∨ c = '\'') ∧ before.getLast? = some '\\') := by
  constructor
  · rintro hmem ⟨hquote, hlast⟩
    obtain ⟨slice, hslice, hlexeme⟩ := mem_filterMap.mp hmem
    obtain ⟨front, back, rfl⟩ := append_of_mem hslice
    obtain ⟨hstart, -⟩ := h.at_place rfl
    have hplace : slice.start = start + before.length := by
      obtain ⟨other, -, heq⟩ := Option.map_eq_some_iff.mp hlexeme
      exact (Lexeme.mk.inj heq).2
    have htexts := h.texts_eq
    rw [texts_append, hs] at htexts
    obtain ⟨rfl, hback⟩ := append_inj htexts (by omega)
    obtain ⟨init, last, rfl, hend, hlongest⟩ := h.exists_last hlast
    obtain ⟨-, hrun⟩ := hlongest.own.eq_chars (mem_of_getLast? hend)
    rw [hback] at hlongest
    exact hlongest.not_matches_append ⟨after, rfl⟩ (cons_ne_nil c [])
      (some (chars (last.text ++ [c]))) ⟨rfl, by simp, hrun.append_quote hend hquote⟩
  · intro hplain
    obtain ⟨front, slice, back, head, tail, rfl, htext, rfl⟩ := h.exists_slice hs
    obtain ⟨hstart, hlongest⟩ := h.at_place rfl
    rcases hlongest.own.special_cases htext hc with ⟨htoken, rfl⟩ | ⟨-, hquote, hlast⟩
    · refine mem_filterMap.mpr ⟨slice, by simp, ?_⟩
      rw [Slice.lexeme?, htoken, hstart, append_nil]
      rfl
    · refine absurd ⟨hquote, ?_⟩ hplain
      rw [List.getLast?_append, hlast]
      rfl

end Sliced

theorem matches_of_mem_scan {line : Text} {lexeme : Lexeme} (h : lexeme ∈ scan line) :
    Matches (some lexeme.token) lexeme.token.text ∧ lexeme.token.text <:+: line := by
  obtain ⟨slices, hsliced, hscan⟩ := exists_sliced 0 line
  rw [scan, ← hscan] at h
  obtain ⟨slice, hslice, hmap⟩ := mem_filterMap.mp h
  obtain ⟨front, back, rfl⟩ := append_of_mem hslice
  obtain ⟨token, htoken, rfl⟩ := Option.map_eq_some_iff.mp hmap
  have hmatch : Matches (some token) slice.text := htoken ▸ (hsliced.at_place rfl).2.own
  have htexts := hsliced.texts_eq
  rw [texts_append, texts_cons, ← append_assoc] at htexts
  dsimp only
  rw [hmatch.text_eq]
  exact ⟨hmatch, texts front, texts back, htexts⟩

/-- A line is cut in one way into slices that are each the longest match at their place. They are
not empty, make up the line one after another, and their tokens with their places are the scan of
the line. What is skipped are the whole runs of line breaks. Each character that is a token of its
own makes that token, but for quotes right behind a backslash; blanks hold spaces and tabs, and
runs of characters no reserved character but such quotes. -/
theorem scan_longest_matches (line : Text) :
    ∃ slices, Sliced 0 line slices ∧ (∀ others, Sliced 0 line others → others = slices) ∧
      scan line = slices.filterMap Slice.lexeme? ∧
      texts slices = line ∧
      (∀ front slice back, slices = front ++ slice :: back →
        slice.text ≠ [] ∧ slice.start = (texts front).length ∧
        (∀ token, slice.token? = some token → token.text = slice.text) ∧
        (slice.token? = none → (∀ c ∈ slice.text, isLineBreak c = true) ∧
          (∀ c, (texts front).getLast? = some c → isLineBreak c = false) ∧
          ∀ c, (texts back).head? = some c → isLineBreak c = false)) ∧
      (∀ before c after token, line = before ++ c :: after → (c, token) ∈ specials →
        (⟨token, before.length⟩ ∈ scan line ↔
          ¬ ((c = '"' ∨ c = '\'') ∧ before.getLast? = some '\\'))) ∧
      (∀ t start, ⟨space t, start⟩ ∈ scan line → ∀ c ∈ t, c = ' ' ∨ c = '\t') ∧
      ∀ t start, ⟨chars t, start⟩ ∈ scan line → ∀ front c back, t = front ++ c :: back →
        c ∉ reserved ∨ (c = '"' ∨ c = '\'') ∧ front.getLast? = some '\\' := by
  obtain ⟨slices, hsliced, hscan⟩ := exists_sliced 0 line
  refine ⟨slices, hsliced, fun others => hsliced.unique, hscan.symm, hsliced.texts_eq, ?_, ?_, ?_,
    ?_⟩
  · intro front slice back hslices
    obtain ⟨hstart, hlongest⟩ := hsliced.at_place hslices
    refine ⟨hlongest.own.ne_nil, by simpa using hstart, fun token htoken => ?_,
      hsliced.lineBreaks_maximal hslices⟩
    exact Matches.text_eq (htoken ▸ hlongest.own)
  · intro before c after token hline hc
    have hspecial := hsliced.special_mem_iff hline hc
    rwa [Nat.zero_add, hscan] at hspecial
  · intro t start ht c hc
    obtain ⟨-, -, hblank⟩ := (matches_of_mem_scan ht).1
    exact hblank c hc
  · intro t start ht front c back hcut
    obtain ⟨-, -, hrun⟩ := (matches_of_mem_scan ht).1
    by_cases hc : c ∈ reserved
    · exact .inr (hrun.escaped_of_reserved hcut hc)
    · exact .inl hc

/-- A tab alone is a blank, and before a letter it is part of a run of characters. -/
example : scan "\t a\t\n\tb".toList =
    [⟨space "\t ".toList, 0⟩, ⟨chars "a\t".toList, 2⟩, ⟨chars "\tb".toList, 5⟩] := by cbv

end CommandShell.Token

import CommandShell.Proofs.Token.LongestMatch
import CommandShell.Proofs.Void.Arguments

/-!
# The targets of redirects

The file of a redirect is named by the word as it stands in the line, while an argument is what
the word stands for. A word can only get shorter when its quotes and backslashes are taken away,
so the two are the same exactly if there is nothing to take away: the word has no quote in it and
no two backslashes side by side.
-/

namespace CommandShell

namespace Token

theorem IsRun.append_plain {t : Text} (h : IsRun t) {c : Char} (hc : c ∉ reserved) :
    IsRun (t ++ [c]) := by
  induction h with
  | nil => exact .plain hc .nil
  | plain hd _ ih => exact .plain hd ih
  | escaped hq _ ih => exact .escaped hq ih

theorem IsRun.exists_escape {t : Text} (h : IsRun t) : ∃ s, t = Line.escape s := by
  induction h with
  | nil => exact ⟨[], rfl⟩
  | @plain c t hc h ih =>
    obtain ⟨s, rfl⟩ := ih
    refine ⟨c :: s, (Line.mark_cons_of_neg ?_ s).symm⟩
    by_contra hquote
    simp only [Line.isQuote, Bool.not_eq_false, Bool.or_eq_true, decide_eq_true_eq] at hquote
    rcases hquote with rfl | rfl <;> exact hc (by decide)
  | @escaped q t hq h ih =>
    obtain ⟨s, rfl⟩ := ih
    exact ⟨q :: s, (Line.mark_cons_of_pos (by rcases hq with rfl | rfl <;> rfl) s).symm⟩

theorem isRun_of_mem_ofLine {s t : Text} (h : .chars t ∈ ofLine s) : IsRun t ∧ t <:+: s := by
  obtain ⟨lexeme, hlexeme, htoken⟩ := List.mem_map.mp h
  have hmatch := matches_of_mem_scan hlexeme
  rw [htoken] at hmatch
  exact ⟨hmatch.1.2.2, hmatch.2⟩

theorem exists_run_of_pair {s : Text} (h : ['\\', '\\'] <:+: s) :
    ∃ t, .chars t ∈ ofLine s ∧ ['\\', '\\'] <:+: t := by
  obtain ⟨before, after, hs⟩ := h
  obtain ⟨slices, hsliced, hscan⟩ := exists_sliced 0 s
  have hcut : s = before ++ '\\' :: '\\' :: after := by simpa using hs.symm
  obtain ⟨front, slice, back, head, tail, rfl, htext, rfl⟩ := hsliced.exists_slice hcut
  obtain ⟨-, hlongest⟩ := hsliced.at_place rfl
  obtain ⟨htoken, hrun⟩ := hlongest.own.eq_chars (by simp [htext])
  have hrest : tail ++ Slice.texts back = '\\' :: after := by
    have htexts := hsliced.texts_eq
    rw [hcut, Slice.texts_append, Slice.texts_cons, htext] at htexts
    simpa using htexts
  cases tail with
  | nil =>
    -- the second backslash would have been taken as well
    refine absurd ⟨rfl, by simp, hrun.append_plain (by decide : '\\' ∉ reserved)⟩
      (hlongest.not_matches_append ⟨after, ?_⟩ (List.cons_ne_nil '\\' [])
        (some (chars (slice.text ++ ['\\']))))
    exact hrest.symm
  | cons c tail =>
    obtain ⟨rfl, -⟩ := List.cons.inj hrest
    refine ⟨slice.text, List.mem_map.mpr ⟨⟨.chars slice.text, slice.start⟩, ?_, rfl⟩, head, tail,
      by simp [htext]⟩
    rw [scan, ← hscan]
    exact List.mem_filterMap.mpr ⟨slice, by simp, by rw [Slice.lexeme?, htoken]; rfl⟩

end Token

namespace Line

open Token (IsRun)

/-! ## Texts that stand for themselves -/

def Bare (s : Text) : Prop := (∀ c ∈ s, isQuote c = false) ∧ ¬ ['\\', '\\'] <:+: s

private theorem length_collapse (s : Text) : (collapse s).length ≤ s.length ∧
    ((collapse s).length = s.length → ¬ ['\\', '\\'] <:+: s) := by
  simpa using length_filter_collapse (p := fun _ => true) rfl s

/-- A run of characters gets shorter unless it stands for itself, and then there is nothing to take
away from it. -/
theorem unescape_run {t : Text} (h : IsRun t) :
    (unescape t).length < t.length ∧ ¬ Bare t ∨ unescape t = t ∧ Bare t := by
  obtain ⟨s, rfl⟩ := h.exists_escape
  obtain ⟨hle, hpair⟩ := length_collapse s
  have hlength : (escape s).length = s.length + s.countP isQuote := length_mark isQuote s
  rw [unescape_escape]
  by_cases hquote : ∀ c ∈ s, isQuote c = false
  · have hself : escape s = s := mark_of_neg hquote
    rw [hself]
    by_cases hinside : ['\\', '\\'] <:+: s
    · exact .inl ⟨Nat.lt_of_le_of_ne hle fun heq => hpair heq hinside, fun hbare => hbare.2 hinside⟩
    · exact .inr ⟨collapse_eq_self hinside, hquote, hinside⟩
  · push Not at hquote
    obtain ⟨c, hc, hquote⟩ := hquote
    have hcount : 0 < s.countP isQuote := List.countP_pos_iff.mpr ⟨c, hc, by simpa using hquote⟩
    have hmem : c ∈ escape s := List.mem_flatMap.mpr ⟨c, hc, by split <;> simp⟩
    exact .inl ⟨by omega, fun hbare => hquote (hbare.1 c hmem)⟩

def BareTokens (ts : List Token) : Prop :=
  (∀ token ∈ ts, ∀ c ∈ token.text, isQuote c = false) ∧
    ∀ t, .chars t ∈ ts → ¬ ['\\', '\\'] <:+: t

@[simp] theorem bareTokens_append {ts us : List Token} :
    BareTokens (ts ++ us) ↔ BareTokens ts ∧ BareTokens us := by
  simp only [BareTokens, List.mem_append, or_imp, forall_and]
  tauto

private theorem isLineBreak_of_isQuote {c : Char} (h : isQuote c = true) :
    Token.isLineBreak c = false := by
  simp only [isQuote, Bool.or_eq_true, decide_eq_true_eq] at h
  rcases h with rfl | rfl <;> rfl

theorem bareTokens_ofLine (s : Text) : BareTokens (Token.ofLine s) ↔ Bare s := by
  have hmem : ∀ c, isQuote c = true → (c ∈ s ↔ ∃ token ∈ Token.ofLine s, c ∈ token.text) := by
    intro c hc
    rw [← List.mem_flatMap, Token.text_ofLine, List.mem_filter]
    simp [isLineBreak_of_isQuote hc]
  constructor
  · rintro ⟨hquote, hpair⟩
    refine ⟨fun c hc => ?_, fun hinside => ?_⟩
    · by_contra h
      obtain ⟨token, htoken, hct⟩ := (hmem c (by simpa using h)).mp hc
      exact h (hquote token htoken c hct)
    · obtain ⟨t, ht, hinside⟩ := Token.exists_run_of_pair hinside
      exact hpair t ht hinside
  · rintro ⟨hquote, hpair⟩
    refine ⟨fun token htoken c hc => ?_, fun t ht hinside => ?_⟩
    · by_contra h
      exact h (hquote c ((hmem c (by simpa using h)).mpr ⟨token, htoken, hc⟩))
    · exact hpair (hinside.trans (Token.isRun_of_mem_ofLine ht).2)

/-! ## Words that stand for themselves -/

private theorem Chunk.value_cases (chunk : Chunk) (h : ∀ t, .chars t ∈ chunk.tokens → IsRun t) :
    chunk.value.length < (chunk.tokens.flatMap Token.text).length ∧ ¬ BareTokens chunk.tokens ∨
      chunk.value = chunk.tokens.flatMap Token.text ∧ BareTokens chunk.tokens := by
  cases chunk with
  | chars t =>
    have hbare : BareTokens [.chars t] ↔ Bare t := by simp [BareTokens, Bare, Token.text]
    have htext : [Token.chars t].flatMap Token.text = t := by simp [Token.text]
    rw [Chunk.tokens, hbare, htext]
    exact unescape_run (h t List.mem_cons_self)
  | dash => exact .inr ⟨rfl, by simp [BareTokens, Chunk.tokens, Token.text, isQuote]⟩
  | string quote inside plain =>
    obtain ⟨c, hc, -, hquote⟩ := quote.isQuote_text
    have hlength : (Chunk.value (.string quote inside plain)).length + 2 =
        ((Chunk.tokens (.string quote inside plain)).flatMap Token.text).length := by
      simp [Chunk.value, Chunk.tokens, hc]
    refine .inl ⟨by omega, fun hbare => ?_⟩
    have hfalse := hbare.1 quote.token (by simp [Chunk.tokens]) c (by simp [hc])
    rcases hquote with rfl | rfl <;> simp [isQuote] at hfalse

private theorem Chunk.row_value_cases (chunks : List Chunk)
    (h : ∀ t, .chars t ∈ Chunk.row chunks → IsRun t) :
    (chunks.flatMap Chunk.value).length < ((Chunk.row chunks).flatMap Token.text).length ∧
        ¬ BareTokens (Chunk.row chunks) ∨
      chunks.flatMap Chunk.value = (Chunk.row chunks).flatMap Token.text ∧
        BareTokens (Chunk.row chunks) := by
  induction chunks with
  | nil => exact .inr ⟨rfl, by simp [BareTokens]⟩
  | cons chunk chunks ih =>
    have hfirst := chunk.value_cases fun t ht => h t (by simp [ht])
    have hrest := ih fun t ht => h t (by simp [ht])
    rw [Chunk.row_cons, List.flatMap_cons, List.flatMap_append, bareTokens_append,
      List.length_append, List.length_append]
    rcases hfirst with ⟨hlt, hbare⟩ | ⟨heq, hbare⟩ <;>
      rcases hrest with ⟨hlt', hbare'⟩ | ⟨heq', hbare'⟩
    · exact .inl ⟨by omega, fun h => hbare h.1⟩
    · exact .inl ⟨by rw [heq']; omega, fun h => hbare h.1⟩
    · exact .inl ⟨by rw [heq]; omega, fun h => hbare' h.2⟩
    · exact .inr ⟨by rw [heq, heq'], hbare, hbare'⟩

/-- The file of a redirect is named by its target as it stands in the line, but for line breaks. It
is what the target stands for as an argument exactly if there is no quote in the target and there
are no two backslashes side by side. -/
theorem redirect_target_eq_value_iff (t : WordText) :
    ∃ file value, t.word.value = .ok value ∧
      file = t.text.filter (!Token.isLineBreak ·) ∧
      (∀ {κ : Type} (simple : Simple κ) (gap : Option Text),
        (Redirect.mk .input gap t.word).wrap simple = .redirect (some file) none simple ∧
        (Redirect.mk .output gap t.word).wrap simple = .redirect none (some file) simple) ∧
      (file = value ↔
        (∀ c ∈ t.text, c ≠ '"' ∧ c ≠ '\'') ∧ ¬ ['\\', '\\'] <:+: t.text) := by
  obtain ⟨chunks, hchunks, -⟩ := t.exists_chunks
  have htokens : t.word.tree.tokens = Chunk.row chunks := t.tokens_eq.symm.trans hchunks
  have hfile : t.word.text = t.text.filter (!Token.isLineBreak ·) := by
    rw [← Token.text_ofLine, t.tokens_eq]
    rfl
  have hbare : Bare t.text ↔
      (∀ c ∈ t.text, c ≠ '"' ∧ c ≠ '\'') ∧ ¬ ['\\', '\\'] <:+: t.text := by
    simp [Bare, isQuote]
  refine ⟨t.word.text, _, Word.value_of_chunks htokens, hfile, fun simple gap => ⟨rfl, rfl⟩, ?_⟩
  have hrow := Chunk.row_value_cases chunks fun u hu =>
    (Token.isRun_of_mem_ofLine (hchunks ▸ hu)).1
  rw [← hbare, ← bareTokens_ofLine, hfile, ← Token.text_ofLine, hchunks]
  rcases hrow with ⟨hlt, hnot⟩ | ⟨heq, hyes⟩
  · refine ⟨fun h => absurd (congrArg List.length h) (Nat.ne_of_gt hlt), fun h => absurd h hnot⟩
  · exact ⟨fun _ => hyes, fun _ => heq.symm⟩

def quotedTarget : WordText where
  text := "\"f\"".toList
  word := .strings (.one (.mk .double (.literal (.chars ['f']) .done)))
  plain := by decide
  tokens_eq := by decide +kernel

/-- A word in quotes names another file than what it stands for. -/
theorem redirect_quotedTarget : ∃ file value, quotedTarget.word.value = .ok value ∧
    (∀ gap, (Redirect.mk .output gap quotedTarget.word).wrap (.command Utility.echo [] []) =
      .redirect none (some file) (.command .echo [] [])) ∧ file ≠ value := by
  obtain ⟨file, value, hvalue, -, hwrap, hiff⟩ := redirect_target_eq_value_iff quotedTarget
  refine ⟨file, value, hvalue, fun gap => (hwrap _ gap).2, fun hsame => ?_⟩
  exact ((hiff.mp hsame).1 '"' (by decide)).1 rfl

/-- The quotes around a target are part of the name of its file, and those around an argument are
not. -/
theorem plan_quoted_target :
    plan utilities ⟨.dir [], [], []⟩ "echo > \"f\" \"f\"".toList =
      .ok (.simple (.redirect none (some "\"f\"".toList) (.command .echo [] [['f']]))) := by
  have hread : Script.ofLine? "echo > \"f\" \"f\"".toList = some ⟨some (.command (.mk .done
      (.chars "echo".toList) (.redirect [[' ']] (.mk .output (some [' ']) quotedTarget.word)
        (.modifier [' '] (.arg quotedTarget.word) .done)))), []⟩ := by decide +kernel
  rw [plan_of_command _ _ hread, Command.plan_utility .echo rfl]
  cbv

end Line

end CommandShell

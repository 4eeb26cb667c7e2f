import CommandShell.Proofs.Chart.PreferredReading
import CommandShell.Proofs.Flag.Assignment
import CommandShell.Proofs.Line.WordValues
import CommandShell.Proofs.Plan.Shape

/-!
# Where redirects stand

A redirect may stand before the name of a command, between its words, or between a flag and its
value. Its place makes no difference to the plan: the redirects are put around the command in their
own order, and the words are read as if no redirects stood between them. Two things set the place
before the name apart. A target there has to be compact, or the command takes its name from the
target. And a name that begins with a tab loses it after a redirect.
-/

namespace CommandShell.Line

open Readings List

/-! ## Redirects and words as tokens -/

theorem Chunk.backquote_not_mem (chunk : Chunk) : .backquote ∉ chunk.tokens := by
  cases chunk with
  | chars text => simp [tokens]
  | dash => simp [tokens]
  | string quote inside plain =>
    have hquote : Token.backquote ≠ quote.token := by cases quote <;> rintro ⟨⟩
    simp only [tokens, mem_cons, mem_append, not_mem_nil, or_false, not_or]
    exact ⟨hquote, fun h => (plain _ h).2 rfl, hquote⟩

variable {κ : Type} {chunks : List Chunk} {ts : List Token} {e : Ending} {l t : Text}

theorem Chunk.row_ne_nil (h : chunks ≠ []) : row chunks ≠ [] := by
  intro hrow
  exact row_not_stopped h [] (by rw [hrow]; exact .nil)

theorem Chunk.endsSolid_row (h : chunks ≠ []) : EndsSolid (row chunks) := by
  rcases eq_nil_or_concat chunks with rfl | ⟨front, last, rfl⟩
  · exact absurd rfl h
  · rw [concat_eq_append, row_append, row_cons, row_nil, append_nil]
    apply EndsSolid.append_left
    cases last with
    | chars text => exact .one rfl
    | dash => exact .one rfl
    | string quote inside plain =>
      exact (EndsSolid.one (by cases quote <;> rfl)).append_left (quote.token :: inside)

theorem Chunk.backquote_not_mem_row (chunks : List Chunk) : .backquote ∉ row chunks := by
  intro h
  obtain ⟨chunk, -, hmem⟩ := mem_flatMap.mp h
  exact chunk.backquote_not_mem hmem

theorem backquote_not_mem_redirectTokens (direction : Direction) (gap : Option Text)
    (target : List Chunk) : .backquote ∉ redirectTokens direction gap target := by
  have htarget := Chunk.backquote_not_mem_row target
  cases direction <;> cases gap <;>
    simpa [redirectTokens, Direction.token, gapTokens] using htarget

theorem Redirect.tokens_mk (direction : Direction) (gap : Option Text) (target : Word) :
    (Redirect.mk direction gap target).tree.tokens =
      direction.token :: (gapTokens gap ++ target.tree.tokens) := by
  cases gap <;> simp [gapLeaves, gapTokens, spaceLeaf]

theorem Redirect.stopped (r : Redirect) (ts : List Token) : Stopped (r.tree.tokens ++ ts) := by
  obtain ⟨direction, gap, target⟩ := r
  rw [Redirect.tokens_mk]
  exact .cons (by cases direction <;> rfl) _

def Redirect.isCompact : Redirect → Bool
  | .mk _ _ target => target.isCompact

theorem Redirect.exists_tokens (r : Redirect) (h : .backquote ∉ r.tree.tokens) :
    ∃ direction gap target, r.tree.tokens = redirectTokens direction gap target ∧ target ≠ [] ∧
      (r.isCompact → Compact target) := by
  obtain ⟨direction, gap, word⟩ := r
  rw [Redirect.tokens_mk, mem_cons, mem_append, not_or, not_or] at h
  obtain ⟨target, htarget, hne, hcompact⟩ := word.exists_chunks h.2.2
  exact ⟨direction, gap, target, by rw [Redirect.tokens_mk, htarget, redirectTokens], hne,
    hcompact⟩

theorem Direction.token_injective : Function.Injective Direction.token := by
  intro direction direction' h
  cases direction <;> cases direction' <;> simp_all [Direction.token]

private theorem gapTokens_cancel {gap gap' : Option Text} {ts' : List Token}
    (hts : ∀ text later, ts ≠ .space text :: later)
    (hts' : ∀ text later, ts' ≠ .space text :: later)
    (h : gapTokens gap ++ ts = gapTokens gap' ++ ts') : gap = gap' ∧ ts = ts' := by
  cases gap with
  | none =>
    cases gap' with
    | none => exact ⟨rfl, h⟩
    | some text => exact absurd h (hts text ts')
  | some text =>
    cases gap' with
    | none => exact absurd h.symm (hts' text ts)
    | some text' =>
      obtain ⟨htoken, hrest⟩ := List.cons.inj h
      cases htoken
      exact ⟨rfl, hrest⟩

theorem redirectTokens_cancel {direction direction' : Direction} {gap gap' : Option Text}
    {target target' : List Chunk} {rest rest' : List Token} (hne : target ≠ [])
    (hne' : target' ≠ []) (hrest : Stopped rest) (hrest' : Stopped rest')
    (h : redirectTokens direction gap target ++ rest =
      redirectTokens direction' gap' target' ++ rest') :
    direction = direction' ∧ gap = gap' ∧ Chunk.row target = Chunk.row target' ∧ rest = rest' := by
  rw [redirectTokens, redirectTokens, cons_append, cons_append, append_assoc,
    append_assoc] at h
  obtain ⟨hdirection, htail⟩ := List.cons.inj h
  obtain ⟨hgap, htarget⟩ := gapTokens_cancel (Chunk.row_ne_space hne rest)
    (Chunk.row_ne_space hne' rest') htail
  exact ⟨Direction.token_injective hdirection, hgap, Chunk.row_cancel hrest hrest' htarget⟩

theorem Modifier.exists_chunks (m : Modifier) (h : .backquote ∉ m.tree.tokens) :
    ∃ chunks, m.tree.tokens = Chunk.row chunks ∧ chunks ≠ [] := by
  cases m with
  | flag name =>
    simp only [Modifier.tree, Tree.tokens, Tree.tokensOf, append_nil, mem_append,
      not_or] at h ⊢
    obtain ⟨chunks, hchunks, -⟩ := name.exists_chunks h.2
    exact ⟨.dash :: chunks, by rw [hchunks]; rfl, by simp⟩
  | arg value =>
    simp only [Modifier.tree, Tree.tokens, Tree.tokensOf, append_nil] at h ⊢
    obtain ⟨chunks, hchunks, hne, -⟩ := value.exists_chunks h
    exact ⟨chunks, hchunks, hne⟩

/-! ## After the name -/

/-- Redirects and words, each after a blank: the tokens of the redirects, those of the words, and
all tokens together. -/
inductive Trail : List (List Token) → List (List Token) → List Token → Prop where
  | nil : Trail [] [] []
  | redirect (text : Text) (direction : Direction) (gap : Option Text) {target : List Chunk}
      (hne : target ≠ []) {redirects words : List (List Token)} {ts : List Token}
      (later : Trail redirects words ts) :
      Trail (redirectTokens direction gap target :: redirects) words
        (.space text :: (redirectTokens direction gap target ++ ts))
  | word (text : Text) {chunks : List Chunk} (hne : chunks ≠ [])
      {redirects words : List (List Token)} {ts : List Token} (later : Trail redirects words ts) :
      Trail redirects (Chunk.row chunks :: words) (.space text :: (Chunk.row chunks ++ ts))

namespace Trail

variable {redirects words : List (List Token)} {ts : List Token}

theorem covers (h : Trail redirects words ts) : Covers (·.ending) ts := by
  induction h with
  | nil => exact covers_ending_nil
  | redirect text direction gap hne _ ih =>
    exact (((Chunk.atoms_row hne).covers_redirect direction gap).spacedRedirect
      [text]).ending_redirect ih
  | word text hne _ ih => exact (Chunk.atoms_row hne).covers_arg.ending_modifier text ih

theorem stopped (h : Trail redirects words ts) : Stopped ts := by
  cases h with
  | nil => exact .nil
  | redirect => exact .cons rfl _
  | word => exact .cons rfl _

theorem backquote_not_mem (h : Trail redirects words ts) : .backquote ∉ ts := by
  induction h with
  | nil => exact not_mem_nil
  | @redirect _ direction gap target _ _ _ _ _ ih =>
    simp [backquote_not_mem_redirectTokens direction gap target, ih]
  | @word _ chunks _ _ _ _ _ ih => simp [Chunk.backquote_not_mem_row chunks, ih]

end Trail

theorem Ending.Reads.stopped {e : Ending} {ts : List Token} (h : e.Reads ts) : Stopped ts := by
  cases h with
  | done => exact .nil
  | redirect spaces first later =>
    cases spaces with
    | nil => exact first.stopped _
    | cons text spaces => exact .cons rfl _
  | modifier text hfirst later => exact .cons rfl _

theorem Ending.Reads.of_space {text : Text} (h : e.Reads (.space text :: ts))
    (hts : ∀ text later, ts ≠ .space text :: later) :
    (∃ first rest d, e = .redirect [text] first rest ∧ rest.Reads d ∧
      ts = first.tree.tokens ++ d) ∨
    ∃ first rest c d, e = .modifier text first rest ∧ first.Reads c ∧ rest.Reads d ∧
      ts = c ++ d := by
  generalize hall : .space text :: ts = all at h
  cases h with
  | done => cases hall
  | @redirect spaces first rest d later =>
    match spaces with
    | [] =>
      obtain ⟨direction, gap, target⟩ := first
      rw [Redirect.tokens_mk] at hall
      cases direction <;> cases (List.cons.inj hall).1
    | [_] =>
      cases hall
      exact .inl ⟨first, rest, d, rfl, later, rfl⟩
    | _ :: next :: spaces => exact absurd (List.cons.inj hall).2 (hts next _)
  | @modifier _ first c hfirst rest d later =>
    cases hall
    exact .inr ⟨first, rest, c, d, rfl, hfirst, later, rfl⟩

theorem redirectTokens_stopped (direction : Direction) (gap : Option Text) (target : List Chunk)
    (ts : List Token) : Stopped (redirectTokens direction gap target ++ ts) :=
  .cons (by cases direction <;> rfl) _

private theorem redirectTokens_ne_space (direction : Direction) (gap : Option Text)
    (target : List Chunk) (ts : List Token) (text : Text) (later : List Token) :
    redirectTokens direction gap target ++ ts ≠ .space text :: later := by
  cases direction <;> exact nofun

theorem Ending.reads_of_mem (h : (e, 0) ∈ (Row.ofTokens ts).ending) : e.Reads ts := by
  rw [← append_nil ts] at h
  exact (Row.reads_ending (ts ++ [])).taken h

theorem Trail.ending {redirects words : List (List Token)} (h : Trail redirects words ts)
    (he : e.Reads ts) :
    e.redirects.map (·.tree.tokens) = redirects ∧
      List.Forall₂ Modifier.Reads e.modifiers words := by
  induction h generalizing e with
  | nil =>
    generalize hall : ([] : List Token) = all at he
    cases he with
    | done => exact ⟨rfl, .nil⟩
    | redirect spaces first later =>
      exact absurd hall.symm (by simp [first.tokens_ne_nil])
    | modifier => cases hall
  | @redirect text direction gap target hne redirects words ts later ih =>
    have hplain : .backquote ∉ redirectTokens direction gap target ++ ts := by
      simp [backquote_not_mem_redirectTokens direction gap target, later.backquote_not_mem]
    rcases he.of_space (redirectTokens_ne_space direction gap target ts) with
      ⟨first, rest, d, rfl, hrest, hts⟩ | ⟨first, rest, c, d, rfl, hfirst, hrest, hts⟩
    · rw [hts, mem_append, not_or] at hplain
      obtain ⟨direction', gap', target', hfirst, hne', -⟩ := first.exists_tokens hplain.1
      rw [hfirst] at hts
      obtain ⟨rfl, rfl, htarget, rfl⟩ := redirectTokens_cancel hne hne' later.stopped
        hrest.stopped hts
      obtain ⟨hredirects, hmodifiers⟩ := ih hrest
      refine ⟨?_, hmodifiers⟩
      rw [Ending.redirects, map_cons, hredirects, hfirst, redirectTokens, redirectTokens,
        htarget]
    · -- no word begins with the token of a redirect
      rw [hts, mem_append, not_or, ← hfirst.tokens_eq] at hplain
      obtain ⟨chunks, hchunks, hne'⟩ := first.exists_chunks hplain.1
      rw [← hfirst.tokens_eq, hchunks] at hts
      exact absurd (hts ▸ redirectTokens_stopped direction gap target ts)
        (Chunk.row_not_stopped hne' d)
  | @word text chunks hne redirects words ts later ih =>
    have hplain : .backquote ∉ Chunk.row chunks ++ ts := by
      simp [Chunk.backquote_not_mem_row chunks, later.backquote_not_mem]
    rcases he.of_space (Chunk.row_ne_space hne ts) with
      ⟨first, rest, d, rfl, hrest, hts⟩ | ⟨first, rest, c, d, rfl, hfirst, hrest, hts⟩
    · exact absurd (hts ▸ first.stopped d) (Chunk.row_not_stopped hne ts)
    · rw [hts, mem_append, not_or, ← hfirst.tokens_eq] at hplain
      obtain ⟨chunks', hchunks', -⟩ := first.exists_chunks hplain.1
      rw [← hfirst.tokens_eq, hchunks'] at hts
      obtain ⟨hrow, rfl⟩ := Chunk.row_cancel later.stopped hrest.stopped hts
      obtain ⟨hredirects, hmodifiers⟩ := ih hrest
      refine ⟨hredirects, .cons ?_ hmodifiers⟩
      rwa [hrow, ← hchunks', hfirst.tokens_eq]

/-! ## Before the name -/

/-- Compact redirects with a blank after each of them: the tokens of the redirects, and all tokens
together with those that follow. -/
inductive Front (rest : List Token) : List (List Token) → List Token → Prop where
  | nil : Front rest [] rest
  | cons (direction : Direction) (gap : Option Text) {target : List Chunk} (h : Compact target)
      (text : Text) {redirects : List (List Token)} {ts : List Token}
      (later : Front rest redirects ts) :
      Front rest (redirectTokens direction gap target :: redirects)
        (redirectTokens direction gap target ++ .space text :: ts)

namespace Front

variable {rest : List Token} {redirects : List (List Token)} {ts : List Token}

theorem suffix (h : Front rest redirects ts) : rest <:+ ts := by
  induction h with
  | nil => exact suffix_refl rest
  | cons _ _ _ _ _ ih => exact (ih.trans (suffix_cons _ _)).trans (suffix_append _ _)

theorem pick_opened (h : Front rest redirects ts) {may : Nat → Bool} {name : Word} {left : Nat}
    (hrest : (Row.ofTokens rest).opened.pick may = some ((.done, name), left)) :
    ∃ opening : Opening, opening.redirects.map (·.tree.tokens) = redirects ∧
      (Row.ofTokens ts).opened.pick may = some ((opening, name), left) := by
  induction h with
  | nil => exact ⟨.done, rfl, hrest⟩
  | @cons direction gap target hcompact text redirects ts later ih =>
    obtain ⟨opening, hredirects, hpick⟩ := ih
    have hspace : (Row.ofTokens (.space text :: ts)).opened.pick may =
        some ((.space text opening, name), left) := by
      rw [pick_opened_space, hpick]
      rfl
    obtain ⟨r, hr, hpick⟩ := hcompact.pick_opened direction gap hspace
    exact ⟨_, by simp [Opening.redirects, hr, hredirects], hpick⟩

theorem exists_cons (h : Front rest redirects ts)
    (hrest : ∃ token ts, rest = token :: ts ∧ token.isSpace = false) :
    ∃ token ts', ts = token :: ts' ∧ token.isSpace = false := by
  cases h with
  | nil => exact hrest
  | cons direction gap => exact ⟨direction.token, _, rfl, by cases direction <;> rfl⟩

end Front

private theorem Chunk.row_exists_cons (h : chunks ≠ []) (rest : List Token) :
    ∃ token ts, row chunks ++ rest = token :: ts ∧ token.isSpace = false := by
  obtain ⟨token, ts, hrow, hspace, -⟩ := (atoms_row h).exists_cons
  refine ⟨token, ts ++ rest, by rw [hrow, cons_append], ?_⟩
  cases token with
  | space text => exact absurd rfl (hspace text)
  | _ => rfl

theorem Front.exists_reads (hne : chunks ≠ []) {rest : List Token}
    {redirects redirects' words : List (List Token)}
    (hfront : Front (Chunk.row chunks ++ rest) redirects ts) (htrail : Trail redirects' words rest) :
    ∃ (opening : Opening) (name : Word) (ending : Ending),
      (Command.mk opening name ending).Reads ts ∧
      (opening.redirects ++ ending.redirects).map (·.tree.tokens) = redirects ++ redirects' ∧
      name.tree.tokens = Chunk.row chunks ∧ List.Forall₂ Modifier.Reads ending.modifiers words := by
  obtain ⟨token, ts, rfl, htoken⟩ := hfront.exists_cons (Chunk.row_exists_cons hne rest)
  -- the rest of the line can be read from where a word has ended, and only from there
  have hrows : ∀ taken later, Chunk.row chunks ++ rest = taken ++ later → taken ≠ [] →
      (Chart.ofTokens ts).row later.length = Row.ofTokens later := by
    intro taken later hcut htaken
    apply Chart.row_ofTokens
    apply suffix_of_length_lt ((hcut ▸ suffix_append taken later).trans hfront.suffix)
    have hlength := hfront.suffix.length_le
    have hpos := length_pos_of_ne_nil htaken
    rw [hcut, length_append] at hlength
    omega
  have hrest : ((Chart.ofTokens ts).row rest.length).ending.ends 0 = true := by
    rw [hrows _ rest rfl (Chunk.row_ne_nil hne), ends_iff, ← append_nil rest]
    exact htrail.covers []
  have hmay : ∀ taken later, Chunk.row chunks ++ rest = taken ++ later → taken ≠ [] →
      ((Chart.ofTokens ts).row later.length).ending.ends 0 = true → Stopped later := by
    intro taken later hcut htaken hends
    rw [hrows taken later hcut htaken, ends_iff] at hends
    obtain ⟨e, he⟩ := hends
    exact (Ending.reads_of_mem he).stopped
  have hplain : .backquote ∉ Chunk.row chunks ++ rest := by
    simp [Chunk.backquote_not_mem_row chunks, htrail.backquote_not_mem]
  obtain ⟨name, hname, hpick⟩ := pick_opened_name hne hplain
    (fun k => ((Chart.ofTokens ts).row k).ending.ends 0) hrest htrail.stopped hmay
  obtain ⟨opening, hopening, hpick⟩ := hfront.pick_opened hpick
  obtain ⟨ending, hending, hreads⟩ := reads_of_pick htoken hpick
  rw [hrows _ rest rfl (Chunk.row_ne_nil hne)] at hending
  obtain ⟨hredirects, hmodifiers⟩ := htrail.ending (Ending.reads_of_mem hending)
  exact ⟨opening, name, ending, hreads, by rw [map_append, hopening, hredirects], hname,
    hmodifiers⟩

/-! ## Lines of texts -/

open Token

structure WordText where
  text : Text
  word : Word
  plain : '\x60' ∉ text
  tokens_eq : ofLine text = word.tree.tokens

structure RedirectText where
  text : Text
  redirect : Redirect
  plain : '\x60' ∉ text
  tokens_eq : ofLine text = redirect.tree.tokens

namespace WordText

variable (t : WordText)

/-- The tokens of a word after a space: it has lost the tabs that it began with. -/
def laterTokens : List Token := ofLine (t.text.dropWhile isBlank)

theorem backquote_not_mem : .backquote ∉ t.word.tree.tokens :=
  t.tokens_eq ▸ backquote_not_mem_ofLine t.plain

theorem exists_chunks : ∃ chunks, ofLine t.text = Chunk.row chunks ∧ chunks ≠ [] := by
  obtain ⟨chunks, hchunks, hne, -⟩ := t.word.exists_chunks t.backquote_not_mem
  exact ⟨chunks, t.tokens_eq.trans hchunks, hne⟩

theorem exists_laterChunks : ∃ chunks, t.laterTokens = Chunk.row chunks ∧ chunks ≠ [] := by
  obtain ⟨chunks, hchunks, hne⟩ := t.exists_chunks
  unfold laterTokens
  rcases ofLine_dropWhile t.text with h | ⟨text, h⟩ | ⟨-, text, text', ts, h, h'⟩
  · exact ⟨chunks, by rw [h, hchunks], hne⟩
  · have hspace := Chunk.row_ne_space hne [] text (ofLine (t.text.dropWhile isBlank))
    rw [append_nil, ← hchunks] at hspace
    exact absurd h hspace
  · rw [hchunks] at h
    obtain ⟨first, later, rfl⟩ := exists_cons_of_ne_nil hne
    rw [Chunk.row_cons] at h
    cases first with
    | chars text =>
      rw [h', ← (List.cons.inj h).2]
      exact ⟨.chars text' :: later, rfl, by simp⟩
    | dash => cases (List.cons.inj h).1
    | string quote inside plain => cases quote <;> cases (List.cons.inj h).1

theorem dropWhile_eq (h : t.text.head? ≠ some '\t') : t.text.dropWhile isBlank = t.text := by
  obtain ⟨chunks, hchunks, hne⟩ := t.exists_chunks
  rcases ofLine_dropWhile t.text with hdrop | ⟨text, hspace⟩ | ⟨htab, -⟩
  · exact hdrop
  · rw [hchunks, ← append_nil (Chunk.row chunks)] at hspace
    exact absurd hspace (Chunk.row_ne_space hne [] text _)
  · exact absurd htab h

end WordText

namespace RedirectText

variable (r : RedirectText)

theorem backquote_not_mem : .backquote ∉ r.redirect.tree.tokens :=
  r.tokens_eq ▸ backquote_not_mem_ofLine r.plain

theorem dropWhile_eq : r.text.dropWhile isBlank = r.text := by
  have htokens := r.tokens_eq
  generalize r.redirect = redirect at htokens
  obtain ⟨direction, gap, target⟩ := redirect
  rw [Redirect.tokens_mk] at htokens
  rcases ofLine_dropWhile r.text with h | ⟨text, h⟩ | ⟨-, text, text', ts, h, -⟩
  · exact h
  · rw [htokens] at h
    cases direction <;> cases (List.cons.inj h).1
  · rw [htokens] at h
    cases direction <;> cases (List.cons.inj h).1

theorem text_ne_nil : r.text ≠ [] := by
  intro h
  have htokens := r.tokens_eq
  rw [h, ofLine_nil] at htokens
  exact r.redirect.tokens_ne_nil htokens.symm

end RedirectText

private theorem ofLine_append_solid (h : EndsSolid (ofLine l)) (x : Text) :
    ∃ text, ofLine (l ++ ' ' :: x) = ofLine l ++ .space text :: ofLine (x.dropWhile isBlank) := by
  obtain ⟨ts, hl, b, hx⟩ := ofLine_meet l
  rcases hl with hl | ⟨text, hl⟩
  · exact ⟨_, by rw [hx, hl]⟩
  · cases (h.eq_nil_of_spaces hl : [text] = [])

private theorem dropWhile_join (h : t.dropWhile isBlank ≠ []) (rest : List Text) :
    (Text.join [' '] (t :: rest)).dropWhile isBlank =
      Text.join [' '] (t.dropWhile isBlank :: rest) := by
  cases rest with
  | nil => rfl
  | cons next rest =>
    rw [Text.join_cons_cons, Text.join_cons_cons, append_assoc, append_assoc,
      dropWhile_append, if_neg (by simpa using h)]

theorem ofLine_join_cons (hl : EndsSolid (ofLine l)) (ht : t.dropWhile isBlank ≠ [])
    (rest : List Text) : ∃ text, ofLine (Text.join [' '] (l :: t :: rest)) =
      ofLine l ++ .space text :: ofLine (Text.join [' '] (t.dropWhile isBlank :: rest)) := by
  obtain ⟨text, htext⟩ := ofLine_append_solid hl (Text.join [' '] (t :: rest))
  refine ⟨text, ?_⟩
  rw [Text.join_cons_cons, append_assoc, ← dropWhile_join ht]
  exact htext

theorem ne_nil_of_ofLine_ne_nil (h : ofLine t ≠ []) : t ≠ [] := by
  rintro rfl
  exact h ofLine_nil

/-- The redirects and words after a name, in their own orders. -/
inductive Interleaved : List RedirectText → List WordText → List Text → Prop where
  | nil : Interleaved [] [] []
  | redirect (r : RedirectText) {redirects : List RedirectText} {words : List WordText}
      {texts : List Text} (later : Interleaved redirects words texts) :
      Interleaved (r :: redirects) words (r.text :: texts)
  | word (t : WordText) {redirects : List RedirectText} {words : List WordText}
      {texts : List Text} (later : Interleaved redirects words texts) :
      Interleaved redirects (t :: words) (t.text :: texts)

theorem Interleaved.words (words : List WordText) : Interleaved [] words (words.map (·.text)) := by
  induction words with
  | nil => exact .nil
  | cons t words ih => exact .word t ih

private theorem Interleaved.exists_trail {redirects : List RedirectText} {words : List WordText}
    {texts : List Text} (h : Interleaved redirects words texts) (hl : EndsSolid (ofLine l)) :
    ∃ ts, ofLine (Text.join [' '] (l :: texts)) = ofLine l ++ ts ∧
      Trail (redirects.map (·.redirect.tree.tokens)) (words.map (·.laterTokens)) ts := by
  induction h generalizing l with
  | nil => exact ⟨[], (append_nil _).symm, .nil⟩
  | @redirect r redirects words texts later ih =>
    obtain ⟨direction, gap, target, htarget, hne, -⟩ :=
      r.redirect.exists_tokens r.backquote_not_mem
    have hr : ofLine (r.text.dropWhile isBlank) = r.redirect.tree.tokens := by
      rw [r.dropWhile_eq, r.tokens_eq]
    obtain ⟨text, htext⟩ := ofLine_join_cons hl
      (ne_nil_of_ofLine_ne_nil (hr ▸ r.redirect.tokens_ne_nil)) texts
    obtain ⟨ts, hts, htrail⟩ := ih (hr ▸ r.redirect.endsSolid)
    refine ⟨_, htext, ?_⟩
    rw [hts, hr, map_cons, htarget]
    exact .redirect text direction gap hne htrail
  | @word t redirects words texts later ih =>
    obtain ⟨chunks, hchunks, hne⟩ := t.exists_laterChunks
    obtain ⟨text, htext⟩ := ofLine_join_cons hl
      (ne_nil_of_ofLine_ne_nil (hchunks ▸ Chunk.row_ne_nil hne)) texts
    obtain ⟨ts, hts, htrail⟩ := ih (hchunks ▸ Chunk.endsSolid_row hne)
    refine ⟨_, htext, ?_⟩
    rw [hts, map_cons, ← WordText.laterTokens, hchunks]
    exact .word text hne htrail

private theorem exists_front {front : List RedirectText}
    (hcompact : ∀ r ∈ front, r.redirect.isCompact)
    (hl : front = [] ∨ l.dropWhile isBlank = l) (hne : l ≠ []) (rest : List Text) :
    Front (ofLine (Text.join [' '] (l :: rest))) (front.map (·.redirect.tree.tokens))
      (ofLine (Text.join [' '] (front.map (·.text) ++ l :: rest))) := by
  induction front with
  | nil => exact .nil
  | cons r front ih =>
    have hblank := hl.resolve_left (cons_ne_nil r front)
    have hlater := ih (fun r' hr' => hcompact r' (mem_cons_of_mem _ hr')) (.inr hblank)
    obtain ⟨direction, gap, target, htarget, -, htargetCompact⟩ :=
      r.redirect.exists_tokens r.backquote_not_mem
    have hr : ofLine r.text = redirectTokens direction gap target := r.tokens_eq.trans htarget
    -- what comes next does not begin with a blank
    obtain ⟨next, more, hmore, hnext, hnextne⟩ : ∃ next more,
        front.map (·.text) ++ l :: rest = next :: more ∧ next.dropWhile isBlank = next ∧
          next ≠ [] := by
      cases front with
      | nil => exact ⟨l, rest, rfl, hblank, hne⟩
      | cons r' front => exact ⟨r'.text, _, rfl, r'.dropWhile_eq, r'.text_ne_nil⟩
    obtain ⟨text, htext⟩ := ofLine_join_cons (r.tokens_eq ▸ r.redirect.endsSolid)
      (hnext.symm ▸ hnextne) more
    rw [map_cons, map_cons, cons_append, hmore, htext, hnext, ← hmore, htarget, hr]
    exact .cons direction gap (htargetCompact (hcompact r mem_cons_self)) text hlater

theorem exists_command (front : List RedirectText) (name : WordText) {back : List RedirectText}
    {words : List WordText} {rest : List Text} (hrest : Interleaved back words rest)
    (hcompact : ∀ r ∈ front, r.redirect.isCompact)
    (hname : front = [] ∨ name.text.head? ≠ some '\t') :
    ∃ (opening : Opening) (word : Word) (ending : Ending),
      (Command.mk opening word ending).Reads
        (ofLine (Text.join [' '] (front.map (·.text) ++ name.text :: rest))) ∧
      (opening.redirects ++ ending.redirects).map (·.tree.tokens) =
        (front ++ back).map (·.redirect.tree.tokens) ∧
      word.tree.tokens = ofLine name.text ∧
      List.Forall₂ Modifier.Reads ending.modifiers (words.map (·.laterTokens)) := by
  obtain ⟨chunks, hchunks, hne⟩ := name.exists_chunks
  have hfront := exists_front hcompact (hname.imp_right name.dropWhile_eq)
    (ne_nil_of_ofLine_ne_nil (hchunks ▸ Chunk.row_ne_nil hne)) rest
  obtain ⟨ts, hts, htrail⟩ := hrest.exists_trail (hchunks ▸ Chunk.endsSolid_row hne)
  rw [hts, hchunks] at hfront
  rw [hchunks, map_append]
  exact hfront.exists_reads hne htrail

/-! ## Plans -/

/-- Puts redirects around the command of a plan. -/
def wrapPlan {κ : Type} (redirects : List Redirect) : Plan κ → Plan κ
  | .simple simple => .simple (wrapAll redirects simple)
  | .tolerant plan => .tolerant (wrapPlan redirects plan)
  | plan => plan

theorem wrapPlan_tolerated (redirects : List Redirect) (c : Char) (simple : Simple κ) :
    wrapPlan redirects (tolerated c (.simple simple)) =
      tolerated c (.simple (wrapAll redirects simple)) := by
  unfold tolerated
  split <;> rfl

private theorem Redirect.wrap_eq {r r' : Redirect} (h : r.tree.tokens = r'.tree.tokens)
    (hplain : .backquote ∉ r'.tree.tokens) (simple : Simple κ) :
    r.wrap simple = r'.wrap simple := by
  have hplain' : .backquote ∉ r.tree.tokens := h ▸ hplain
  obtain ⟨direction, gap, word⟩ := r
  obtain ⟨direction', gap', word'⟩ := r'
  rw [Redirect.tokens_mk, mem_cons, mem_append, not_or, not_or] at hplain hplain'
  obtain ⟨target, htarget, hne, -⟩ := word.exists_chunks hplain'.2.2
  obtain ⟨target', htarget', hne', -⟩ := word'.exists_chunks hplain.2.2
  rw [Redirect.tokens_mk, Redirect.tokens_mk, htarget, htarget', ← redirectTokens,
    ← redirectTokens, ← append_nil (redirectTokens direction _ _),
    ← append_nil (redirectTokens direction' _ _)] at h
  obtain ⟨rfl, rfl, hrow, -⟩ := redirectTokens_cancel hne hne' .nil .nil h
  have htext : word.text = word'.text := by
    unfold Word.text Tree.text
    rw [htarget, htarget', hrow]
  cases direction <;> simp only [Redirect.wrap, htext]

theorem wrapAll_eq {rs rs' : List Redirect} (h : rs.map (·.tree.tokens) = rs'.map (·.tree.tokens))
    (hplain : ∀ r ∈ rs', .backquote ∉ r.tree.tokens) (simple : Simple κ) :
    wrapAll rs simple = wrapAll rs' simple := by
  induction rs generalizing rs' simple with
  | nil =>
    obtain rfl : rs' = [] := by simpa using h.symm
    rfl
  | cons r rs ih =>
    cases rs' with
    | nil => cases h
    | cons r' rs' =>
      obtain ⟨hfirst, hlater⟩ := List.cons.inj h
      change wrapAll rs (r.wrap simple) = wrapAll rs' (r'.wrap simple)
      rw [Redirect.wrap_eq hfirst (hplain r' mem_cons_self) simple,
        ih hlater fun r hr => hplain r (mem_cons_of_mem _ hr)]

theorem wrapPlan_eq {rs rs' : List Redirect} (h : rs.map (·.tree.tokens) = rs'.map (·.tree.tokens))
    (hplain : ∀ r ∈ rs', .backquote ∉ r.tree.tokens) (p : Plan κ) :
    wrapPlan rs p = wrapPlan rs' p := by
  induction p with
  | simple simple => exact congrArg Plan.simple (wrapAll_eq h hplain simple)
  | tolerant p ih => exact congrArg Plan.tolerant ih
  | _ => rfl

/-- A value that names no command fails in the same way whatever else the line holds. -/
theorem names_or_fails (catalog : Catalog κ) (w : World) (value : Except Complaint Text) :
    (∃ failure, ∀ opening name ending, name.value = value →
      (Command.mk opening name ending).plan catalog w = .error failure) ∨
    ∃ c rest command, value = .ok (c :: rest) ∧
      catalog.find? (if c = '_' then rest else c :: rest) = some command := by
  cases value with
  | error complaint =>
    refine .inl ⟨.complaint complaint, fun opening name ending hvalue => ?_⟩
    rw [Command.plan, hvalue]
    rfl
  | ok value =>
    cases value with
    | nil =>
      refine .inl ⟨.crash .emptyName, fun opening name ending hvalue => ?_⟩
      rw [Command.plan, hvalue]
      rfl
    | cons c rest =>
      cases hcommand : catalog.find? (if c = '_' then rest else c :: rest) with
      | none =>
        refine .inl ⟨.complaint (.unknownCommand (if c = '_' then rest else c :: rest)),
          fun opening name ending hvalue => ?_⟩
        rw [Command.plan, hvalue]
        dsimp only [orComplain, bind, Except.bind, pure, Except.pure]
        rw [hcommand]
        rfl
      | some command => exact .inr ⟨c, rest, command, rfl, hcommand⟩

private theorem Command.plan_eq_wrapPlan (catalog : Catalog κ) (w : World)
    {opening opening' : Opening}
    {name name' : Word} {ending ending' : Ending} (hname : name.value = name'.value)
    (hmodifiers : ending.modifiers = ending'.modifiers)
    (hbare : opening'.redirects ++ ending'.redirects = []) :
    (Command.mk opening name ending).plan catalog w =
        wrapPlan (opening.redirects ++ ending.redirects) <$>
          (Command.mk opening' name' ending').plan catalog w ∧
      ∀ p, (Command.mk opening' name' ending').plan catalog w = .ok p →
        ∃ c command flags operands,
          p = tolerated c (.simple (.command command flags operands)) := by
  rcases names_or_fails catalog w name'.value with
    ⟨failure, hfails⟩ | ⟨c, rest, command, hvalue, hcommand⟩
  · rw [hfails opening name ending hname, hfails opening' name' ending' rfl]
    exact ⟨rfl, nofun⟩
  · constructor
    · rw [Command.plan_eq_wrapAll (hname.trans hvalue) hcommand,
        Command.plan_eq_wrapAll hvalue hcommand, hbare, hmodifiers]
      generalize (do (← ending'.modifiers.foldlM (Progress.read w (catalog.specification command))
        ⟨.command command [] [], none⟩).finish : Checked (Simple κ)) = simple
      cases simple with
      | error failure => rfl
      | ok simple => exact congrArg Except.ok (wrapPlan_tolerated _ c simple).symm
    · intro p hp
      obtain ⟨-, flags, operands, -, -, rfl⟩ :=
        (Command.plan_eq_ok_iff_assigned hvalue hcommand).mp hp
      rw [hbare]
      exact ⟨c, command, flags, operands, rfl⟩

/-- Redirects may stand anywhere in a line: they are put around the command in their order, the
first one innermost, and all the rest is planned as if they were not there. Those before the name
must have compact targets, and with them the name must not begin with a tab. -/
theorem plan_redirects_anywhere {κ : Type} (catalog : Catalog κ) (w : World)
    (front back : List RedirectText) (name : WordText) (words : List WordText) {rest : List Text}
    (hrest : Interleaved back words rest) (hcompact : ∀ r ∈ front, r.redirect.isCompact)
    (hname : front = [] ∨ name.text.head? ≠ some '\t') :
    plan catalog w (Text.join [' '] (front.map (·.text) ++ name.text :: rest)) =
        wrapPlan ((front ++ back).map (·.redirect)) <$>
          plan catalog w (Text.join [' '] (name.text :: words.map (·.text))) ∧
      ∀ p, plan catalog w (Text.join [' '] (name.text :: words.map (·.text))) = .ok p →
        ∃ c command flags operands,
          p = tolerated c (.simple (.command command flags operands)) := by
  obtain ⟨opening, word, ending, hreads, hredirects, hword, hmodifiers⟩ :=
    exists_command front name hrest hcompact hname
  obtain ⟨opening', word', ending', hreads', hredirects', hword', hmodifiers'⟩ :=
    exists_command [] name (.words words) nofun (.inl rfl)
  have hvalue : word.value = word'.value := by
    have hplain := backquote_not_mem_ofLine name.plain
    rw [word.value_eq (hword ▸ hplain), word'.value_eq (hword' ▸ hplain), hword, hword']
  have hunique : Relator.LeftUnique Modifier.Reads := fun _ _ _ h h' => h.eq h'
  have hsame : ending.modifiers = ending'.modifiers := hunique.forall₂ hmodifiers hmodifiers'
  have hbare : opening'.redirects ++ ending'.redirects = [] := by simpa using hredirects'
  have hwrap : wrapPlan (opening.redirects ++ ending.redirects) =
      (wrapPlan ((front ++ back).map (·.redirect)) : Plan κ → Plan κ) := by
    funext p
    apply wrapPlan_eq
    · rw [hredirects, map_map]
      rfl
    · intro r hr
      obtain ⟨text, -, rfl⟩ := mem_map.mp hr
      exact text.backquote_not_mem
  have hline := plan_of_reads catalog w hreads
  have hbareLine : plan catalog w (Text.join [' '] (name.text :: words.map (·.text))) = _ :=
    plan_of_reads catalog w hreads'
  rw [hline, hbareLine, ← hwrap]
  exact Command.plan_eq_wrapPlan catalog w hvalue hsame hbare

/-- The line `> f"x" echo a < g -b`, with a redirect before the name and one between the words. -/
theorem plan_redirects_anywhere_echo :
    plan utilities ⟨.dir [], [], []⟩ "> f\"x\" echo a < g -b".toList =
      .ok (.simple (.redirect (some ['g']) none (.redirect none (some "f\"x\"".toList)
        (.command .echo [] [['a'], "-b".toList])))) := by
  have hwords := plan_redirects_anywhere utilities ⟨.dir [], [], []⟩
    [⟨"> f\"x\"".toList, .mk .output (some [' ']) (.stringAfter (.chars ['f'])
      (.mk .double (.literal (.chars ['x']) .done))), by decide, by cbv⟩]
    [⟨"< g".toList, .mk .input (some [' ']) (.chars ['g']), by decide, by cbv⟩]
    ⟨"echo".toList, .chars "echo".toList, by decide, by cbv⟩
    [⟨['a'], .chars ['a'], by decide, by cbv⟩,
      ⟨"-b".toList, .dashBefore (.chars ['b']), by decide, by cbv⟩]
    (.word _ (.redirect _ (.word _ .nil))) (by simp [Redirect.isCompact, Word.isCompact])
    (.inr (by decide))
  have hread : Script.ofLine? "echo a -b".toList = some ⟨some (.command (.mk .done
      (.chars "echo".toList) (.modifier [' '] (.arg (.chars ['a'])) (.modifier [' ']
        (.flag (.chars ['b'])) .done)))), []⟩ := by decide +kernel
  have hbare : plan utilities ⟨.dir [], [], []⟩ "echo a -b".toList =
      .ok (.simple (.command .echo [] [['a'], "-b".toList])) := by
    rw [plan_of_command _ _ hread, Command.plan_utility .echo rfl]
    cbv
  exact hwords.1.trans (congrArg _ hbare)

/-- A target before the name that goes on after its first characters gives the command its name,
and a name with a tab in front is another one only where it comes first. -/
theorem plan_redirect_position_matters :
    plan utilities ⟨.dir [], [], []⟩ "> a-b echo hi".toList =
        .error (.complaint (.unknownCommand "-b".toList)) ∧
      plan utilities ⟨.dir [], [], []⟩ "echo > a-b hi".toList =
        .ok (.simple (.redirect none (some "a-b".toList) (.command .echo [] ["hi".toList]))) ∧
      plan utilities ⟨.dir [], [], []⟩ "\techo > f".toList =
        .error (.complaint (.unknownCommand "\techo".toList)) ∧
      plan utilities ⟨.dir [], [], []⟩ "> f \techo".toList =
        .ok (.simple (.redirect none (some ['f']) (.command .echo [] []))) := by
  have hbefore : Script.ofLine? "> a-b echo hi".toList = some ⟨some (.command (.mk
      (.redirect (.mk .output (some [' ']) (.chars ['a'])) .done) (.dashBefore (.chars ['b']))
      (.modifier [' '] (.arg (.chars "echo".toList)) (.modifier [' '] (.arg (.chars "hi".toList))
        .done)))), []⟩ := by decide +kernel
  have hafter : Script.ofLine? "echo > a-b hi".toList = some ⟨some (.command (.mk .done
      (.chars "echo".toList) (.redirect [[' ']] (.mk .output (some [' '])
        (.charsBefore ['a'] (.dashBefore (.chars ['b']))))
        (.modifier [' '] (.arg (.chars "hi".toList)) .done)))), []⟩ := by decide +kernel
  have hfirst : Script.ofLine? "\techo > f".toList = some ⟨some (.command (.mk .done
      (.chars "\techo".toList) (.redirect [[' ']] (.mk .output (some [' ']) (.chars ['f']))
        .done))), []⟩ := by decide +kernel
  have hlater : Script.ofLine? "> f \techo".toList = some ⟨some (.command (.mk
      (.redirect (.mk .output (some [' ']) (.chars ['f'])) (.space " \t".toList .done))
      (.chars "echo".toList) .done)), []⟩ := by decide +kernel
  rw [plan_of_command _ _ hbefore, plan_of_command _ _ hafter, plan_of_command _ _ hfirst,
    plan_of_command _ _ hlater]
  refine ⟨rfl, ?_, rfl, rfl⟩
  rw [Command.plan_utility .echo rfl]
  cbv

end CommandShell.Line

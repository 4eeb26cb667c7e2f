import CommandShell.Proofs.Chart.Soundness

/-!
# Cutting a token list at its separators

A bar or a semicolon separates commands unless it stands between quotes. Without backquotes it
can be told from the tokens alone which separators those are: it is enough to follow the quote
that is open. A token list is cut at them into pieces, and blanks at the ends of a piece do not
count.
-/

namespace CommandShell

open List

namespace Token

def isSpace : Token → Bool
  | space _ => true
  | _ => false

def Separates (token : Token) : Prop := token = bar ∨ token = semicolon

end Token

namespace Line

/-! ## The open quote -/

def Quote.after (open? : Option Quote) (token : Token) : Option Quote :=
  match open? with
  | none => Quote.ofToken? token
  | some quote => if token = quote.token then none else some quote

def openAfter (open? : Option Quote) (ts : List Token) : Option Quote :=
  ts.foldl Quote.after open?

theorem openAfter_cons (open? : Option Quote) (token : Token) (ts : List Token) :
    openAfter open? (token :: ts) = openAfter (Quote.after open? token) ts := rfl

theorem openAfter_append (open? : Option Quote) (ts us : List Token) :
    openAfter open? (ts ++ us) = openAfter (openAfter open? ts) us :=
  foldl_append

@[simp] theorem after_space (open? : Option Quote) (text : Text) :
    Quote.after open? (.space text) = open? := by
  cases open? with
  | none => rfl
  | some quote => cases quote <;> rfl

@[simp] theorem openAfter_spaces (open? : Option Quote) (spaces : List Text) :
    openAfter open? (spaces.map .space) = open? := by
  induction spaces with
  | nil => rfl
  | cons text spaces ih => rw [map_cons, openAfter_cons, after_space, ih]

/-! ## Pieces -/

/-- Cuts a token list at the separators outside quotes. -/
def splitTop (separator : Token) : Option Quote → List Token → List (List Token)
  | _, [] => [[]]
  | open?, token :: ts =>
    if open? = none ∧ token = separator then [] :: splitTop separator none ts
    else (splitTop separator (Quote.after open? token) ts).modifyHead (token :: ·)

theorem after_separator {separator : Token} (h : separator.Separates) :
    Quote.after none separator = none := by
  rcases h with rfl | rfl <;> rfl

variable {token : Token} {ts : List Token}

section Split

variable (separator : Token)

theorem splitTop_cons_of_ne {open? : Option Quote} (h : ¬ (open? = none ∧ token = separator))
    (ts : List Token) :
    splitTop separator open? (token :: ts) =
      (splitTop separator (Quote.after open? token) ts).modifyHead (token :: ·) := by
  rw [splitTop, if_neg h]

theorem splitTop_ne_nil (open? : Option Quote) (ts : List Token) :
    splitTop separator open? ts ≠ [] := by
  induction ts generalizing open? with
  | nil => simp [splitTop]
  | cons token ts ih =>
    rw [splitTop]
    split
    · simp
    · obtain ⟨piece, pieces, h⟩ := exists_cons_of_ne_nil (ih (Quote.after open? token))
      rw [h]
      simp

theorem splitTop_append_separator (hsep : separator.Separates) (open? : Option Quote)
    (ts us : List Token) (h : openAfter open? ts = none) :
    splitTop separator open? (ts ++ separator :: us) =
      splitTop separator open? ts ++ splitTop separator none us := by
  induction ts generalizing open? with
  | nil =>
    have hopen : open? = none := h
    simp [hopen, splitTop]
  | cons token ts ih =>
    by_cases hcut : open? = none ∧ token = separator
    · obtain ⟨rfl, rfl⟩ := hcut
      rw [openAfter_cons, after_separator hsep] at h
      simp [splitTop, ih none h]
    · obtain ⟨piece, pieces, hpieces⟩ := exists_cons_of_ne_nil
        (splitTop_ne_nil separator (Quote.after open? token) ts)
      rw [cons_append, splitTop_cons_of_ne separator hcut,
        splitTop_cons_of_ne separator hcut, ih _ h, hpieces]
      rfl

theorem splitTop_append_space (hsep : separator.Separates) (open? : Option Quote)
    (ts : List Token) (text : Text) :
    ∃ pieces piece, splitTop separator open? ts = pieces ++ [piece] ∧
      splitTop separator open? (ts ++ [Token.space text]) =
        pieces ++ [piece ++ [Token.space text]] := by
  induction ts generalizing open? with
  | nil =>
    have hne : Token.space text ≠ separator := by rcases hsep with rfl | rfl <;> simp
    exact ⟨[], [], rfl, by simp [splitTop, hne]⟩
  | cons token ts ih =>
    by_cases hcut : open? = none ∧ token = separator
    · obtain ⟨pieces, piece, h, h'⟩ := ih none
      exact ⟨[] :: pieces, piece, by simp [splitTop, hcut, h], by simp [splitTop, hcut, h']⟩
    · obtain ⟨pieces, piece, h, h'⟩ := ih (Quote.after open? token)
      rw [cons_append, splitTop_cons_of_ne separator hcut,
        splitTop_cons_of_ne separator hcut, h, h']
      cases pieces with
      | nil => exact ⟨[], token :: piece, rfl, rfl⟩
      | cons first pieces => exact ⟨(token :: first) :: pieces, piece, rfl, rfl⟩

end Split

/-! ## Blanks around a piece -/

/-- A token list without the blanks at its ends. -/
def trim (ts : List Token) : List Token := (ts.dropWhile Token.isSpace).rdropWhile Token.isSpace

@[simp] theorem trim_space_cons (text : Text) (ts : List Token) :
    trim (.space text :: ts) = trim ts := rfl

@[simp] theorem trim_append_space (ts : List Token) (text : Text) :
    trim (ts ++ [Token.space text]) = trim ts := by
  unfold trim
  rw [dropWhile_append]
  split
  · next hempty =>
      rw [List.isEmpty_iff.mp hempty]
      rfl
  · rw [rdropWhile_concat_pos _ _ _ rfl]

theorem exists_texts (h : ∀ token ∈ ts, token.isSpace = true) :
    ∃ texts : List Text, ts = texts.map .space := by
  induction ts with
  | nil => exact ⟨[], rfl⟩
  | cons token ts ih =>
    obtain ⟨texts, rfl⟩ := ih fun t ht => h t (mem_cons_of_mem _ ht)
    cases token with
    | space text => exact ⟨text :: texts, rfl⟩
    | _ => cases h _ mem_cons_self

theorem exists_spaces_trim (ts : List Token) : ∃ before after : List Text,
    ts = before.map .space ++ (trim ts ++ after.map .space) := by
  obtain ⟨before, hbefore⟩ := exists_texts fun token (h : token ∈ ts.takeWhile Token.isSpace) =>
    mem_takeWhile_imp h
  obtain ⟨after, hafter⟩ := exists_texts fun token
    (h : token ∈ (ts.dropWhile Token.isSpace).rtakeWhile Token.isSpace) =>
      mem_rtakeWhile_imp h
  refine ⟨before, after, ?_⟩
  rw [← hbefore, ← hafter]
  unfold trim
  rw [rdropWhile_append_rtakeWhile, takeWhile_append_dropWhile]

/-- The pieces of a token list without the blanks around them. -/
def pieces (separator : Token) (ts : List Token) : List (List Token) :=
  (splitTop separator none ts).map trim

section Pieces

variable {separator : Token} (hsep : separator.Separates)
include hsep

theorem pieces_append_separator (h : openAfter none ts = none) (us : List Token) :
    pieces separator (ts ++ separator :: us) = pieces separator ts ++ pieces separator us := by
  unfold pieces
  rw [splitTop_append_separator separator hsep none ts us h, map_append]

@[simp] theorem pieces_append_space (ts : List Token) (text : Text) :
    pieces separator (ts ++ [Token.space text]) = pieces separator ts := by
  obtain ⟨front, last, h, h'⟩ := splitTop_append_space separator hsep none ts text
  unfold pieces
  rw [h, h', map_append, map_append, map_singleton, map_singleton,
    trim_append_space]

@[simp] theorem pieces_space_cons (text : Text) (ts : List Token) :
    pieces separator (.space text :: ts) = pieces separator ts := by
  have hne : Token.space text ≠ separator := by rcases hsep with rfl | rfl <;> simp
  unfold pieces
  rw [splitTop_cons_of_ne separator (by simp [hne]), after_space]
  obtain ⟨piece, later, h⟩ := exists_cons_of_ne_nil (splitTop_ne_nil separator none ts)
  rw [h]
  rfl

@[simp] theorem pieces_append_spaces (ts : List Token) (spaces : List Text) :
    pieces separator (ts ++ spaces.map .space) = pieces separator ts := by
  induction spaces generalizing ts with
  | nil => simp
  | cons text spaces ih =>
    rw [map_cons, append_cons, ih, pieces_append_space hsep]

@[simp] theorem pieces_spaces_append (spaces : List Text) (ts : List Token) :
    pieces separator (spaces.map .space ++ ts) = pieces separator ts := by
  induction spaces with
  | nil => rfl
  | cons text spaces ih => rw [map_cons, cons_append, pieces_space_cons hsep, ih]

@[simp] theorem pieces_trim (ts : List Token) : pieces separator
    (trim ts) = pieces separator ts := by
  obtain ⟨before, after, h⟩ := exists_spaces_trim ts
  conv_rhs => rw [h, pieces_spaces_append hsep, pieces_append_spaces hsep]

end Pieces

/-! ## Phrases are not cut -/

def Uncut (separator : Token) : Option Quote → List Token → Prop
  | _, [] => True
  | open?, token :: ts =>
    (open? = none → token ≠ separator) ∧ Uncut separator (Quote.after open? token) ts

/-- Tokens that hold no separator outside quotes and close the quotes that they open. -/
structure Balanced (separator : Token) (open? : Option Quote) (ts : List Token) : Prop where
  uncut : Uncut separator open? ts
  state : openAfter open? ts = open?

section Balance

variable {separator : Token} {open? : Option Quote}

theorem Uncut.append {us : List Token} (hts : Uncut separator open? ts)
    (hus : Uncut separator (openAfter open? ts) us) : Uncut separator open? (ts ++ us) := by
  induction ts generalizing open? with
  | nil => exact hus
  | cons token ts ih => exact ⟨hts.1, ih hts.2 hus⟩

theorem Uncut.splitTop_eq (h : Uncut separator open? ts) : splitTop separator open? ts = [ts] := by
  induction ts generalizing open? with
  | nil => rfl
  | cons token ts ih =>
    rw [splitTop_cons_of_ne separator fun hcut => h.1 hcut.1 hcut.2, ih h.2]
    rfl

namespace Balanced

theorem nil : Balanced separator open? [] := ⟨trivial, rfl⟩

theorem append {ts us : List Token} (hts : Balanced separator open? ts)
    (hus : Balanced separator open? us) : Balanced separator open? (ts ++ us) where
  uncut := hts.uncut.append (hts.state.symm ▸ hus.uncut)
  state := by rw [openAfter_append, hts.state, hus.state]

theorem one (hne : open? = none → token ≠ separator) (hstate : Quote.after open? token = open?) :
    Balanced separator open? [token] :=
  ⟨⟨hne, trivial⟩, hstate⟩

theorem cons (hne : open? = none → token ≠ separator) (hstate : Quote.after open? token = open?)
    (hts : Balanced separator open? ts) : Balanced separator open? (token :: ts) :=
  (one hne hstate).append hts

theorem pieces_eq (h : Balanced separator none ts) : pieces separator ts = [trim ts] := by
  unfold pieces
  rw [h.uncut.splitTop_eq, map_singleton]

end Balanced

end Balance

section Phrases

variable {separator : Token} (hsep : separator.Separates)
include hsep

theorem balanced_space (open? : Option Quote) (text : Text) :
    Balanced separator open? [.space text] := by
  refine .one (fun _ => ?_) (after_space open? text)
  rcases hsep with rfl | rfl <;> simp

theorem balanced_gap (open? : Option Quote) (gap : Option Text) :
    Balanced separator open? (Tree.tokensOf (gapLeaves gap)) := by
  cases gap with
  | none => exact .nil
  | some text => exact balanced_space hsep open? text

theorem balanced_spaces (spaces : List Text) :
    Balanced separator none (Tree.tokensOf (spaces.map spaceLeaf)) := by
  induction spaces with
  | nil => exact .nil
  | cons text spaces ih => exact (balanced_space hsep none text).append ih

omit hsep in
theorem Substitution.mem_backquote (s : Substitution) : .backquote ∈ s.tree.tokens := by
  cases s <;> simp

theorem balanced_chars (text : Text) : Balanced separator none [.chars text] := by
  refine .one (fun _ => ?_) rfl
  rcases hsep with rfl | rfl <;> simp

theorem balanced_dash : Balanced separator none [.dash] := by
  refine .one (fun _ => ?_) rfl
  rcases hsep with rfl | rfl <;> simp

omit hsep in
theorem balanced_inside {quote : Quote} (h : quote.token ∉ ts) :
    Balanced separator (some quote) ts := by
  induction ts with
  | nil => exact .nil
  | cons token ts ih =>
    rw [mem_cons, not_or] at h
    exact .cons nofun (by simp [Quote.after, Ne.symm h.1]) (ih h.2)

theorem balanced_quoted (quote : Quote) (h : Balanced separator (some quote) ts) :
    Balanced separator none (quote.token :: (ts ++ [quote.token])) := by
  have hopen : Quote.after none quote.token = some quote := by cases quote <;> rfl
  have hclose : openAfter (some quote) (ts ++ [quote.token]) = none := by
    rw [openAfter_append, h.state]
    simp [openAfter, Quote.after]
  refine ⟨⟨fun _ => ?_, ?_⟩, ?_⟩
  · rcases hsep with rfl | rfl <;> cases quote <;> simp [Quote.token]
  · rw [hopen]
    exact h.uncut.append ⟨by simp [h.state], trivial⟩
  · rw [openAfter_cons, hopen, hclose]

end Phrases

@[simp] theorem Quoted.tokens_mk (quote : Quote) (body : Body) :
    (Quoted.mk quote body).tree.tokens =
    quote.token :: (Tree.tokensOf (body.trees quote) ++ [quote.token]) := by
  simp

theorem Quoted.backquote_not_mem_body {quote : Quote} {body : Body}
    (h : .backquote ∉ (Quoted.mk quote body).tree.tokens) :
    .backquote ∉ Tree.tokensOf (body.trees quote) := fun hmem => h (by simp [hmem])

theorem Body.quote_not_mem (quote : Quote) (body : Body)
    (h : .backquote ∉ Tree.tokensOf (body.trees quote)) :
    quote.token ∉ Tree.tokensOf (body.trees quote) := by
  cases body with
  | done => exact not_mem_nil
  | mark rest =>
    simp only [Body.trees, Tree.tokens, Tree.tokensOf, mem_append, mem_singleton,
      not_or] at h ⊢
    exact ⟨by cases quote <;> rintro ⟨⟩, rest.quote_not_mem quote h.2⟩
  | literal token rest =>
    simp only [Body.trees, Tree.tokens, Tree.tokensOf, append_nil, mem_append,
      mem_singleton, not_or] at h ⊢
    exact ⟨by cases quote <;> cases token <;> rintro ⟨⟩, rest.quote_not_mem quote h.2⟩
  | space text rest =>
    simp only [Body.trees, spaceLeaf, Tree.tokens, Tree.tokensOf, mem_append,
      mem_singleton, not_or] at h ⊢
    exact ⟨by cases quote <;> rintro ⟨⟩, rest.quote_not_mem quote h.2⟩
  | substitution inner rest => simp [inner.mem_backquote] at h

/-- Words without backquotes, which hold neither voids nor substitutions. -/
inductive Word.Plain : Word → Prop where
  | chars (text : Text) : Plain (.chars text)
  | dash : Plain .dash
  | strings (run : Strings) (hrun : .backquote ∉ Tree.tokensOf run.trees) : Plain (.strings run)
  | stringBefore (first : Quoted) (hfirst : .backquote ∉ first.tree.tokens) {rest : Word}
    (h : Plain rest) : Plain (.stringBefore first rest)
  | charsBefore (text : Text) {rest : Word} (h : Plain rest) : Plain (.charsBefore text rest)
  | dashBefore {rest : Word} (h : Plain rest) : Plain (.dashBefore rest)
  | stringAfter {front : Word} (hfront : .backquote ∉ front.tree.tokens) (h : Plain front)
    (last : Quoted) (hlast : .backquote ∉ last.tree.tokens) : Plain (.stringAfter front last)

theorem Word.plain (w : Word) (h : .backquote ∉ w.tree.tokens) : w.Plain := by
  match w with
  | .chars text => exact .chars text
  | .dash => exact .dash
  | .strings run => exact .strings run h
  | .stringBefore first rest =>
    obtain ⟨hfirst, hrest⟩ : .backquote ∉ first.tree.tokens ∧ .backquote ∉ rest.tree.tokens := by
      simpa using h
    exact .stringBefore first hfirst (rest.plain hrest)
  | .charsBefore text rest => exact .charsBefore text (rest.plain (by simpa using h))
  | .dashBefore rest => exact .dashBefore (rest.plain (by simpa using h))
  | .stringAfter front last =>
    obtain ⟨hfront, hlast⟩ : .backquote ∉ front.tree.tokens ∧ .backquote ∉ last.tree.tokens := by
      simpa using h
    exact .stringAfter hfront (front.plain hfront) last hlast
  | .voidBefore gap rest | .voidAfter front gap => simp [voidLeaves] at h
  | .substitution inner | .substitutionBefore inner rest | .substitutionAfter front inner =>
    simp [inner.mem_backquote] at h

section Phrases

variable {separator : Token} (hsep : separator.Separates)
include hsep

theorem Quoted.balanced (q : Quoted) (h : .backquote ∉ q.tree.tokens) :
    Balanced separator none q.tree.tokens := by
  cases q with
  | mk quote body =>
    have hbody := body.quote_not_mem quote (Quoted.backquote_not_mem_body h)
    rw [Quoted.tokens_mk]
    exact balanced_quoted hsep quote (balanced_inside hbody)

theorem Strings.balanced (s : Strings) (h : .backquote ∉ Tree.tokensOf s.trees) :
    Balanced separator none (Tree.tokensOf s.trees) := by
  match s with
  | .one first =>
    simp only [Strings.trees, Tree.tokensOf, append_nil] at h ⊢
    exact first.balanced hsep h
  | .more first rest =>
    simp only [Strings.trees, Tree.tokensOf, mem_append, not_or] at h ⊢
    exact (first.balanced hsep h.1).append (Strings.balanced rest h.2)

theorem Word.balanced (w : Word) (h : .backquote ∉ w.tree.tokens) :
    Balanced separator none w.tree.tokens := by
  replace h := w.plain h
  induction h with
  | chars text => exact balanced_chars hsep text
  | dash => exact balanced_dash hsep
  | strings run hrun => exact run.balanced hsep hrun
  | stringBefore first hfirst _ ih => simpa using (first.balanced hsep hfirst).append ih
  | charsBefore text _ ih => simpa using (balanced_chars hsep text).append ih
  | dashBefore _ ih => simpa using (balanced_dash hsep).append ih
  | stringAfter _ _ last hlast ih => simpa using ih.append (last.balanced hsep hlast)

theorem Redirect.balanced (r : Redirect) (h : .backquote ∉ r.tree.tokens) :
    Balanced separator none r.tree.tokens := by
  cases r with
  | mk direction gap target =>
    simp only [Redirect.tree, Tree.tokens, Tree.tokensOf, Tree.tokensOf_append, cons_append,
      nil_append, append_nil, mem_cons, mem_append, not_or] at h ⊢
    have harrow : Balanced separator none [direction.token] := by
      refine .one (fun _ => ?_) (by cases direction <;> rfl)
      rcases hsep with rfl | rfl <;> cases direction <;> simp [Direction.token]
    exact harrow.append ((balanced_gap hsep none gap).append (target.balanced hsep h.2.2))

theorem Opening.balanced (o : Opening) (h : .backquote ∉ Tree.tokensOf o.trees) :
    Balanced separator none (Tree.tokensOf o.trees) := by
  cases o with
  | done => exact .nil
  | space text rest =>
    simp only [Opening.trees, spaceLeaf, Tree.tokens, Tree.tokensOf, mem_append,
      not_or] at h ⊢
    exact (balanced_space hsep none text).append (Opening.balanced rest h.2)
  | redirect first rest =>
    simp only [Opening.trees, Tree.tokensOf, mem_append, not_or] at h ⊢
    exact (first.balanced hsep h.1).append (Opening.balanced rest h.2)

theorem Modifier.balanced (m : Modifier) (h : .backquote ∉ m.tree.tokens) :
    Balanced separator none m.tree.tokens := by
  cases m with
  | flag name =>
    simp only [Modifier.tree, Tree.tokens, Tree.tokensOf, append_nil, mem_append,
      not_or] at h ⊢
    exact (balanced_dash hsep).append (name.balanced hsep h.2)
  | arg value =>
    simp only [Modifier.tree, Tree.tokens, Tree.tokensOf, append_nil] at h ⊢
    exact value.balanced hsep h

theorem Ending.balanced (e : Ending) (h : .backquote ∉ Tree.tokensOf e.trees) :
    Balanced separator none (Tree.tokensOf e.trees) := by
  cases e with
  | done => exact .nil
  | redirect spaces first rest =>
    simp only [Ending.trees, Tree.tokensOf, Tree.tokensOf_append, mem_append,
      not_or] at h ⊢
    exact (balanced_spaces hsep spaces).append
      ((first.balanced hsep h.2.1).append (Ending.balanced rest h.2.2))
  | modifier text first rest =>
    simp only [Ending.trees, spaceLeaf, Tree.tokens, Tree.tokensOf, mem_append,
      not_or] at h ⊢
    exact (balanced_space hsep none text).append
      ((first.balanced hsep h.2.1).append (Ending.balanced rest h.2.2))

theorem Command.balanced (x : Command) (h : .backquote ∉ x.tree.tokens) :
    Balanced separator none x.tree.tokens := by
  cases x with
  | mk opening name ending =>
    simp only [Command.tree, Tree.tokens, Tree.tokensOf, Tree.tokensOf_append, append_nil,
      mem_append, not_or] at h ⊢
    exact (opening.balanced hsep h.1).append
      ((name.balanced hsep h.2.1).append (ending.balanced hsep h.2.2))

end Phrases

/-! ## Commands do not end in a blank -/

/-- The last token is there and is no blank. -/
def EndsSolid (ts : List Token) : Prop :=
  ∃ (front : List Token) (token : Token), ts = front ++ [token] ∧ token.isSpace = false

namespace EndsSolid

theorem one (h : token.isSpace = false) : EndsSolid [token] :=
  ⟨[], token, rfl, h⟩

theorem append_left (ts : List Token) {us : List Token} (h : EndsSolid us) :
    EndsSolid (ts ++ us) := by
  obtain ⟨front, token, rfl, htoken⟩ := h
  exact ⟨ts ++ front, token, by simp, htoken⟩

theorem trim_eq (h : EndsSolid ts) : trim ts = ts.dropWhile Token.isSpace := by
  obtain ⟨front, token, rfl, htoken⟩ := h
  unfold trim
  rw [dropWhile_append]
  split
  · simp [htoken]
  · rw [rdropWhile_concat_neg _ _ _ (by simp [htoken])]

end EndsSolid

theorem Substitution.endsSolid (s : Substitution) : EndsSolid s.tree.tokens := by
  cases s with
  | void before after | run before line after =>
    simp only [Substitution.tree, Tree.tokens, Tree.tokensOf, Tree.tokensOf_append,
      append_nil]
    exact (EndsSolid.one rfl).append_left _

theorem Quoted.endsSolid (q : Quoted) : EndsSolid q.tree.tokens := by
  cases q with
  | mk quote body =>
    simp only [Quoted.tree, Tree.tokens, Tree.tokensOf, Tree.tokensOf_append, append_nil]
    exact (EndsSolid.one (by cases quote <;> rfl)).append_left _

theorem Strings.endsSolid (s : Strings) : EndsSolid (Tree.tokensOf s.trees) := by
  cases s with
  | one first =>
    simp only [Strings.trees, Tree.tokensOf, append_nil]
    exact first.endsSolid
  | more first rest => exact (Strings.endsSolid rest).append_left _

theorem Word.endsSolid (w : Word) : EndsSolid w.tree.tokens := by
  cases w with
  | chars text => exact .one rfl
  | dash => exact .one rfl
  | strings run => exact run.endsSolid
  | substitution inner =>
    simp only [Word.tree, Tree.tokens, Tree.tokensOf, append_nil]
    exact inner.endsSolid
  | voidBefore gap rest =>
    simp only [Word.tree, Tree.tokens, Tree.tokensOf, Tree.tokensOf_append, append_nil]
    exact (Word.endsSolid rest).append_left _
  | substitutionBefore inner rest | stringBefore first rest | charsBefore text rest
  | dashBefore rest =>
    simp only [Word.tree, Tree.tokens, Tree.tokensOf, append_nil]
    exact (Word.endsSolid rest).append_left _
  | stringAfter front last | substitutionAfter front last =>
    simp only [Word.tree, Tree.tokens, Tree.tokensOf, append_nil]
    exact last.endsSolid.append_left _
  | voidAfter front gap =>
    simp only [Word.tree, voidLeaves, Tree.tokens, Tree.tokensOf, Tree.tokensOf_append,
      append_nil]
    exact ((EndsSolid.one rfl).append_left _).append_left _

theorem Redirect.endsSolid (r : Redirect) : EndsSolid r.tree.tokens := by
  cases r with
  | mk direction gap target =>
    simp only [Redirect.tree, Tree.tokens, Tree.tokensOf, Tree.tokensOf_append, append_nil]
    exact target.endsSolid.append_left _

theorem Modifier.endsSolid (m : Modifier) : EndsSolid m.tree.tokens := by
  cases m with
  | flag name =>
    simp only [Modifier.tree, Tree.tokens, Tree.tokensOf, append_nil]
    exact name.endsSolid.append_left _
  | arg value =>
    simp only [Modifier.tree, Tree.tokens, Tree.tokensOf, append_nil]
    exact value.endsSolid

theorem Ending.endsSolid (e : Ending) {ts : List Token} (h : EndsSolid ts) :
    EndsSolid (ts ++ Tree.tokensOf e.trees) := by
  cases e with
  | done => simpa using h
  | redirect spaces first rest =>
    simp only [Ending.trees, Tree.tokensOf, Tree.tokensOf_append, ← append_assoc]
    exact Ending.endsSolid rest (first.endsSolid.append_left _)
  | modifier text first rest =>
    simp only [Ending.trees, Tree.tokensOf, ← append_assoc]
    exact Ending.endsSolid rest (first.endsSolid.append_left _)

theorem Command.endsSolid (x : Command) : EndsSolid x.tree.tokens := by
  cases x with
  | mk opening name ending =>
    simp only [Command.tree, Tree.tokens, Tree.tokensOf, Tree.tokensOf_append, append_nil,
      ← append_assoc]
    exact ending.endsSolid (name.endsSolid.append_left _)

end Line

end CommandShell

import CommandShell.Proofs.Chart.Extents
import CommandShell.Proofs.Line.Splitting

/-!
# The shape of words

The grammar groups the tokens of a word in several ways, but without substitutions a word is always
a row of chunks: runs of characters, dashes and quoted strings. Seen as chunks, a word has an end
that does not depend on the grouping: it ends at the first token after it that begins no chunk.
-/

namespace CommandShell

open List

/-- Tokens with which a part of a word begins, substitutions apart. -/
def Token.startsChunk : Token → Bool
  | .chars _ => true
  | .dash => true
  | .doubleQuote => true
  | .singleQuote => true
  | _ => false

namespace Line

/-- A part of a word that cannot be divided. -/
inductive Chunk where
  | chars (text : Text)
  | dash
  | string (quote : Quote) (inside : List Token)
      (plain : ∀ token ∈ inside, token ≠ quote.token ∧ token ≠ .backquote)

namespace Chunk

def tokens : Chunk → List Token
  | chars text => [.chars text]
  | dash => [.dash]
  | string quote inside _ => quote.token :: (inside ++ [quote.token])

def isString : Chunk → Bool
  | string .. => true
  | _ => false

def row (chunks : List Chunk) : List Token := chunks.flatMap tokens

@[simp] theorem row_nil : row [] = [] := rfl

@[simp] theorem row_cons (chunk : Chunk) (chunks : List Chunk) :
    row (chunk :: chunks) = chunk.tokens ++ row chunks :=
  flatMap_cons

@[simp] theorem row_append (chunks chunks' : List Chunk) :
    row (chunks ++ chunks') = row chunks ++ row chunks' :=
  flatMap_append

end Chunk

/-! ## Words as rows of chunks -/

theorem Quoted.exists_chunk (q : Quoted) (h : .backquote ∉ q.tree.tokens) :
    ∃ chunk : Chunk, q.tree.tokens = chunk.tokens ∧ chunk.isString := by
  cases q with
  | mk quote body =>
    have hbody := Quoted.backquote_not_mem_body h
    have hquote := body.quote_not_mem quote hbody
    refine ⟨.string quote (Tree.tokensOf (body.trees quote)) ?_, Quoted.tokens_mk quote body, rfl⟩
    intro token htoken
    exact ⟨fun heq => hquote (heq ▸ htoken), fun heq => hbody (heq ▸ htoken)⟩

/-- Chunks of which all but the first are strings. -/
def Compact : List Chunk → Prop
  | [] => False
  | _ :: later => ∀ chunk ∈ later, chunk.isString

variable {chunks : List Chunk} {rest rest' : List Token}

theorem Compact.append {strings : List Chunk} (h : Compact chunks)
    (hstrings : ∀ chunk ∈ strings, chunk.isString) : Compact (chunks ++ strings) := by
  cases chunks with
  | nil => exact h.elim
  | cons first later =>
    intro chunk hchunk
    rcases mem_append.mp hchunk with hchunk | hchunk
    · exact h chunk hchunk
    · exact hstrings chunk hchunk

theorem Strings.exists_chunks (s : Strings) (h : .backquote ∉ Tree.tokensOf s.trees) :
    ∃ chunks : List Chunk, Tree.tokensOf s.trees = Chunk.row chunks ∧ chunks ≠ [] ∧
      ∀ chunk ∈ chunks, chunk.isString := by
  cases s with
  | one first =>
    simp only [Strings.trees, Tree.tokensOf, append_nil] at h ⊢
    obtain ⟨chunk, hchunk, hstring⟩ := first.exists_chunk h
    exact ⟨[chunk], by simp [hchunk], by simp, by simp [hstring]⟩
  | more first rest =>
    simp only [Strings.trees, Tree.tokensOf, mem_append, not_or] at h ⊢
    obtain ⟨chunk, hchunk, hstring⟩ := first.exists_chunk h.1
    obtain ⟨chunks, hchunks, -, hstrings⟩ := rest.exists_chunks h.2
    refine ⟨chunk :: chunks, by simp [hchunk, hchunks], by simp, ?_⟩
    simpa [hstring] using hstrings

/-- Words that go on only with strings once they have begun. -/
def Word.isCompact : Word → Bool
  | .chars _ => true
  | .dash => true
  | .strings _ => true
  | .stringAfter front _ => front.isCompact
  | _ => false

theorem Word.exists_chunks (w : Word) (h : .backquote ∉ w.tree.tokens) :
    ∃ chunks : List Chunk, w.tree.tokens = Chunk.row chunks ∧ chunks ≠ [] ∧
      (w.isCompact → Compact chunks) := by
  replace h := w.plain h
  induction h with
  | chars text => exact ⟨[.chars text], rfl, by simp, fun _ => by simp [Compact]⟩
  | dash => exact ⟨[.dash], rfl, by simp, fun _ => by simp [Compact]⟩
  | strings run hrun =>
    obtain ⟨chunks, hchunks, hne, hstrings⟩ := run.exists_chunks hrun
    obtain ⟨first, later, rfl⟩ := exists_cons_of_ne_nil hne
    exact ⟨_, hchunks, hne, fun _ chunk hchunk => hstrings chunk (mem_cons_of_mem _ hchunk)⟩
  | stringBefore first hfirst _ ih =>
    obtain ⟨chunk, hchunk, -⟩ := first.exists_chunk hfirst
    obtain ⟨chunks, hchunks, -⟩ := ih
    exact ⟨chunk :: chunks, by simp [hchunk, hchunks], by simp, nofun⟩
  | charsBefore text _ ih =>
    obtain ⟨chunks, hchunks, -⟩ := ih
    exact ⟨.chars text :: chunks, by simp [Chunk.tokens, hchunks], by simp, nofun⟩
  | dashBefore _ ih =>
    obtain ⟨chunks, hchunks, -⟩ := ih
    exact ⟨.dash :: chunks, by simp [Chunk.tokens, hchunks], by simp, nofun⟩
  | stringAfter _ _ last hlast ih =>
    obtain ⟨chunks, hchunks, hne, hcompact⟩ := ih
    obtain ⟨chunk, hchunk, hstring⟩ := last.exists_chunk hlast
    refine ⟨chunks ++ [chunk], by simp [hchunks, hchunk], by simp, fun hfront => ?_⟩
    exact (hcompact hfront).append (by simp [hstring])

/-! ## Rows of chunks can be read as words -/

theorem Row.body_inside {quote : Quote} {inside : List Token}
    (h : ∀ token ∈ inside, token ≠ quote.token ∧ token ≠ .backquote) (rest : List Token) :
    ∃ body, (Row.ofTokens (inside ++ quote.token :: rest)).body quote = [(body, rest.length)] := by
  induction inside with
  | nil =>
    rw [nil_append, Row.body_cons]
    unfold readBody
    rw [if_pos rfl]
    exact ⟨_, rfl⟩
  | cons token inside ih =>
    obtain ⟨body, hlater⟩ := ih fun token htoken => h token (mem_cons_of_mem _ htoken)
    obtain ⟨hquote, hbackquote⟩ := h token mem_cons_self
    have has : ∀ f : Body → Body,
        ∃ body, (Readings.as f ((Row.ofTokens (inside ++ quote.token :: rest)).body quote)).distinct =
          [(body, rest.length)] := by
      intro f
      rw [hlater]
      exact ⟨f body, rfl⟩
    rw [cons_append, Row.body_cons]
    unfold readBody
    rw [if_neg hquote]
    by_cases hmark : token = quote.other.token
    · rw [if_pos hmark]
      exact has _
    · rw [if_neg hmark, if_neg hbackquote]
      cases token with
      | backquote => exact absurd rfl hbackquote
      | doubleQuote =>
        cases quote with
        | double => exact absurd rfl hquote
        | single => exact absurd rfl hmark
      | singleQuote =>
        cases quote with
        | double => exact absurd rfl hmark
        | single => exact absurd rfl hquote
      | _ => exact has _

theorem Chunk.exists_quoted {chunk : Chunk} (h : chunk.isString) (rest : List Token) :
    ∃ q : Quoted, (Row.ofTokens (chunk.tokens ++ rest)).quoted = [(q, rest.length)] := by
  cases chunk with
  | string quote inside plain =>
    obtain ⟨body, hbody⟩ := Row.body_inside plain rest
    have hread : readQuoted (Chart.ofTokens (inside ++ quote.token :: rest)) quote.token
        (inside ++ quote.token :: rest).length = [(.mk quote body, rest.length)] := by
      have hquote : Quote.ofToken? quote.token = some quote := by cases quote <;> rfl
      unfold readQuoted
      rw [hquote]
      exact congrArg (Readings.as (Quoted.mk quote)) hbody
    refine ⟨.mk quote body, ?_⟩
    rw [tokens, cons_append, append_assoc, singleton_append, Row.quoted_cons, hread]
    rfl
  | _ => cases h

theorem Chunk.atom (chunk : Chunk) : Atom chunk.tokens := by
  cases chunk with
  | chars text => exact .chars text
  | dash => exact .dash
  | string quote inside plain =>
    refine .string fun rest => ?_
    obtain ⟨body, hbody⟩ := Row.body_inside plain rest
    exact ⟨body, by simp [hbody]⟩

theorem Chunk.atoms_row (h : chunks ≠ []) : Atoms (row chunks) := by
  induction chunks with
  | nil => exact absurd rfl h
  | cons first later ih =>
    rw [row_cons]
    by_cases hlater : later = []
    · rw [hlater, row_nil, append_nil]
      exact .one first.atom
    · exact .cons first.atom (ih hlater)

/-! ## Where a word ends -/

/-- Tokens before which a word has ended. -/
def Stopped (ts : List Token) : Prop := ∀ token ∈ ts.head?, token.startsChunk = false

theorem Stopped.nil : Stopped [] := nofun

theorem Stopped.cons {token : Token} (h : token.startsChunk = false) (ts : List Token) :
    Stopped (token :: ts) := by
  rintro _ ⟨⟩
  exact h

theorem Chunk.not_stopped (chunk : Chunk) (ts : List Token) : ¬ Stopped (chunk.tokens ++ ts) := by
  intro h
  cases chunk with
  | chars text | dash => cases (h _ rfl : true = false)
  | string quote inside plain => cases quote <;> cases (h _ rfl : true = false)

theorem Chunk.row_not_stopped (hne : chunks ≠ []) (ts : List Token) :
    ¬ Stopped (row chunks ++ ts) := by
  obtain ⟨first, later, rfl⟩ := exists_cons_of_ne_nil hne
  rw [row_cons, append_assoc]
  exact first.not_stopped _

theorem Quote.token_injective : Function.Injective Quote.token := by
  intro quote quote' h
  cases quote <;> cases quote' <;> simp_all [Quote.token]

theorem append_cons_cancel {token : Token} {xs ys : List Token} (hxs : token ∉ xs)
    (hys : token ∉ ys) (h : xs ++ token :: rest = ys ++ token :: rest') :
    xs = ys ∧ rest = rest' := by
  induction xs generalizing ys with
  | nil =>
    cases ys with
    | nil => exact ⟨rfl, (List.cons.inj h).2⟩
    | cons y ys => exact absurd (List.cons.inj h).1 fun heq => hys (heq ▸ mem_cons_self)
  | cons x xs ih =>
    cases ys with
    | nil => exact absurd (List.cons.inj h).1 fun heq => hxs (heq ▸ mem_cons_self)
    | cons y ys =>
      obtain ⟨rfl, htail⟩ := List.cons.inj h
      obtain ⟨rfl, hrest⟩ := ih (fun hx => hxs (mem_cons_of_mem _ hx))
        (fun hy => hys (mem_cons_of_mem _ hy)) htail
      exact ⟨rfl, hrest⟩

private theorem Chunk.tokens_cancel {chunk chunk' : Chunk}
    (h : chunk.tokens ++ rest = chunk'.tokens ++ rest') :
    chunk.tokens = chunk'.tokens ∧ rest = rest' := by
  have hquote : ∀ {quote : Quote} {inside : List Token},
      (∀ token ∈ inside, token ≠ quote.token ∧ token ≠ .backquote) → quote.token ∉ inside :=
    fun plain hmem => (plain _ hmem).1 rfl
  cases chunk with
  | chars text =>
    cases chunk' with
    | chars text' =>
      obtain ⟨htoken, hrest⟩ := List.cons.inj h
      exact ⟨congrArg ([·]) htoken, hrest⟩
    | dash => cases (List.cons.inj h).1
    | string quote' inside' plain' => cases quote' <;> cases (List.cons.inj h).1
  | dash =>
    cases chunk' with
    | chars text' => cases (List.cons.inj h).1
    | dash => exact ⟨rfl, (List.cons.inj h).2⟩
    | string quote' inside' plain' => cases quote' <;> cases (List.cons.inj h).1
  | string quote inside plain =>
    cases chunk' with
    | chars text' | dash => cases quote <;> cases (List.cons.inj h).1
    | string quote' inside' plain' =>
      obtain ⟨htoken, htail⟩ := List.cons.inj h
      obtain rfl := Quote.token_injective htoken
      change inside ++ [quote.token] ++ rest = inside' ++ [quote.token] ++ rest' at htail
      rw [append_assoc, append_assoc] at htail
      obtain ⟨rfl, hrest⟩ := append_cons_cancel (hquote plain) (hquote plain') htail
      exact ⟨rfl, hrest⟩

/-- Where words are followed by tokens that begin no chunk, they are the same if all the tokens
are. -/
theorem Chunk.row_cancel {chunks' : List Chunk} (hrest : Stopped rest) (hrest' : Stopped rest')
    (h : row chunks ++ rest = row chunks' ++ rest') : row chunks = row chunks' ∧ rest = rest' := by
  induction chunks generalizing chunks' with
  | nil =>
    cases chunks' with
    | nil => exact ⟨rfl, h⟩
    | cons first later =>
      rw [row_nil, nil_append] at h
      exact absurd (h ▸ hrest) (row_not_stopped (by simp) rest')
  | cons first later ih =>
    cases chunks' with
    | nil =>
      rw [row_nil, nil_append] at h
      exact absurd (h ▸ hrest') (row_not_stopped (by simp) rest)
    | cons first' later' =>
      rw [row_cons, row_cons, append_assoc, append_assoc] at h
      obtain ⟨hfirst, htail⟩ := tokens_cancel h
      obtain ⟨hlater, htail⟩ := ih htail
      exact ⟨by rw [row_cons, row_cons, hfirst, hlater], htail⟩

end Line

end CommandShell

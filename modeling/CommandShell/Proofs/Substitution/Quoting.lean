import CommandShell.Proofs.Line.RedirectPosition
import CommandShell.Proofs.Substitution.Outermost
import CommandShell.Proofs.Substitution.Output

/-!
# Between quotes

A quoted string after `echo` is one word, and the word stands for the text between the quotes. Three
things that quotes are often used for do not come with it. Single quotes do not keep a
substitution from being run. A quoted word that has wildcards in it is expanded like any other. And
an output that is put between quotes keeps the backslashes that have been put before its own
quotes, because between quotes no backslash is dropped.
-/

namespace CommandShell

open List

/-! ## Cutting a line at a special character -/

variable {s : Text}

namespace Token

theorem getLast?_cons_of_eq_some {d : Char} (c : Char) (h : s.getLast? = some d) :
    (c :: s).getLast? = some d := by
  rw [List.getLast?_cons, h]
  rfl

section Special

variable {c : Char} {token : Token} (hc : ofSpecial? c = some token)
include hc

theorem ne_backslash_of_ofSpecial? : c ≠ '\\' := by
  rintro rfl
  cases hc

private theorem isPlain_of_ofSpecial? : isPlain c = false := by
  simp [isPlain, hc]

theorem isBlank_of_ofSpecial? : isBlank c = false := by
  by_contra hblank
  rw [ofSpecial?_eq_none_of_isBlank (by simpa using hblank)] at hc
  cases hc

/-- Only a quote can go on with the characters before it, and only after a backslash. -/
theorem charsLength_append_special (hs : s.getLast? = some '\\' → Line.isQuote c = false) (x : Text) :
    charsLength (s ++ c :: x) = charsLength s := by
  have hquote : ∀ {d : Char} {rest : Text} {q : Char}, Line.isQuote q = true →
      (∀ later, d = '\\' → rest = q :: later → False) →
      ((d :: rest).getLast? = some '\\' → Line.isQuote c = false) → d = '\\' →
      (rest ++ c :: x).head? ≠ some q := by
    rintro d rest q hq hne hlast rfl hhead
    cases rest with
    | nil =>
      cases hhead
      rw [hlast rfl] at hq
      cases hq
    | cons e rest =>
      cases hhead
      exact hne rest rfl rfl
  fun_induction charsLength s with
  | case1 =>
    rw [nil_append, charsLength_cons_of_ne (ne_backslash_of_ofSpecial? hc),
      isPlain_of_ofSpecial? hc]
    rfl
  | case2 rest ih | case3 rest ih =>
    rw [cons_append, cons_append, charsLength, ih fun hlast => hs
      (getLast?_cons_of_eq_some _ (getLast?_cons_of_eq_some _ hlast))]
  | case4 d rest hdouble hsingle hplain ih =>
    rw [cons_append, charsLength_cons (hquote rfl hdouble hs) (hquote rfl hsingle hs),
      if_pos hplain, ih fun hlast => hs (getLast?_cons_of_eq_some _ hlast)]
  | case5 d rest hdouble hsingle hplain =>
    have hd : d ≠ '\\' := by
      rintro rfl
      exact hplain rfl
    rw [cons_append, charsLength_cons_of_ne hd, if_neg hplain]

omit hc in
theorem takeWhile_append_cons {p : Char → Bool} (hp : p c = false) (s x : Text) :
    (s ++ c :: x).takeWhile p = s.takeWhile p := by
  rw [takeWhile_append, takeWhile_cons_of_neg (by simp [hp]), append_nil]
  split
  · next hlength => exact (( takeWhile_prefix p).eq_of_length hlength).symm
  · rfl

private theorem munch_append_special {d : Char} {rest : Text}
    (hs : (d :: rest).getLast? = some '\\' → Line.isQuote c = false) (x : Text) :
    munch d (rest ++ c :: x) = munch d rest := by
  have hchars : charsLength (d :: (rest ++ c :: x)) = charsLength (d :: rest) :=
    charsLength_append_special hc hs x
  have hblank : (d :: (rest ++ c :: x)).takeWhile isBlank = (d :: rest).takeWhile isBlank :=
    takeWhile_append_cons (isBlank_of_ofSpecial? hc) (d :: rest) x
  have hbreak : (d :: (rest ++ c :: x)).takeWhile isLineBreak = (d :: rest).takeWhile isLineBreak :=
    takeWhile_append_cons (Line.isLineBreak_of_ofSpecial? hc) (d :: rest) x
  have hspace : spaceLength (d :: (rest ++ c :: x)) = spaceLength (d :: rest) := by
    rw [spaceLength, hblank, spaceLength]
  rcases munch_cases d rest with
    ⟨hd, hm⟩ | ⟨hd, first, hfirst, hm⟩ | ⟨hd, hnone, hle, hm⟩ | ⟨hd, hnone, hlt, hm⟩
  · rw [munch_lineBreak _ hd, hm, hbreak]
  · rw [munch_special _ hd hfirst, hm]
  · rw [munch_space hd hnone (by omega), hm, hspace, hblank]
  · rw [munch_chars hd hnone (by omega), hm, hchars, ← cons_append,
      take_append_of_le_length (charsLength_le (d :: rest))]

theorem ofLine_append_special (s x : Text)
    (hs : s.getLast? = some '\\' → Line.isQuote c = false) :
    ofLine (s ++ c :: x) = ofLine s ++ token :: ofLine x := by
  induction hn : s.length using Nat.strongRecOn generalizing s with
  | _ n ih =>
    cases s with
    | nil =>
      rw [nil_append, ofLine_cons, munch_special x (Line.isLineBreak_of_ofSpecial? hc) hc]
      simp
    | cons d rest =>
      have hle := munch_le d rest
      have hlater := ih (rest.drop ((munch d rest).1 - 1)).length
        (by simp only [length_cons, length_drop] at hn ⊢; omega)
        (rest.drop ((munch d rest).1 - 1)) (fun hlast => hs (getLast?_cons_of_eq_some d ?_)) rfl
      · rw [cons_append, ofLine_cons, munch_append_special hc hs,
          drop_append_of_le_length (by omega), hlater, ofLine_cons, append_assoc]
      · have hne : rest.drop ((munch d rest).1 - 1) ≠ [] := by
          rintro hnil
          rw [hnil] at hlast
          cases hlast
        rw [← take_append_drop ((munch d rest).1 - 1) rest,
          List.getLast?_append_of_ne_nil _ hne, hlast]

theorem mem_of_special_mem_ofLine (h : token ∈ ofLine s) : c ∈ s := by
  have htext : c ∈ (ofLine s).flatMap text :=
    mem_flatMap.mpr ⟨token, h, by simp [ofSpecial?_text hc]⟩
  rw [text_ofLine] at htext
  exact mem_of_mem_filter htext

end Special

theorem backquote_mem_ofLine (h : '\x60' ∈ s) : .backquote ∈ ofLine s := by
  obtain ⟨a, b, rfl⟩ := append_of_mem h
  have hc : ofSpecial? '\x60' = some .backquote := rfl
  rw [ofLine_append_special hc a b fun _ => rfl]
  simp

end Token

namespace Line

open Shell

/-! ## Words that have a value -/

def Chunk.value : Chunk → Text
  | chars text => unescape text
  | dash => ['-']
  | string _ inside _ => inside.flatMap Token.text

/-- What a word without substitutions is made of. -/
inductive Part where
  | chunk (only : Chunk)
  | void (gap : Option Text)

namespace Part

def tokens : Part → List Token
  | chunk only => only.tokens
  | void gap => .backquote :: (gapTokens gap ++ [.backquote])

/-- The text that a part of a word stands for: a void stands for the blank inside it. -/
def value : Part → Text
  | chunk only => only.value
  | void gap => gapText gap

/-- The tokens of parts that follow each other directly. -/
def row (parts : List Part) : List Token := parts.flatMap tokens

@[simp] theorem row_nil : row [] = [] := rfl

@[simp] theorem row_cons (part : Part) (parts : List Part) :
    row (part :: parts) = part.tokens ++ row parts :=
  flatMap_cons

@[simp] theorem row_append (parts parts' : List Part) :
    row (parts ++ parts') = row parts ++ row parts' :=
  flatMap_append

end Part

theorem value_append_eq_ok {x y : Except Complaint Text} {v : Text}
    (h : (do return (← x) ++ (← y)) = .ok v) : ∃ a b, x = .ok a ∧ y = .ok b ∧ v = a ++ b := by
  cases x with
  | error cause => cases h
  | ok a =>
    cases y with
    | error cause => cases h
    | ok b =>
      cases h
      exact ⟨a, b, rfl, rfl, rfl⟩

theorem value_map_eq_ok {y : Except Complaint Text} {f : Text → Text} {v : Text}
    (h : (do return f (← y)) = .ok v) : ∃ b, y = .ok b ∧ v = f b := by
  cases y with
  | error cause => cases h
  | ok b =>
    cases h
    exact ⟨b, rfl, rfl⟩

theorem Body.backquote_not_mem (quote : Quote) (body : Body) {v : Text}
    (h : body.value quote = .ok v) : .backquote ∉ Tree.tokensOf (body.trees quote) := by
  cases body with
  | done => exact not_mem_nil
  | mark rest =>
    obtain ⟨_, hrest, -⟩ := value_map_eq_ok h
    simp only [Body.trees, Tree.tokens, Tree.tokensOf, mem_append, not_or]
    exact ⟨by cases quote <;> simp [Quote.other, Quote.token],
      rest.backquote_not_mem quote hrest⟩
  | literal token rest =>
    obtain ⟨_, hrest, -⟩ := value_map_eq_ok h
    simp only [Body.trees, Tree.tokens, Tree.tokensOf, append_nil, mem_append, not_or]
    exact ⟨by cases token <;> simp [Literal.token], rest.backquote_not_mem quote hrest⟩
  | space text rest =>
    obtain ⟨_, hrest, -⟩ := value_map_eq_ok h
    simp only [Body.trees, spaceLeaf, Tree.tokens, Tree.tokensOf, mem_append, not_or]
    exact ⟨by simp, rest.backquote_not_mem quote hrest⟩
  | substitution inner rest => cases h

variable {inside : List Token} {quote : Quote} {script : Script}

theorem spelling_inside_all (h : quote.token ∉ inside) :
    spelling (some quote) inside = inside.flatMap Token.text := by
  induction inside with
  | nil => rfl
  | cons token inside ih =>
    rw [mem_cons, not_or] at h
    rw [spelling_inside (Ne.symm h.1), ih h.2, flatMap_cons]

theorem openAfter_inside (h : quote.token ∉ inside) :
    openAfter (some quote) inside = some quote := by
  induction inside with
  | nil => rfl
  | cons token inside ih =>
    rw [mem_cons, not_or] at h
    rw [openAfter_cons, Quote.after, if_neg (Ne.symm h.1), ih h.2]

theorem Quoted.exists_part (q : Quoted) {v : Text} (h : q.value = .ok v) :
    ∃ part : Part, q.tree.tokens = part.tokens ∧ v = part.value := by
  cases q with
  | mk quote body =>
    have hback := body.backquote_not_mem quote h
    have hquote := body.quote_not_mem quote hback
    have hvalue := body.value_eq quote hback
    rw [Quoted.value, hvalue, spelling_inside_all hquote] at h
    refine ⟨.chunk (.string quote (Tree.tokensOf (body.trees quote)) ?_), ?_, ?_⟩
    · exact fun token htoken => ⟨fun heq => hquote (heq ▸ htoken), fun heq => hback (heq ▸ htoken)⟩
    · simp [Part.tokens, Chunk.tokens]
    · cases h
      rfl

theorem Strings.exists_parts (s : Strings) {v : Text} (h : s.value = .ok v) :
    ∃ parts : List Part, parts ≠ [] ∧ Tree.tokensOf s.trees = Part.row parts ∧
      v = parts.flatMap Part.value := by
  cases s with
  | one first =>
    obtain ⟨part, htokens, hv⟩ := first.exists_part h
    exact ⟨[part], by simp, by simp [htokens], by simp [hv]⟩
  | more first rest =>
    obtain ⟨a, b, hfirst, hrest, rfl⟩ := value_append_eq_ok h
    obtain ⟨part, htokens, rfl⟩ := first.exists_part hfirst
    obtain ⟨parts, -, hparts, rfl⟩ := rest.exists_parts hrest
    exact ⟨part :: parts, by simp, by simp [htokens, hparts],
      by simp⟩

@[simp] theorem tokensOf_voidLeaves (gap : Option Text) :
    Tree.tokensOf (voidLeaves gap) = (Part.void gap).tokens := by
  cases gap <;> rfl

/-- A word that has a value is a row of chunks and voids, and stands for what they stand for. -/
theorem Word.exists_parts (w : Word) {v : Text} (h : w.value = .ok v) :
    ∃ parts : List Part, parts ≠ [] ∧ w.tree.tokens = Part.row parts ∧
      v = parts.flatMap Part.value := by
  -- a part before a word, and a part after one
  have hbefore : ∀ (part : Part) {rest : Word} {b : Text}, (∃ parts : List Part, parts ≠ [] ∧
      rest.tree.tokens = Part.row parts ∧ b = parts.flatMap Part.value) →
      ∃ parts : List Part, parts ≠ [] ∧ part.tokens ++ rest.tree.tokens = Part.row parts ∧
        part.value ++ b = parts.flatMap Part.value := by
    rintro part rest b ⟨parts, -, hparts, rfl⟩
    exact ⟨part :: parts, by simp, by simp [hparts], by simp⟩
  have hafter : ∀ (part : Part) {front : Word} {a : Text}, (∃ parts : List Part, parts ≠ [] ∧
      front.tree.tokens = Part.row parts ∧ a = parts.flatMap Part.value) →
      ∃ parts : List Part, parts ≠ [] ∧ front.tree.tokens ++ part.tokens = Part.row parts ∧
        a ++ part.value = parts.flatMap Part.value := by
    rintro part front a ⟨parts, -, hparts, rfl⟩
    exact ⟨parts ++ [part], by simp, by simp [hparts], by simp⟩
  cases w with
  | chars text =>
    cases h
    exact ⟨[.chunk (.chars text)], by simp, rfl, by simp [Part.value, Chunk.value]⟩
  | dash =>
    cases h
    exact ⟨[.chunk .dash], by simp, rfl, rfl⟩
  | voidBefore gap rest =>
    obtain ⟨b, hrest, rfl⟩ := value_map_eq_ok h
    simp only [Word.tree, Tree.tokens, Tree.tokensOf, Tree.tokensOf_append, append_nil,
      tokensOf_voidLeaves]
    exact hbefore (.void gap) (rest.exists_parts hrest)
  | substitutionBefore inner rest => cases h
  | substitution inner => cases h
  | strings run => exact run.exists_parts h
  | stringBefore first rest =>
    obtain ⟨a, b, hfirst, hrest, rfl⟩ := value_append_eq_ok h
    obtain ⟨part, htokens, rfl⟩ := first.exists_part hfirst
    simp only [Word.tree, Tree.tokens, Tree.tokensOf, append_nil, htokens]
    exact hbefore part (rest.exists_parts hrest)
  | charsBefore text rest =>
    obtain ⟨b, hrest, rfl⟩ := value_map_eq_ok h
    simp only [Word.tree, Tree.tokens, Tree.tokensOf, append_nil]
    exact hbefore (.chunk (.chars text)) (rest.exists_parts hrest)
  | dashBefore rest =>
    obtain ⟨b, hrest, rfl⟩ := value_map_eq_ok h
    simp only [Word.tree, Tree.tokens, Tree.tokensOf, append_nil]
    exact hbefore (.chunk .dash) (rest.exists_parts hrest)
  | stringAfter front last =>
    obtain ⟨a, b, hfront, hlast, rfl⟩ := value_append_eq_ok h
    obtain ⟨part, htokens, rfl⟩ := last.exists_part hlast
    simp only [Word.tree, Tree.tokens, Tree.tokensOf, append_nil, htokens]
    exact hafter part (front.exists_parts hfront)
  | voidAfter front gap =>
    obtain ⟨a, hfront, rfl⟩ := value_map_eq_ok (f := (· ++ gapText gap)) h
    simp only [Word.tree, Tree.tokens, Tree.tokensOf, tokensOf_voidLeaves]
    exact hafter (.void gap) (front.exists_parts hfront)
  | substitutionAfter front inner =>
    rw [Word.value] at h
    cases hfront : front.value with
    | error cause | ok a => rw [hfront] at h; cases h

/-! ## A quoted string after `echo` -/

def quotedLine (quote : Quote) (s : Text) : Text :=
  "echo ".toList ++ quote.token.text ++ s ++ quote.token.text

theorem not_mem_quotedLine {c : Char} (hc : c ∉ "echo \"'".toList) (quote : Quote) (hs : c ∉ s) :
    c ∉ quotedLine quote s := by
  unfold quotedLine
  cases quote <;> simp_all [Quote.token, Token.text]

/-- A line that is read as an `echo` of a single argument. -/
def Script.EchoesArgument (script : Script) (s : Text) : Prop :=
  ∃ opening name ending value, script.line = some (.command (.mk opening name ending)) ∧
    opening.redirects = [] ∧ name.value = .ok "echo".toList ∧ ending.redirects = [] ∧
    ending.modifiers = [.arg value] ∧ value.value = .ok s

theorem Script.EchoesArgument.unique {s' : Text} (h : script.EchoesArgument s)
    (h' : script.EchoesArgument s') : s = s' := by
  obtain ⟨opening, name, ending, value, hline, -, -, -, hmodifiers, hvalue⟩ := h
  obtain ⟨opening', name', ending', value', hline', -, -, -, hmodifiers', hvalue'⟩ := h'
  rw [hline] at hline'
  cases hline'
  rw [hmodifiers] at hmodifiers'
  cases hmodifiers'
  rw [hvalue] at hvalue'
  exact Except.ok.inj hvalue'

theorem Quote.isQuote_text (quote : Quote) : ∃ c, quote.token.text = [c] ∧
    Token.ofSpecial? c = some quote.token ∧ (c = '"' ∨ c = '\'') := by
  cases quote with
  | double => exact ⟨'"', rfl, rfl, .inl rfl⟩
  | single => exact ⟨'\'', rfl, rfl, .inr rfl⟩

theorem ofLine_quotedLine (quote : Quote) (hlast : s.getLast? ≠ some '\\') :
    Token.ofLine (quotedLine quote s) = .chars "echo".toList :: .space [' '] ::
      quote.token :: (Token.ofLine s ++ [quote.token]) := by
  obtain ⟨c, htext, hc, -⟩ := quote.isQuote_text
  have hecho : Token.ofLine "echo ".toList = [.chars "echo".toList, .space [' ']] := by cbv
  have hline : quotedLine quote s = "echo ".toList ++ c :: (s ++ c :: []) := by
    unfold quotedLine
    rw [htext, append_assoc, append_assoc, singleton_append]
  rw [hline, Token.ofLine_append_special hc _ _ (by simp),
    Token.ofLine_append_special hc _ _ (fun h => absurd h hlast), hecho, Token.ofLine_nil]
  rfl

@[simp] theorem Modifier.tokens_flag (name : Word) :
    (Modifier.flag name).tree.tokens = .dash :: name.tree.tokens := by
  simp

@[simp] theorem Modifier.tokens_arg (value : Word) :
    (Modifier.arg value).tree.tokens = value.tree.tokens := by
  simp

private theorem Modifier.eq_arg_of_string {m : Modifier}
    (hinside : ∀ token ∈ inside, token ≠ quote.token ∧ token ≠ .backquote)
    (h : m.tree.tokens = quote.token :: (inside ++ [quote.token])) :
    ∃ value, m = .arg value ∧ value.value = .ok (inside.flatMap Token.text) := by
  have hquote : quote.token ∉ inside := fun hmem => (hinside _ hmem).1 rfl
  have hstate : openAfter (some quote) inside = some quote :=
    openAfter_inside hquote
  cases m with
  | flag name =>
    rw [Modifier.tokens_flag] at h
    cases quote <;> cases (List.cons.inj h).1
  | arg value =>
    rw [Modifier.tokens_arg] at h
    refine ⟨value, rfl, ?_⟩
    have hback : .backquote ∉ value.tree.tokens :=
      h ▸ (Chunk.string quote inside hinside).backquote_not_mem
    rw [value.value_eq hback, h, spelling_quoted quote hstate, spelling_inside_all hquote]

theorem read_quotedLine (quote : Quote) (hlast : s.getLast? ≠ some '\\')
    (hbroken : Token.Unbroken s)
    (hinside : ∀ token ∈ Token.ofLine s, token ≠ quote.token ∧ token ≠ .backquote) :
    ∃ script, Script.ofLine? (quotedLine quote s) = some script ∧ script.EchoesArgument s := by
  have htrail : Trail [] [Chunk.row [.string quote (Token.ofLine s) hinside]] _ :=
    .word [' '] (by simp) .nil
  have hname : [Chunk.chars "echo".toList] ≠ [] := by simp
  obtain ⟨opening, name, ending, hreads, hredirects, hname, hmodifiers⟩ :=
    Front.exists_reads hname .nil htrail
  obtain ⟨hopening, hending⟩ : opening.redirects = [] ∧ ending.redirects = [] := by
    simpa using hredirects
  have hvalue : name.value = .ok "echo".toList := by
    rw [name.value_eq (by rw [hname]; exact Chunk.backquote_not_mem_row _), hname]
    cbv
  obtain ⟨m, hm, hall⟩ : ∃ m : Modifier, m.Reads _ ∧ ending.modifiers = [m] := by
    cases hmods : ending.modifiers with
    | nil => rw [hmods] at hmodifiers; cases hmodifiers
    | cons m later =>
      rw [hmods] at hmodifiers
      obtain ⟨hm, hlater⟩ := forall₂_cons.mp hmodifiers
      rw [forall₂_nil_right_iff.mp hlater]
      exact ⟨m, hm, rfl⟩
  obtain ⟨value, rfl, harg⟩ := Modifier.eq_arg_of_string hinside
    (by simpa [Chunk.tokens] using hm.tokens_eq)
  rw [hbroken.text_ofLine] at harg
  refine ⟨⟨some (.command (.mk opening name ending)), []⟩, ?_, opening, name, ending, value, rfl,
    hopening, hvalue, hending, hall, harg⟩
  have htokens : Token.ofLine (quotedLine quote s) = Chunk.row [.chars "echo".toList] ++
      Token.space [' '] :: (Chunk.row [.string quote (Token.ofLine s) hinside] ++ []) := by
    simp [ofLine_quotedLine quote hlast, Chunk.tokens]
  rw [Script.ofLine?, htokens]
  exact hreads.ofTokens?

/-! ## Backquotes between quotes -/

theorem Part.exists_cons (part : Part) :
    ∃ token ts, part.tokens = token :: ts ∧ token.isSpace = false := by
  cases part with
  | chunk only =>
    cases only with
    | chars text => exact ⟨_, _, rfl, rfl⟩
    | dash => exact ⟨_, _, rfl, rfl⟩
    | string quote inside plain => exact ⟨_, _, rfl, by cases quote <;> rfl⟩
  | void gap => exact ⟨_, _, rfl, rfl⟩

theorem Part.eq_string {part : Part} {rest ts : List Token}
    (h : part.tokens ++ rest = quote.token :: ts) : ∃ inside,
      (∀ token ∈ inside, token ≠ quote.token ∧ token ≠ .backquote) ∧
        inside ++ quote.token :: rest = ts := by
  cases part with
  | chunk only =>
    cases only with
    | chars text | dash => cases quote <;> cases (List.cons.inj h).1
    | string quote' inside plain =>
      obtain ⟨htoken, htail⟩ := List.cons.inj h
      obtain rfl := Quote.token_injective htoken
      refine ⟨inside, plain, ?_⟩
      rw [← htail]
      exact (append_assoc inside [quote'.token] rest).symm
  | void gap => cases quote <;> cases (List.cons.inj h).1

private theorem Part.row_eq_chars {parts : List Part} (hne : parts ≠ []) {n text text' : Text}
    {rest rest' : List Token}
    (h : row parts ++ .space text :: rest = .chars n :: .space text' :: rest') : rest = rest' := by
  obtain ⟨part, later, rfl⟩ := exists_cons_of_ne_nil hne
  rw [row_cons, append_assoc] at h
  have htail : row later ++ .space text :: rest = .space text' :: rest' := by
    cases part with
    | chunk only =>
      cases only with
      | chars n' => exact (List.cons.inj h).2
      | dash => cases (List.cons.inj h).1
      | string quote inside plain => cases quote <;> cases (List.cons.inj h).1
    | void gap => cases (List.cons.inj h).1
  cases later with
  | nil => exact (List.cons.inj htail).2
  | cons next later =>
    obtain ⟨token, ts, hnext, hspace⟩ := next.exists_cons
    rw [row_cons, hnext] at htail
    cases (List.cons.inj htail).1
    cases hspace

private theorem Ending.eq_modifier {e : Ending} {m : Modifier} (hredirects : e.redirects = [])
    (hmodifiers : e.modifiers = [m]) : ∃ text, e = .modifier text m .done := by
  match e with
  | .done => cases hmodifiers
  | .redirect spaces first rest => cases hredirects
  | .modifier text first .done =>
    cases hmodifiers
    exact ⟨text, rfl⟩
  | .modifier text first (.redirect spaces _ rest) => cases hredirects
  | .modifier text first (.modifier _ _ rest) => cases hmodifiers

theorem Script.EchoesArgument.backquote_not_mem {t : Text} (h : script.EchoesArgument t)
    (hread : Script.ofLine? (quotedLine quote s) = some script) (hlast : s.getLast? ≠ some '\\')
    (hquote : quote.token ∉ Token.ofLine s) : .backquote ∉ Token.ofLine s := by
  obtain ⟨opening, name, ending, value, hline, -, hname, hredirects, hmodifiers, hvalue⟩ := h
  obtain ⟨text, rfl⟩ := Ending.eq_modifier hredirects hmodifiers
  obtain ⟨parts, hne, hparts, -⟩ := name.exists_parts hname
  obtain ⟨parts', hne', hparts', -⟩ := value.exists_parts hvalue
  have htokens := Script.tokens_of_line hread hline
  rw [CommandLine.tokens_command, ofLine_quotedLine quote hlast] at htokens
  have hcommand : (Command.mk opening name (.modifier text (.arg value) .done)).tree.tokens =
      Tree.tokensOf opening.trees ++ (Part.row parts ++ .space text :: Part.row parts') := by
    simp [spaceLeaf, hparts, hparts']
  rw [hcommand, append_assoc] at htokens
  obtain rfl := Opening.eq_done (congrArg List.head? htokens.symm)
  have hargument := Part.row_eq_chars hne
    (by simpa using htokens.symm)
  obtain ⟨part, later, rfl⟩ := exists_cons_of_ne_nil hne'
  rw [Part.row_cons, append_assoc] at hargument
  -- the first part is a string that ends at the first quote of its kind, which is the last token
  obtain ⟨inside, hinside, htail⟩ := Part.eq_string hargument
  obtain ⟨rfl, -⟩ := append_cons_cancel (fun hmem => (hinside _ hmem).1 rfl) hquote htail
  exact fun hmem => (hinside _ hmem).2 rfl

theorem unbroken_of_not_mem (hreturn : '\r' ∉ s) (hfeed : '\n' ∉ s) : Token.Unbroken s := by
  intro c hc
  have hr : c ≠ '\r' := fun h => hreturn (h ▸ hc)
  have hn : c ≠ '\n' := fun h => hfeed (h ▸ hc)
  simp [Token.isLineBreak, hr, hn]

theorem quote_not_mem_ofLine (h : ∀ c ∈ quote.token.text, c ∉ s) :
    quote.token ∉ Token.ofLine s := by
  obtain ⟨c, htext, hc, -⟩ := quote.isQuote_text
  exact fun hmem => h c (by simp [htext]) (Token.mem_of_special_mem_ofLine hc hmem)

private theorem substituted_eq_pure {line : Text} (hplain : '\x60' ∉ line)
    (hbroken : Token.Unbroken line)
    (hread : Script.ofLine? line = some script) : substituted line = pure line := by
  have hself : unbroken line = line :=
    filter_eq_self.mpr fun c hc => by simp [hbroken c hc]
  rw [substituted_of_plain hplain, Script.ofLine, hread, hself]
  rfl

/-- Between single quotes everything stands for itself and nothing is run, exactly if there is no
backquote among it. -/
theorem substituted_single_quoted_iff (s : Text) (hquote : '\'' ∉ s) (hreturn : '\r' ∉ s)
    (hfeed : '\n' ∉ s) (hlast : s.getLast? ≠ some '\\') :
    (substituted (quotedLine .single s) = pure (quotedLine .single s) ∧
      ∃ script, Script.ofLine? (quotedLine .single s) = some script ∧ script.EchoesArgument s) ↔
    '\x60' ∉ s := by
  have hinside : Quote.single.token ∉ Token.ofLine s :=
    quote_not_mem_ofLine (by simpa [Quote.token, Token.text] using hquote)
  constructor
  · rintro ⟨-, script, hread, hechoes⟩ hback
    exact hechoes.backquote_not_mem hread hlast hinside (Token.backquote_mem_ofLine hback)
  · intro hback
    have hplain : '\x60' ∉ quotedLine .single s := not_mem_quotedLine (by decide) .single hback
    have hbroken : Token.Unbroken (quotedLine .single s) :=
      unbroken_of_not_mem (not_mem_quotedLine (by decide) .single hreturn)
        (not_mem_quotedLine (by decide) .single hfeed)
    obtain ⟨script, hread, hechoes⟩ := read_quotedLine .single hlast
      (unbroken_of_not_mem hreturn hfeed) fun token htoken =>
        ⟨fun heq => hinside (heq ▸ htoken), fun heq => backquote_not_mem_ofLine hback (heq ▸ htoken)⟩
    exact ⟨substituted_eq_pure hplain hbroken hread, script, hread, hechoes⟩

/-- Separators, a double quote, an escape and a wildcard between single quotes. -/
theorem substituted_single_quoted_iff_separators :
    ('\'' ∉ "a;b | \"c\\d\" >*".toList ∧ '\x60' ∉ "a;b | \"c\\d\" >*".toList) ∧
    substituted "echo 'a;b | \"c\\d\" >*'".toList = pure "echo 'a;b | \"c\\d\" >*'".toList ∧
    ∃ script, Script.ofLine? "echo 'a;b | \"c\\d\" >*'".toList = some script ∧
      script.EchoesArgument "a;b | \"c\\d\" >*".toList :=
  ⟨⟨by decide, by decide⟩, (substituted_single_quoted_iff "a;b | \"c\\d\" >*".toList (by decide)
    (by decide) (by decide) (by decide)).mpr (by decide)⟩

section Echoing

open Evaluation

private theorem plan_echoing_only : plan utilities filedWorld "echo hi".toList =
    .ok (.simple (.command .echo [] ["hi".toList])) := by
  have hread : Script.ofLine? "echo hi".toList = some ⟨some (.command (echoing .done)), []⟩ := by
    decide +kernel
  rw [plan, Script.ofLine, hread]
  exact plan_echoing

/-- A substitution between single quotes is run. -/
theorem substituted_single_quoted_echo :
    (substituted "echo '\x60echo hi\x60'".toList).on filedWorld =
      (.ok "echo 'hi'".toList, filedWorld) := by
  have hread : ∃ script, Script.ofLine? "echo '\x60echo hi\x60'".toList = some script ∧
      script.tree.pieces = [.plain "echo".toList, .plain [' '], .plain ['\''],
        .substitution "\x60echo hi\x60".toList (some "echo hi".toList), .plain ['\'']] :=
    Option.map_eq_some_iff.mp (by decide +kernel)
  obtain ⟨script, hread, hpieces⟩ := hread
  have hrun : (outputOn Plan.usualInput "echo hi".toList).on filedWorld =
      (.ok "hi\n".toList, filedWorld) := by
    rw [on_outputOn_of_plan plan_echoing_only]
    cbv
  rw [on_substituted hread, hpieces, on_replaceAll_iff]
  exact .plain (.plain (.plain (.ran hrun (.plain (.done _)))))

end Echoing

/-! ## Wildcards between quotes -/

/-- What an argument becomes: the paths that it fits, or itself if there are none. -/
def expanded (w : World) (argument : Text) : Checked (List Text) :=
  match Expansion.paths w argument with
  | .error cause => Checked.crash cause
  | .ok paths => return if paths.isEmpty then [argument] else paths

theorem expanded_eq_ok_self {w : World} {argument : Text} :
    expanded w argument = .ok [argument] ↔
      Expansion.paths w argument = .ok [] ∨ Expansion.paths w argument = .ok [argument] := by
  unfold expanded
  cases Expansion.paths w argument with
  | error cause => simp [Checked.crash]
  | ok paths =>
    cases paths with
    | nil | cons path paths => simp [pure, Except.pure]

theorem Script.EchoesArgument.plan_eq {script : Script} {s : Text} (h : script.EchoesArgument s)
    (w : World) :
    script.plan utilities w = do return .simple (.command .echo [] (← expanded w s)) := by
  obtain ⟨opening, name, ending, value, hline, hopening, hname, hending, hmodifiers, hvalue⟩ := h
  have hfind : utilities.find? ('e' :: "cho".toList) = some .echo := by decide
  have hread : (echoed []).read w (utilities.specification .echo) (.arg value) =
      do return echoed (← expanded w s) := by
    rw [Progress.read, hvalue]
    change Progress.readArgument w s (echoed []) = _
    rw [Progress.readArgument, expanded]
    cases Expansion.paths w s with
    | error cause => rfl
    | ok paths =>
      simp only [echoed, foldl_addOperand]
      rfl
  rw [Script.plan, hline]
  refine (Command.plan_named hname hfind).trans ?_
  rw [hopening, hending, hmodifiers]
  change (List.foldlM _ (echoed []) [Modifier.arg value] >>= _) = _
  rw [foldlM_cons, hread]
  cases expanded w s with
  | error failure => rfl
  | ok operands => rfl

/-- A word between double quotes is one argument, and like any argument it stands for the paths
that it fits. So `echo` is given the word itself exactly if no path fits it or only the word does,
which is so in every world if it has no wildcards. -/
theorem planOf_double_quoted (w : World) (s : Text) (hquote : '"' ∉ s) (hback : '\x60' ∉ s)
    (hreturn : '\r' ∉ s) (hfeed : '\n' ∉ s) (hlast : s.getLast? ≠ some '\\') :
    (∃ script, Script.ofLine? (quotedLine .double s) = some script ∧ script.EchoesArgument s) ∧
    (planOf utilities (quotedLine .double s)).on w =
      (do return .simple (.command .echo [] (← expanded w s)), w) ∧
    ((planOf utilities (quotedLine .double s)).on w = (.ok (.simple (.command .echo [] [s])), w) ↔
      Expansion.paths w s = .ok [] ∨ Expansion.paths w s = .ok [s]) ∧
    (Wildcard.hasAny s = false →
      (planOf utilities (quotedLine .double s)).on w =
        (.ok (.simple (.command .echo [] [s])), w)) := by
  have hinside : Quote.double.token ∉ Token.ofLine s :=
    quote_not_mem_ofLine (by simpa [Quote.token, Token.text] using hquote)
  obtain ⟨script, hread, hechoes⟩ := read_quotedLine .double hlast
    (unbroken_of_not_mem hreturn hfeed) fun token htoken =>
      ⟨fun heq => hinside (heq ▸ htoken), fun heq => backquote_not_mem_ofLine hback (heq ▸ htoken)⟩
  have hplain : '\x60' ∉ quotedLine .double s := not_mem_quotedLine (by decide) .double hback
  have hself : unbroken (quotedLine .double s) = quotedLine .double s :=
    unbroken_eq (not_mem_quotedLine (by decide) .double hreturn)
      (not_mem_quotedLine (by decide) .double hfeed)
  have hplan : (planOf utilities (quotedLine .double s)).on w =
      (do return .simple (.command .echo [] (← expanded w s)), w) := by
    rw [on_planOf utilities hplain, hself, plan, Script.ofLine, hread]
    exact congrArg (·, w) (hechoes.plan_eq w)
  have hiff : (planOf utilities (quotedLine .double s)).on w =
      (.ok (.simple (.command .echo [] [s])), w) ↔ expanded w s = .ok [s] := by
    rw [hplan]
    cases expanded w s with
    | error failure => simp [bind, Except.bind]
    | ok operands => simp [bind, Except.bind, pure, Except.pure]
  refine ⟨⟨script, hread, hechoes⟩, hplan, hiff.trans expanded_eq_ok_self, fun hany => ?_⟩
  exact hiff.mpr (expanded_eq_ok_self.mpr (paths_of_hasAny hany w))

/-- Separators, an arrow and a string of the other kind between double quotes. -/
theorem planOf_double_quoted_separators :
    ('"' ∉ "a;b | 'c' >\\'d".toList ∧ Wildcard.hasAny "a;b | 'c' >\\'d".toList = false) ∧
    (planOf utilities "echo \"a;b | 'c' >\\'d\"".toList).on (worldWith []) =
      (.ok (.simple (.command .echo [] ["a;b | 'c' >\\'d".toList])), worldWith []) :=
  ⟨⟨by decide, by decide⟩, (planOf_double_quoted (worldWith []) "a;b | 'c' >\\'d".toList (by decide)
    (by decide) (by decide) (by decide) (by decide)).2.2.2 (by decide)⟩

/-- A wildcard between quotes is expanded. -/
theorem planOf_double_quoted_star :
    (planOf utilities "echo \"*\"".toList).on (worldWith []) =
      (.ok (.simple (.command .echo [] [['f']])), worldWith []) := by
  have htokens : Token.ofLine ['*'] = [.chars ['*']] := by cbv
  have hpaths : Expansion.paths (worldWith []) ['*'] = .ok [['f']] := by cbv
  obtain ⟨script, hread, hechoes⟩ := read_quotedLine .double (s := ['*']) (by decide)
    (by simp [Token.Unbroken, Token.isLineBreak]) (by simp [htokens, Quote.token])
  apply on_planOf_of_script (by decide) (by decide) hread
  rw [hechoes.plan_eq, expanded, hpaths]
  rfl

/-! ## An output between quotes -/

/-- An output with spaces for its newlines, trimmed and with single spaces. -/
def tidied (out : Text) : Text := Text.collapseSpaces (Text.trim (out.map unbreak))

theorem trim_of_isSpace (h : ∀ c ∈ s, Text.isSpace c = true) : Text.trim s = [] := by
  rw [Text.trim, dropWhile_eq_nil_iff.mpr h]
  rfl

theorem isSpace_map_of_trim (h : Text.trim s = []) :
    ∀ c ∈ s.map unbreak, Text.isSpace c = true := by
  intro c hc
  obtain ⟨d, hd, rfl⟩ := mem_map.mp hc
  obtain ⟨a, b, hs, ha, hb⟩ := Text.exists_append_trim s
  rw [hs, h, append_nil] at hd
  rw [isSpace_unbreak]
  exact (mem_append.mp hd).elim (ha d) (hb d)

theorem tidied_eq (out : Text) : tidied out = oneLine out := by
  rw [tidied, ← Text.squeeze_trim, oneLine]
  by_cases h : Text.trim out = []
  · rw [trim_of_isSpace (isSpace_map_of_trim h), h, map_nil]
  · rw [Text.trim_map isSpace_unbreak h]

theorem splice_eq_escape (out : Text) : splice out = escape (tidied out) := by
  by_cases h : Text.trim out = []
  · have hspace := isSpace_map_of_trim h
    rw [splice_eq_settled, settled, escape_of_isSpace hspace, tidied, trim_of_isSpace hspace]
    rfl
  · rw [splice_eq h, tidied_eq]

theorem escape_eq_self_iff : escape s = s ↔ ∀ c ∈ s, isQuote c = false := by
  refine ⟨fun h => ?_, mark_of_neg⟩
  have hlength : (escape s).length = s.length + s.countP isQuote := length_mark isQuote s
  rw [h] at hlength
  have hcount : s.countP isQuote = 0 := by omega
  simpa [countP_eq_zero] using hcount

@[simp] theorem getLast?_escape (s : Text) : (escape s).getLast? = s.getLast? := by
  rcases eq_nil_or_concat s with rfl | ⟨front, c, rfl⟩
  · rfl
  · rw [concat_eq_append, escape, mark_append]
    cases hc : isQuote c with
    | true => simp [mark_cons_of_pos hc]
    | false => simp [mark_cons_of_neg hc]

def catSubstitution (f : Text) : Text := '\x60' :: (catLine f ++ ['\x60'])

def quotedCommand (f : Text) : Command :=
  .mk .done (.chars "echo".toList) (.modifier [' '] (.arg (.strings (.one (.mk .double
    (.substitution (.run none (.command (catCommand f)) none) .done))))) .done)

section Cat

variable {f : Text} {w : World} {place : Location} {out : Text}

private theorem PlainName.ofLine_catSubstitution (hf : PlainName f) :
    Token.ofLine (catSubstitution f) = [.backquote, .chars "cat".toList, .space [' '], .chars f,
      .backquote] := by
  have hc : Token.ofSpecial? '\x60' = some .backquote := rfl
  have hlexed := hf.lexed (by simp) Lexed.nil
  rw [append_nil] at hlexed
  have hcat : Token.ofLine (catLine f) = [.chars "cat".toList, .space [' '], .chars f] := by
    rw [← hlexed.ofLine_eq, escape, mark_append, mark_append, ← escape, hf.escape_eq]
    rfl
  rw [catSubstitution, ← nil_append ('\x60' :: _), Token.ofLine_append_special hc _ _ (by simp),
    Token.ofLine_append_special hc _ _ (fun _ => rfl), hcat, Token.ofLine_nil]
  rfl

theorem PlainName.read_quotedLine (hf : PlainName f) :
    Script.ofLine? (quotedLine .double (catSubstitution f)) =
      some ⟨some (.command (quotedCommand f)), []⟩ := by
  have hlast : (catSubstitution f).getLast? = some '\x60' := by
    change (('\x60' :: catLine f) ++ ['\x60']).getLast? = _
    exact List.getLast?_concat
  rw [Script.ofLine?, ofLine_quotedLine .double (by simp [hlast]), hf.ofLine_catSubstitution]
  cbv

theorem PlainName.on_substituted_quoted (hf : PlainName f) (hopen : w.openToRead f = .ok place)
    (hout : Content.text? (w.content place) = some out) :
    (substituted (quotedLine .double (catSubstitution f))).on w =
      (.ok (quotedLine .double (splice out)), w) := by
  have htree : (Script.tree ⟨some (.command (quotedCommand f)), []⟩).substituted =
      (do return "echo \"".toList ++ ((← substitute (catLine f)) ++ ['"'])) := by
    simp [Script.tree, Quote.token, Quote.rule, gapLeaves, spaceLeaf, Tree.substituted,
      Tree.substitutedAll, Tree.innerLine?, Tree.hasLabel, Tree.text, Token.text, quotedCommand,
      catCommand, catLine]
  unfold substituted
  rw [Script.ofLine, hf.read_quotedLine, on_bind, on_ofChecked]
  change (Script.tree ⟨some (.command (quotedCommand f)), []⟩).substituted.on w = _
  rw [htree, on_bind, hf.on_substitute hopen hout]
  unfold quotedLine
  rw [append_assoc, append_assoc]
  rfl

/-- `echo` with a substituted `cat` between double quotes: the line is read again with the tidied
text of the file between the quotes, in which every quote has got a backslash. It is read as an
`echo` of a single argument, which keeps these backslashes. So the argument is the tidied text of
the file exactly if there are no quotes in it. -/
theorem planOf_quoted_cat (hf : PlainName f) (hopen : w.openToRead f = .ok place)
    (hout : Content.characters? (w.content place) = some out) (hreturn : '\r' ∉ out)
    (hback : '\x60' ∉ out) (hslash : '\\' ∉ out) :
    (planOf utilities (quotedLine .double (catSubstitution f))).on w =
      (plan utilities w (quotedLine .double (escape (tidied out))), w) ∧
    ∃ script, Script.ofLine? (quotedLine .double (escape (tidied out))) = some script ∧
      script.EchoesArgument (escape (tidied out)) ∧
      (script.EchoesArgument (tidied out) ↔ '"' ∉ out ∧ '\'' ∉ out) := by
  have htext : Content.text? (w.content place) = some out := by
    rw [Content.text?, hout, Option.map_some, unifyLineEnds_eq hreturn]
  have hmem : ∀ c, Text.isSpace c = false → (c ∈ tidied out ↔ c ∈ out) := by
    intro c hc
    rw [tidied_eq, mem_oneLine hc]
  have hlast : (escape (tidied out)).getLast? ≠ some '\\' := by
    rw [getLast?_escape]
    exact fun h => hslash ((hmem _ (by decide)).mp (mem_of_getLast? h))
  have hbroken : Token.Unbroken (escape (tidied out)) := by
    intro c hc
    rcases mem_escape hc with rfl | hc
    · rfl
    · exact isLineBreak_of_mem_oneLine hreturn (tidied_eq out ▸ hc)
  have hinside : ∀ token ∈ Token.ofLine (escape (tidied out)),
      token ≠ Quote.double.token ∧ token ≠ .backquote := by
    obtain ⟨ts, hlexed⟩ := Lexed.exists_of_isLineBreak (oneLine out) fun c =>
      isLineBreak_of_mem_oneLine hreturn
    obtain ⟨hbackquote, hdouble, -⟩ := unquoted_of_lexed hback hlexed
    rw [tidied_eq, hlexed.ofLine_eq]
    intro token htoken
    exact ⟨by rintro rfl; exact hdouble htoken, by rintro rfl; exact hbackquote htoken⟩
  obtain ⟨script, hread, hechoes⟩ := read_quotedLine .double hlast hbroken hinside
  refine ⟨?_, script, hread, hechoes, ?_⟩
  · unfold planOf
    rw [on_bind, hf.on_substituted_quoted hopen htext, splice_eq_escape]
    dsimp only
    rw [on_bind, on_get]
    exact on_ofChecked _ w
  · have hself : script.EchoesArgument (tidied out) ↔ escape (tidied out) = tidied out :=
      ⟨fun h => hechoes.unique h, fun h => h ▸ hechoes⟩
    rw [hself, escape_eq_self_iff, ← hmem '"' (by decide), ← hmem '\'' (by decide)]
    constructor
    · intro h
      exact ⟨fun hc => absurd (h _ hc) (by decide), fun hc => absurd (h _ hc) (by decide)⟩
    · rintro ⟨hdouble, hsingle⟩ c hc
      have hd : c ≠ '"' := fun h => hdouble (h ▸ hc)
      have hs : c ≠ '\'' := fun h => hsingle (h ▸ hc)
      simp [isQuote, hd, hs]

end Cat

/-- A file with separators, an arrow, a wildcard and blanks at the ends. -/
theorem planOf_quoted_cat_separators :
    ('"' ∉ "\ta;  b |\n>*\n".toList ∧ '\'' ∉ "\ta;  b |\n>*\n".toList) ∧
    ∃ script, Script.ofLine? "echo \"a; b | >*\"".toList = some script ∧
      script.EchoesArgument "a; b | >*".toList := by
  have hopen : (worldWith "\ta;  b |\n>*\n".toList).openToRead ['f'] = .ok [['f']] := by cbv
  have hout : Content.characters? ((worldWith "\ta;  b |\n>*\n".toList).content [['f']]) =
      some "\ta;  b |\n>*\n".toList := by cbv
  have htidied : tidied "\ta;  b |\n>*\n".toList = "a; b | >*".toList := by cbv
  obtain ⟨-, script, hread, -, hiff⟩ := planOf_quoted_cat plainName_f hopen hout (by decide)
    (by decide) (by decide)
  rw [htidied] at hread hiff
  exact ⟨by decide, script, hread, hiff.mpr (by decide)⟩

/-- A quote in the file arrives with a backslash before it. -/
theorem planOf_quoted_cat_quote :
    (planOf utilities "echo \"\x60cat f\x60\"".toList).on (worldWith ['a', '"', 'b']) =
      (.ok (.simple (.command .echo [] [['a', '\\', '"', 'b']])), worldWith ['a', '"', 'b']) := by
  have hopen : (worldWith ['a', '"', 'b']).openToRead ['f'] = .ok [['f']] := by cbv
  have htext : Content.text? ((worldWith ['a', '"', 'b']).content [['f']]) =
      some ['a', '"', 'b'] := by cbv
  have hsplice : splice ['a', '"', 'b'] = ['a', '\\', '"', 'b'] := by cbv
  have htokens : Token.ofLine ['a', '\\', '"', 'b'] = [.chars ['a', '\\', '"', 'b']] := by cbv
  have hpaths : Expansion.paths (worldWith ['a', '"', 'b']) ['a', '\\', '"', 'b'] = .ok [] := by cbv
  obtain ⟨script, hread, hechoes⟩ := read_quotedLine .double (s := ['a', '\\', '"', 'b'])
    (by decide) (by simp [Token.Unbroken, Token.isLineBreak]) (by simp [htokens, Quote.token])
  have hplan := hechoes.plan_eq (worldWith ['a', '"', 'b'])
  rw [expanded, hpaths] at hplan
  unfold planOf
  rw [on_bind, show "echo \"\x60cat f\x60\"".toList = quotedLine .double (catSubstitution ['f'])
    from rfl, plainName_f.on_substituted_quoted hopen htext, hsplice]
  dsimp only
  rw [on_bind, on_get]
  dsimp only
  rw [on_ofChecked, plan, Script.ofLine, hread]
  exact congrArg (·, _) hplan

end Line

end CommandShell

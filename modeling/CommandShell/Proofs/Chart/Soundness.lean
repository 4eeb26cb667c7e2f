import CommandShell.Line.Chart
import CommandShell.Proofs.Chart.Grammar

/-!
# Charts read what is there

Every reading in a row of a chart accounts for the tokens from that row's place on: it takes some
of them, says how many are left, and what it has read forms, token by token, an instance of the
grammar. The rows are built from the end of the line, so the proof goes the same way: whatever a
row says is sound if all later rows are.
-/

namespace CommandShell.Line

open Grammar List

/-! ## Readings -/

variable {α : Type} {left : Nat} {rest ts taken : List Token} {token : Token}

namespace Readings

variable {α β : Type} {R : α → List Token → Prop} {S : β → List Token → Prop}

/-- Each reading takes tokens from the front of `ts`, and `R` relates what was read to them. -/
def Sound (R : α → List Token → Prop) (ts : List Token) (readings : Readings α) : Prop :=
  ∀ a left, (a, left) ∈ readings →
    ∃ taken rest, ts = taken ++ rest ∧ left = rest.length ∧ R a taken

theorem mem_of_mem_distinct {readings : Readings α} {a : α} (h : (a, left) ∈ readings.distinct) :
    (a, left) ∈ readings := by
  induction readings with
  | nil => exact h
  | cons reading readings ih =>
    rw [distinct, foldr_cons, ← distinct, mem_cons] at h
    rcases h with rfl | h
    · exact mem_cons_self
    · exact mem_cons_of_mem _ (ih (mem_filter.mp h).1)

theorem mem_as {f : α → β} {readings : Readings α} {b : β} :
    (b, left) ∈ readings.as f ↔ ∃ a, (a, left) ∈ readings ∧ f a = b := by
  simp [as]

theorem mem_andThen {readings : Readings α} {next : α → Nat → Readings β} {b : β} :
    (b, left) ∈ readings.andThen next ↔
      ∃ a middle, (a, middle) ∈ readings ∧ (b, left) ∈ next a middle := by
  simp [andThen]

namespace Sound

theorem nil (ts : List Token) : Sound R ts [] := by
  intro a left h
  cases h

theorem cons {a : α} {readings : Readings α} (taken : List Token) (hts : ts = taken ++ rest)
    (hleft : left = rest.length) (hR : R a taken) (h : Sound R ts readings) :
    Sound R ts ((a, left) :: readings) := by
  intro b k hb
  rcases mem_cons.mp hb with hb | hb
  · obtain ⟨rfl, rfl⟩ := Prod.mk.inj hb
    exact ⟨taken, rest, hts, hleft, hR⟩
  · exact h b k hb

theorem none_taken {a : α} (hleft : left = ts.length) (hR : R a []) : Sound R ts [(a, left)] :=
  cons [] (nil_append ts).symm hleft hR (nil ts)

theorem append {xs ys : Readings α} (hx : Sound R ts xs) (hy : Sound R ts ys) :
    Sound R ts (xs ++ ys) := by
  intro a left h
  rcases mem_append.mp h with h | h
  · exact hx a left h
  · exact hy a left h

theorem distinct {xs : Readings α} (h : Sound R ts xs) : Sound R ts xs.distinct :=
  fun a left ha => h a left (mem_of_mem_distinct ha)

theorem mono {R' : α → List Token → Prop} {xs : Readings α} (h : Sound R ts xs)
    (hR : ∀ a taken, R a taken → R' a taken) : Sound R' ts xs := by
  intro a left ha
  obtain ⟨taken, rest, hts, hleft, hr⟩ := h a left ha
  exact ⟨taken, rest, hts, hleft, hR a taken hr⟩

theorem as {f : α → β} {xs : Readings α} (h : Sound R ts xs)
    (hf : ∀ a taken, R a taken → S (f a) taken) : Sound S ts (xs.as f) := by
  intro b left hb
  obtain ⟨a, ha, rfl⟩ := mem_as.mp hb
  obtain ⟨taken, rest, hts, hleft, hr⟩ := h a left ha
  exact ⟨taken, rest, hts, hleft, hf a taken hr⟩

theorem after (before : List Token) {xs : Readings α}
    (h : Sound (fun a taken => R a (before ++ taken)) ts xs) : Sound R (before ++ ts) xs := by
  intro a left ha
  obtain ⟨taken, rest, hts, hleft, hr⟩ := h a left ha
  exact ⟨before ++ taken, rest, by rw [hts, append_assoc], hleft, hr⟩

theorem andThen {xs : Readings α} {next : α → Nat → Readings β} (h : Sound R ts xs)
    (hnext : ∀ a taken rest, ts = taken ++ rest → R a taken →
      Sound (fun b more => S b (taken ++ more)) rest (next a rest.length)) :
    Sound S ts (xs.andThen next) := by
  intro b left hb
  obtain ⟨a, middle, ha, hb⟩ := mem_andThen.mp hb
  obtain ⟨taken, rest, rfl, rfl, hr⟩ := h a middle ha
  exact (hnext a taken rest rfl hr).after taken b left hb

end Sound

end Readings

/-! ## Phrases are never empty -/

attribute [simp] Word.tree Strings.trees Quoted.tree Body.trees Substitution.tree Redirect.tree
  Opening.trees Modifier.tree Ending.trees Command.tree CommandLine.tree

theorem Substitution.tokens_ne_nil (s : Substitution) : s.tree.tokens ≠ [] := by
  cases s <;> simp

theorem Quoted.tokens_ne_nil (q : Quoted) : q.tree.tokens ≠ [] := by
  cases q
  simp

theorem Strings.tokens_ne_nil (s : Strings) : Tree.tokensOf s.trees ≠ [] := by
  cases s <;> simp [Quoted.tokens_ne_nil]

theorem Word.tokens_ne_nil (w : Word) : w.tree.tokens ≠ [] := by
  cases w <;>
    simp [voidLeaves, Substitution.tokens_ne_nil, Strings.tokens_ne_nil, Quoted.tokens_ne_nil]

theorem Redirect.tokens_ne_nil (r : Redirect) : r.tree.tokens ≠ [] := by
  cases r
  simp

theorem Command.tokens_ne_nil (c : Command) : c.tree.tokens ≠ [] := by
  cases c
  simp [Word.tokens_ne_nil]

theorem Pipe.tokens_ne_nil (p : Pipe) : p.tree.tokens ≠ [] := by
  cases p <;> simp [Pipe.tree, jointLeaves]

theorem suffix_of_taken (h : token :: ts = taken ++ rest) (hne : taken ≠ []) : rest <:+ ts := by
  cases taken with
  | nil => exact absurd rfl hne
  | cons head taken =>
    rw [cons_append, List.cons.injEq] at h
    exact ⟨taken, h.2.symm⟩

theorem suffix_of_length_lt (h : rest <:+ token :: ts) (hlt : rest.length < (token :: ts).length) :
    rest <:+ ts := by
  rcases suffix_cons_iff.mp h with rfl | h
  · exact absurd hlt (Nat.lt_irrefl _)
  · exact h

/-! ## What each kind of phrase forms -/

def gapTokens (gap : Option Text) : List Token := (gap.map Token.space).toList

theorem forms_gap (gap : Option Text) : Forms Grammar.gap (gapLeaves gap) (gapTokens gap) := by
  cases gap with
  | none => exact .optNone
  | some text => exact .optSome (.space text)

theorem forms_spaces (spaces : List Text) :
    Forms (.star space) (spaces.map spaceLeaf) (spaces.map .space) := by
  induction spaces with
  | nil => exact .starNil
  | cons text spaces ih => exact (Forms.space text).starCons ih

theorem forms_literal {literal : Literal} (hliteral : Literal.ofToken? token = some literal) :
    Forms (ref .literal) [.node .literal [.leaf literal.token]] [token] := by
  cases token with
  | chars text =>
    cases hliteral
    exact (Forms.chars text).node .literal (by simp)
  | dash | less | greater | semicolon | bar =>
    cases hliteral
    exact (Forms.exactly _).node .literal (by simp [Literal.token])
  | _ => cases hliteral

theorem forms_quoted {quote : Quote} {xs : List Tree} {c : List Token}
    (h : Forms (Grammar.quoted quote.token quote.other.token) xs c) :
    Forms (ref .string) [.node .string [.node quote.rule xs]] c := by
  cases quote with
  | double =>
    have hnode := h.node .doubleQuoted (by simp [Quote.token, Quote.other])
    exact (hnode.left (b := ref .singleQuoted)).node _ (by simp)
  | single =>
    have hnode := h.node .singleQuoted (by simp [Quote.token, Quote.other])
    exact (hnode.right (a := ref .doubleQuoted)).node _ (by simp)

@[simp] theorem Opening.trees_ofSpaces (spaces : List Text) (rest : Opening) :
    (Opening.ofSpaces spaces rest).trees = spaces.map spaceLeaf ++ rest.trees := by
  induction spaces with
  | nil => rfl
  | cons text spaces ih =>
    rw [map_cons, cons_append, ← ih]
    rfl

/-- A body forms the inside of a string and its closing quote. -/
def Body.Forms (quote : Quote) (body : Body) (taken : List Token) : Prop :=
  Grammar.Forms (.star (bodyItem quote.other.token) ++ exactly quote.token)
    (body.trees quote ++ [Tree.leaf quote.token]) taken

/-- Suffixes turn a word into a longer one. -/
def Suffix.FormAll (suffixes : List Suffix) (taken : List Token) : Prop :=
  ∀ (front : Word) (c : List Token), Grammar.Forms (ref .phrase) [front.tree] c →
    Grammar.Forms (ref .phrase) [(suffixes.foldl Word.append front).tree] (c ++ taken)

/-- A joint goes between what stands before it and its right-hand side. -/
def Joint.Forms {α : Type} (separator : Token) (rule : Rule) (tree : α → Tree) (joint : Joint α)
    (taken : List Token) : Prop :=
  ∀ (e : Expr) (xs : List Tree) (c : List Token), Grammar.Forms e xs c →
    Grammar.Forms (e ++ gap ++ exactly separator ++ gap ++ ref rule)
      (xs ++ jointLeaves separator joint.before joint.after ++ [tree joint.right]) (c ++ taken)

/-- A joint takes its separator with the blanks around it, and then what is on its right. -/
def Joint.Joins {α : Type} (separator : Token) (R : α → List Token → Prop) (joint : Joint α)
    (taken : List Token) : Prop :=
  ∃ c, R joint.right c ∧
    taken = gapTokens joint.before ++ separator :: (gapTokens joint.after ++ c)

theorem Joint.Joins.forms {separator : Token} {rule : Rule} {tree : α → Tree} {joint : Joint α}
    (h : joint.Joins separator (fun a c => Grammar.Forms (ref rule) [tree a] c) taken) :
    joint.Forms separator rule tree taken := by
  obtain ⟨more, hmore, rfl⟩ := h
  intro e xs c hx
  have hjoint := (((hx.seq (forms_gap joint.before)).seq (.exactly separator)).seq
    (forms_gap joint.after)).seq hmore
  simpa [jointLeaves] using hjoint

theorem Joint.Forms.ne_nil {separator : Token} {rule : Rule} {tree : α → Tree} {joint : Joint α}
    (h : joint.Forms separator rule tree taken) : taken ≠ [] := by
  have hforms := h (.opt space) [] [] .optNone
  have htokens : _ = taken := hforms.tokensOf_eq
  rw [← htokens]
  simp [jointLeaves]

/-- Further commands turn a pipe into a longer one. -/
def Pipe.FormAll (joints : List (Joint Command)) (taken : List Token) : Prop :=
  ∀ (front : Pipe) (c : List Token), Grammar.Forms (ref .pipe) [front.tree] c →
    Grammar.Forms (ref .pipe) [(front.extend joints).tree] (c ++ taken)

/-- Further commands turn a sequence into a longer one. -/
def Sequence.FormAll (joints : List (Joint Command)) (taken : List Token) : Prop :=
  ∀ (front : Sequence) (c : List Token), Grammar.Forms (ref .sequence) [front.tree] c →
    Grammar.Forms (ref .sequence) [(front.extend joints).tree] (c ++ taken)

theorem Pipe.FormAll.nil : Pipe.FormAll [] [] := by
  intro front c hfront
  simpa [Pipe.extend] using hfront

theorem Pipe.FormAll.cons {first : Joint Command} {joints : List (Joint Command)}
    {more : List Token} (hfirst : first.Forms .bar .command Command.tree taken)
    (hjoints : Pipe.FormAll joints more) : Pipe.FormAll (first :: joints) (taken ++ more) := by
  intro front c hfront
  have hone := (hfirst _ _ _ hfront).node .pipe (by simp [joined])
  have hall := hjoints (.more front first.before first.after first.right) (c ++ taken)
    (by simpa [Pipe.tree] using hone)
  simpa [Pipe.extend] using hall

theorem Sequence.FormAll.nil : Sequence.FormAll [] [] := by
  intro front c hfront
  simpa [Sequence.extend] using hfront

theorem Sequence.FormAll.cons {first : Joint Command} {joints : List (Joint Command)}
    {more : List Token} (hfirst : first.Forms .semicolon .command Command.tree taken)
    (hjoints : Sequence.FormAll joints more) :
    Sequence.FormAll (first :: joints) (taken ++ more) := by
  intro front c hfront
  have hone := (hfirst _ _ _ hfront).node .sequence (by simp [joined])
  have hall := hjoints (.more front first.before first.after first.right) (c ++ taken)
    (by simpa [Sequence.tree] using hone)
  simpa [Sequence.extend] using hall

def openedTrees (opened : Opening × Word) : List Tree :=
  opened.1.trees ++ [Tree.node .name [opened.2.tree]]

/-! ## Rows and charts -/

/-- Everything that a row says about the tokens `ts` is right. -/
structure Row.Sound (ts : List Token) (row : Row) : Prop where
  token? : row.token? = ts.head?
  body (quote : Quote) : (row.body quote).Sound (Body.Forms quote) ts
  quoted : row.quoted.Sound (fun q c => Forms (ref .string) [q.tree] c) ts
  strings : row.strings.Sound (fun s c => Forms (.plus (ref .string)) s.trees c) ts
  substitution : row.substitution.Sound (fun s c => Forms (ref .subcommand) [s.tree] c) ts
  void : row.void.Sound (fun gap c => Forms Grammar.void (voidLeaves gap) c) ts
  suffixes (grip : Grip) : (row.suffixes grip).Sound Suffix.FormAll ts
  word (grip : Grip) : (row.word grip).Sound (fun w c => Forms (ref .phrase) [w.tree] c) ts
  redirect : row.redirect.Sound (fun r c => Forms (ref .redirect) [r.tree] c) ts
  spacedRedirect : row.spacedRedirect.Sound (fun r c =>
    Forms (.star space ++ ref .redirect) (r.1.map spaceLeaf ++ [r.2.tree]) c) ts
  modifier : row.modifier.Sound (fun m c => Forms (ref .modifier) [m.tree] c) ts
  ending : row.ending.Sound (fun e c => Forms (.star endingItem) e.trees c) ts
  opened : row.opened.Sound (fun o c =>
    Forms (.star space ++ (.star openingItem ++ ref .name)) (openedTrees o) c) ts
  command : row.command.Sound (fun x c => Forms (ref .command) [x.tree] c) ts
  barCommand : row.barCommand.Sound (Joint.Forms .bar .command Command.tree) ts
  bars : row.bars.Sound Pipe.FormAll ts
  pipe : row.pipe.Sound (fun p c => Forms (ref .pipe) [p.tree] c) ts
  semicolonCommand : row.semicolonCommand.Sound (Joint.Forms .semicolon .command Command.tree) ts
  semicolonPipe : row.semicolonPipe.Sound (Joint.Forms .semicolon .pipe Pipe.tree) ts
  semicolons : row.semicolons.Sound Sequence.FormAll ts
  sequence : row.sequence.Sound (fun s c => Forms (ref .sequence) [s.tree] c) ts
  commandLine : row.commandLine.Sound (fun l c => Forms (ref .commandLine) [l.tree] c) ts
  blanks? (spaces : List Text) : row.blanks? = some spaces → ts = spaces.map .space

namespace Chart

/-- The rows from some place on know the token at their place. -/
def Tracks (chart : Chart) (ts : List Token) : Prop :=
  ∀ rest, rest <:+ ts → (chart.row rest.length).token? = rest.head?

/-- Every row of a chart is right about the tokens from its place on. -/
structure Sound (chart : Chart) (ts : List Token) : Prop where
  size_eq : chart.size = ts.length + 1
  row (rest : List Token) : rest <:+ ts → (chart.row rest.length).Sound rest

variable {chart : Chart}

theorem Sound.tracks (h : chart.Sound ts) : chart.Tracks ts :=
  fun rest hrest => (h.row rest hrest).token?

theorem row_push_self (chart : Chart) (row : Row) (h : left = chart.size) :
    Chart.row (chart.push row) left = row := by
  simp [Chart.row, h]

theorem row_push_of_lt (chart : Chart) (row : Row) (h : left < chart.size) :
    Chart.row (chart.push row) left = chart.row left := by
  simp [Chart.row, Array.getElem?_push, Nat.ne_of_lt h]

theorem Tracks.push (h : chart.Tracks ts) (hsize : chart.size = ts.length + 1) {row : Row}
    (hrow : row.token? = some token) : Tracks (chart.push row) (token :: ts) := by
  intro rest hrest
  rcases suffix_cons_iff.mp hrest with rfl | hrest
  · rw [row_push_self chart row (by simp [hsize]), hrow]
    rfl
  · rw [row_push_of_lt chart row (by have := hrest.length_le; omega)]
    exact h rest hrest

theorem gap_space {later : List Token} {text : Text} (h : chart.Tracks ts)
    (hrest : .space text :: later <:+ ts) :
    chart.gap (Token.space text :: later).length = (some text, later.length) := by
  unfold Chart.gap
  rw [h _ hrest]
  rfl

theorem gaps_space {later : List Token} {text : Text} (h : chart.Tracks ts)
    (hrest : .space text :: later <:+ ts) :
    chart.gaps (Token.space text :: later).length =
      [(some text, later.length), (none, (Token.space text :: later).length)] := by
  unfold Chart.gaps
  rw [h _ hrest]
  rfl

section Gaps

variable {chart : Chart} {ts : List Token} (h : chart.Tracks ts) {rest : List Token}
  (hrest : rest <:+ ts)
include h hrest

theorem gap_spec : ∃ gap rest', rest = gapTokens gap ++ rest' ∧
    chart.gap rest.length = (gap, rest'.length) := by
  unfold Chart.gap
  rw [h rest hrest]
  cases rest with
  | nil => exact ⟨none, [], rfl, rfl⟩
  | cons token rest =>
    cases token with
    | space text => exact ⟨some text, rest, rfl, rfl⟩
    | _ => exact ⟨none, _, rfl, rfl⟩

theorem gap_eq_none (hspace : ∀ text later, rest ≠ .space text :: later) :
    chart.gap rest.length = (none, rest.length) := by
  unfold Chart.gap
  rw [h rest hrest]
  cases rest with
  | nil => rfl
  | cons token rest =>
    cases token with
    | space text => exact absurd rfl (hspace text rest)
    | _ => rfl

theorem gaps_eq_none (hspace : ∀ text later, rest ≠ .space text :: later) :
    chart.gaps rest.length = [(none, rest.length)] := by
  unfold Chart.gaps
  rw [h rest hrest]
  cases rest with
  | nil => rfl
  | cons token rest =>
    cases token with
    | space text => exact absurd rfl (hspace text rest)
    | _ => rfl

theorem sound_gaps :
    (chart.gaps rest.length).Sound (fun gap c => c = gapTokens gap) rest := by
  by_cases hspace : ∃ text later, rest = .space text :: later
  · obtain ⟨text, later, rfl⟩ := hspace
    rw [gaps_space h hrest]
    exact .cons [.space text] rfl rfl rfl (.none_taken rfl rfl)
  · rw [gaps_eq_none h hrest fun text later hrest => hspace ⟨text, later, hrest⟩]
    exact .none_taken rfl rfl

private theorem sound_expect (token : Token) :
    (chart.expect token rest.length).Sound (fun _ c => c = [token]) rest := by
  unfold Chart.expect Chart.holds
  rw [h rest hrest]
  cases rest with
  | nil => exact .nil _
  | cons head rest =>
    rw [List.head?_cons]
    split
    · next heq =>
        have heq : head = token := by simpa using heq
        subst heq
        exact .cons [head] rfl rfl rfl (.nil _)
    · exact .nil _

theorem sound_gapThen (token : Token) :
    (chart.gapThen token rest.length).Sound (fun gap c => c = gapTokens gap ++ [token]) rest := by
  obtain ⟨gap, rest', hrest', hgap⟩ := gap_spec h hrest
  have hsuffix : rest' <:+ ts := (suffix_append _ _).trans (hrest' ▸ hrest)
  unfold Chart.gapThen
  rw [hgap]
  subst hrest'
  apply Readings.Sound.after _
  apply (sound_expect h hsuffix token).as
  intro _ taken htaken
  rw [htaken]

/-- A joint takes its separator, so what follows it starts at a later place. -/
theorem sound_joint {R : α → List Token → Prop} {right : Row → Readings α} (separator : Token)
    (hright : ∀ later, later <:+ rest → later.length < rest.length →
      (right (chart.row later.length)).Sound R later) :
    (chart.joint separator right rest.length).Sound (Joint.Joins separator R) rest := by
  unfold Chart.joint
  apply (sound_gapThen h hrest separator).andThen
  intro before taken middle hmiddle htaken
  have hsuffix : middle <:+ rest := hmiddle ▸ suffix_append _ _
  apply (sound_gaps h (hsuffix.trans hrest)).andThen
  intro after taken' later hlater htaken'
  have hsuffix' : later <:+ middle := hlater ▸ suffix_append _ _
  have hlength : later.length < rest.length := by
    have hle := hsuffix'.length_le
    rw [hmiddle, htaken]
    simp only [length_append, length_cons, length_nil]
    omega
  apply (hright later (hsuffix'.trans hsuffix) hlength).as
  intro a more hmore
  subst htaken htaken'
  exact ⟨more, hmore, by simp⟩

end Gaps

end Chart

/-! ## One step of the chart -/

section Rows

variable {chart : Chart} {ts : List Token} (h : chart.Sound ts) (token : Token)
include h

theorem sound_readSubstitution :
    (readSubstitution chart token ts.length).Sound
      (fun s c => Forms (ref .subcommand) [s.tree] c) (token :: ts) := by
  unfold readSubstitution
  split
  · next htoken =>
      subst htoken
      apply Readings.Sound.after [.backquote]
      apply (Chart.sound_gaps h.tracks (suffix_refl ts)).andThen
      intro before taken rest hts htaken
      have hsuffix : rest <:+ ts := hts ▸ suffix_append _ _
      subst htaken
      apply Readings.Sound.append
      · apply (h.row rest hsuffix).commandLine.andThen
        intro line taken later hrest hline
        have hlater : later <:+ ts := (hrest ▸ suffix_append _ _).trans hsuffix
        apply (Chart.sound_gapThen h.tracks hlater .backquote).as
        intro after taken' htaken'
        have hforms := ((((Forms.exactly .backquote).seq (forms_gap before)).seq
          hline.optSome).seq (forms_gap after)).seq (.exactly .backquote)
        subst htaken'
        simpa using hforms.node .subcommand (by simp)
      · apply (Chart.sound_gapThen h.tracks hsuffix .backquote).as
        intro after taken htaken
        have hforms := ((((Forms.exactly .backquote).seq (forms_gap before)).seq
          (.optNone (a := ref .commandLine))).seq (forms_gap after)).seq (.exactly .backquote)
        subst htaken
        simpa using hforms.node .subcommand (by simp)
  · exact .nil _

theorem sound_readVoid :
    (readVoid chart token ts.length).Sound
      (fun gap c => Forms Grammar.void (voidLeaves gap) c) (token :: ts) := by
  unfold readVoid
  split
  · next htoken =>
      subst htoken
      apply Readings.Sound.after [.backquote]
      apply (Chart.sound_gapThen h.tracks (suffix_refl ts) .backquote).mono
      intro gap taken htaken
      have hforms := ((Forms.exactly .backquote).seq (forms_gap gap)).seq (.exactly .backquote)
      subst htaken
      simpa [voidLeaves, Grammar.void] using hforms
  · exact .nil _

variable {substitution : Readings Substitution} {void : Readings (Option Text)}
  {quoted : Readings Quoted} {word : Readings Word} {redirect : Readings Redirect}
  {spaced : Readings (List Text × Redirect)} {command : Readings Command} {pipe : Readings Pipe}
  (hsubstitution : substitution.Sound (fun s c => Forms (ref .subcommand) [s.tree] c) (token :: ts))
  (hvoid : void.Sound (fun gap c => Forms Grammar.void (voidLeaves gap) c) (token :: ts))
  (hquoted : quoted.Sound (fun q c => Forms (ref .string) [q.tree] c) (token :: ts))
  (hword : word.Sound (fun w c => Forms (ref .phrase) [w.tree] c) (token :: ts))
  (hredirect : redirect.Sound (fun r c => Forms (ref .redirect) [r.tree] c) (token :: ts))
  (hspaced : spaced.Sound (fun r c =>
    Forms (.star space ++ ref .redirect) (r.1.map spaceLeaf ++ [r.2.tree]) c) (token :: ts))
  (hcommand : command.Sound (fun x c => Forms (ref .command) [x.tree] c) (token :: ts))
  (hpipe : pipe.Sound (fun p c => Forms (ref .pipe) [p.tree] c) (token :: ts))

include hsubstitution in
theorem sound_readBody (quote : Quote) :
    (readBody chart token ts.length substitution quote).Sound (Body.Forms quote) (token :: ts) := by
  have hbody := (h.row ts (suffix_refl ts)).body quote
  -- an item of one token is put before what the next row reads
  have hitem : ∀ (item : Tree) (f : Body → Body),
      (∀ rest : Body, (f rest).trees quote = item :: rest.trees quote) →
      Forms (bodyItem quote.other.token) [item] [token] →
      (((chart.row ts.length).body quote).as f).Sound (Body.Forms quote) (token :: ts) := by
    intro item f hf hforms
    apply Readings.Sound.after [token]
    apply hbody.as
    intro rest taken hrest
    simpa [Body.Forms, hf] using hforms.starCons_seq hrest
  unfold readBody
  split
  · next htoken =>
      subst htoken
      refine .cons [quote.token] rfl rfl ?_ (.nil _)
      simpa [Body.Forms] using Forms.starNil.seq (Forms.exactly quote.token)
  · split
    · next htoken =>
        subst htoken
        exact hitem _ _ (fun rest => rfl) (Forms.exactly _).left
    · split
      · apply hsubstitution.andThen
        intro inner taken rest hts hinner
        have hsuffix := suffix_of_taken hts (hinner.ne_nil inner.tokens_ne_nil)
        apply ((h.row rest hsuffix).body quote).as
        intro body more hbody
        have hitem : Forms (bodyItem quote.other.token) [inner.tree] taken :=
          hinner.right.right.right
        simpa [Body.Forms] using hitem.starCons_seq hbody
      · split
        · exact hitem _ _ (fun rest => rfl) (Forms.space _).plusOne.left.right.right
        · next hliteral =>
            exact hitem _ _ (fun rest => rfl) (forms_literal hliteral).plusOne.left.right
        · exact .nil _

theorem sound_readQuoted :
    (readQuoted chart token ts.length).Sound (fun q c => Forms (ref .string) [q.tree] c)
      (token :: ts) := by
  unfold readQuoted
  split
  · next quote hquote =>
      have htoken : token = quote.token := by
        cases token <;> cases hquote <;> rfl
      subst htoken
      apply Readings.Sound.after [quote.token]
      apply ((h.row ts (suffix_refl ts)).body quote).as
      intro body taken hbody
      obtain ⟨xs, ys, c, d, hxs, htaken, hstar, hclose⟩ := hbody.split
      have hforms := ((Forms.exactly quote.token).seq hstar).seq hclose
      rw [append_assoc, ← hxs] at hforms
      subst htaken
      simpa using forms_quoted hforms
  · exact .nil _

include hquoted in
theorem sound_readStrings :
    (readStrings chart quoted).Sound (fun s c => Forms (.plus (ref .string)) s.trees c)
      (token :: ts) := by
  unfold readStrings
  apply hquoted.andThen
  intro first taken rest hts hfirst
  have hsuffix := suffix_of_taken hts (hfirst.ne_nil first.tokens_ne_nil)
  apply Readings.Sound.append
  · apply (h.row rest hsuffix).strings.as
    intro strings more hstrings
    simpa using hfirst.plusCons hstrings.star_of_plus
  · apply Readings.Sound.none_taken rfl
    simpa using hfirst.plusOne

include hsubstitution hvoid hquoted in
theorem sound_readPrimary {strings : Readings Strings}
    (hstrings : strings.Sound (fun s c => Forms (.plus (ref .string)) s.trees c) (token :: ts)) :
    (readPrimary chart token ts.length substitution void quoted strings).Sound
      (fun w c => Forms (ref .phrase) [w.tree] c) (token :: ts) := by
  have hword := (h.row ts (suffix_refl ts)).word .loose
  unfold readPrimary
  split
  · next text =>
      refine .cons [.chars text] rfl rfl
        ((Forms.chars text).node _ (by simp)) ?_
      apply Readings.Sound.after [.chars text]
      apply hword.as
      intro w taken hw
      exact ((Forms.chars text).seq hw).node _ (by simp)
  · refine .cons [.dash] rfl rfl
      ((Forms.exactly .dash).node _ (by simp)) ?_
    apply Readings.Sound.after [.dash]
    apply hword.as
    intro w taken hw
    exact ((Forms.exactly .dash).seq hw).node _ (by simp)
  · refine .append (.append (.append (.append ?_ ?_) ?_) ?_) ?_
    · apply hvoid.andThen
      intro gap taken rest hts hgap
      have hne : taken ≠ [] := by
        rw [← hgap.tokensOf_eq]
        simp [voidLeaves]
      apply ((h.row rest (suffix_of_taken hts hne)).word .tight).as
      intro w more hw
      exact (hgap.seq hw).node _ (by simp)
    · apply hsubstitution.andThen
      intro inner taken rest hts hinner
      have hsuffix := suffix_of_taken hts (hinner.ne_nil inner.tokens_ne_nil)
      apply ((h.row rest hsuffix).word .firm).as
      intro w more hw
      exact (hinner.seq hw).node _ (by simp)
    · apply hsubstitution.as
      intro inner taken hinner
      exact hinner.node _ (by simp)
    · apply hstrings.as
      intro strings taken hstrings
      exact hstrings.node _ (by simp)
    · apply hquoted.andThen
      intro first taken rest hts hfirst
      have hsuffix := suffix_of_taken hts (hfirst.ne_nil first.tokens_ne_nil)
      apply ((h.row rest hsuffix).word .loose).as
      intro w more hw
      exact (hfirst.seq hw).node _ (by simp)

include hsubstitution hvoid hquoted in
theorem sound_readSuffixes (grip : Grip) :
    (readSuffixes chart ts.length substitution void quoted grip).Sound Suffix.FormAll
      (token :: ts) := by
  -- one suffix turns a word into a word, and the later row does the rest
  have hfurther : ∀ (suffix : Suffix) (taken rest : List Token), rest <:+ ts →
      (∀ (front : Word) (c : List Token), Forms (ref .phrase) [front.tree] c →
        Forms (ref .phrase) [(front.append suffix).tree] (c ++ taken)) →
      (((chart.row rest.length).suffixes grip).as (suffix :: ·)).Sound
        (fun suffixes more => Suffix.FormAll suffixes (taken ++ more)) rest := by
    intro suffix taken rest hsuffix hone
    apply ((h.row rest hsuffix).suffixes grip).as
    intro suffixes more hsuffixes front c hfront
    simpa using hsuffixes _ _ (hone front c hfront)
  unfold readSuffixes
  refine .append (.append (.append ?_ ?_) ?_) ?_
  · apply hquoted.andThen
    intro last taken rest hts hlast
    apply hfurther (.string last) taken rest
    · exact suffix_of_taken hts (hlast.ne_nil last.tokens_ne_nil)
    · intro front c hfront
      exact (hfront.seq hlast).node _ (by simp)
  · split
    · apply hvoid.andThen
      intro gap taken rest hts hgap
      have hne : taken ≠ [] := by
        rw [← hgap.tokensOf_eq]
        simp [voidLeaves]
      apply hfurther (.void gap) taken rest (suffix_of_taken hts hne)
      intro front c hfront
      exact (hfront.seq hgap).node _ (by simp)
    · exact .nil _
  · split
    · apply hsubstitution.andThen
      intro inner taken rest hts hinner
      apply hfurther (.substitution inner) taken rest
      · exact suffix_of_taken hts (hinner.ne_nil inner.tokens_ne_nil)
      · intro front c hfront
        exact (hfront.seq hinner).node _ (by simp)
    · exact .nil _
  · apply Readings.Sound.none_taken rfl
    intro front c hfront
    simpa using hfront

theorem sound_readWord {primary : Readings Word} (grip : Grip)
    (hprimary : primary.Sound (fun w c => Forms (ref .phrase) [w.tree] c) (token :: ts)) :
    (readWord chart primary grip).Sound (fun w c => Forms (ref .phrase) [w.tree] c)
      (token :: ts) := by
  unfold readWord
  apply hprimary.andThen
  intro front taken rest hts hfront
  have hsuffix := suffix_of_taken hts (hfront.ne_nil front.tokens_ne_nil)
  apply ((h.row rest hsuffix).suffixes grip).as
  intro suffixes more hsuffixes
  exact hsuffixes front taken hfront

theorem sound_readRedirect :
    (readRedirect chart token ts.length).Sound (fun r c => Forms (ref .redirect) [r.tree] c)
      (token :: ts) := by
  unfold readRedirect
  split
  · next direction hdirection =>
      have harrow : Forms (.alt (exactly .less) (exactly .greater)) [.leaf direction.token]
          [token] := by
        cases token with
        | less => cases hdirection; exact (Forms.exactly .less).left
        | greater => cases hdirection; exact (Forms.exactly .greater).right
        | _ => cases hdirection
      obtain ⟨gap, rest, hrest, hgap⟩ := Chart.gap_spec h.tracks (suffix_refl ts)
      rw [hgap]
      have hsuffix : rest <:+ ts := hrest ▸ suffix_append _ _
      subst hrest
      apply Readings.Sound.after [token]
      apply Readings.Sound.after _
      apply ((h.row rest hsuffix).word .loose).as
      intro target taken htarget
      have hforms := (harrow.seq (forms_gap gap)).seq htarget
      simpa using hforms.node .redirect (by simp)
  · exact .nil _

include hredirect in
theorem sound_readSpacedRedirect :
    (readSpacedRedirect chart token ts.length redirect).Sound (fun r c =>
      Forms (.star space ++ ref .redirect) (r.1.map spaceLeaf ++ [r.2.tree]) c) (token :: ts) := by
  unfold readSpacedRedirect
  split
  · next text =>
      apply Readings.Sound.after [.space text]
      apply (h.row ts (suffix_refl ts)).spacedRedirect.as
      intro spaced taken hspaced
      exact (Forms.space text).starCons_seq hspaced
  · apply hredirect.as
    intro redirect taken hredirect
    exact Forms.starNil.seq hredirect

include hword in
theorem sound_readModifier :
    (readModifier chart token ts.length word).Sound (fun m c => Forms (ref .modifier) [m.tree] c)
      (token :: ts) := by
  unfold readModifier
  apply Readings.Sound.append
  · split
    · next htoken =>
        subst htoken
        apply Readings.Sound.after [.dash]
        apply ((h.row ts (suffix_refl ts)).word .loose).as
        intro name taken hname
        have hflag := ((Forms.exactly .dash).seq hname).node .flag
          (by simp)
        exact hflag.node _ (by simp)
    · exact .nil _
  · apply hword.as
    intro value taken hvalue
    have harg := hvalue.node .arg (by simp)
    exact harg.node _ (by simp)

include hspaced in
theorem sound_readEnding :
    (readEnding chart token ts.length spaced).Sound
      (fun e c => Forms (.star endingItem) e.trees c) (token :: ts) := by
  unfold readEnding
  refine .append (.append ?_ ?_) ?_
  · apply hspaced.andThen
    rintro ⟨spaces, redirect⟩ taken rest hts hredirect
    have hne : taken ≠ [] := by
      rw [← hredirect.tokensOf_eq]
      simp [redirect.tokens_ne_nil]
    apply (h.row rest (suffix_of_taken hts hne)).ending.as
    intro ending more hending
    have hitem : Forms endingItem _ _ := hredirect.left
    simpa using hitem.starCons hending
  · split
    · next text =>
        apply Readings.Sound.after [.space text]
        apply (h.row ts (suffix_refl ts)).modifier.andThen
        intro modifier taken rest hts hmodifier
        have hsuffix : rest <:+ ts := hts ▸ suffix_append _ _
        apply (h.row rest hsuffix).ending.as
        intro ending more hending
        have hitem : Forms endingItem _ _ := ((Forms.space text).seq hmodifier).right
        simpa [spaceLeaf] using hitem.starCons hending
    · exact .nil _
  · exact .none_taken rfl .starNil

include hword hredirect in
theorem sound_readOpened :
    (readOpened chart token ts.length redirect word).Sound (fun o c =>
      Forms (.star space ++ (.star openingItem ++ ref .name)) (openedTrees o) c)
      (token :: ts) := by
  unfold readOpened
  split
  · next text =>
      apply Readings.Sound.after [.space text]
      apply (h.row ts (suffix_refl ts)).opened.as
      intro opened taken hopened
      exact (Forms.space text).starCons_seq hopened
  · apply hredirect.andThen
    intro first taken rest hts hfirst
    have hsuffix := suffix_of_taken hts (hfirst.ne_nil first.tokens_ne_nil)
    apply (h.row rest hsuffix).opened.as
    intro opened more hopened
    -- the blanks after the redirect belong to it
    obtain ⟨xs, ys, c, d, hxs, hmore, hspaces, hnamed⟩ := hopened.split
    have hitem : Forms openingItem ([] ++ [first.tree] ++ xs) ([] ++ taken ++ c) :=
      (Forms.starNil.seq hfirst).seq hspaces
    have hforms := (Forms.starNil (a := space)).seq (hitem.starCons_seq hnamed)
    subst hmore
    simpa [openedTrees, ← hxs] using hforms
  · apply hword.as
    intro name taken hname
    exact Forms.starNil.seq (Forms.starNil.seq (hname.node _ (by simp)))

include hword hspaced in
theorem sound_readOpening :
    (readOpening chart spaced word).Sound (fun o c =>
      Forms (.star openingItem ++ ref .name) (openedTrees o) c) (token :: ts) := by
  unfold readOpening
  apply Readings.Sound.append
  · apply hspaced.andThen
    rintro ⟨spaces, first⟩ taken rest hts hfirst
    have hne : taken ≠ [] := by
      rw [← hfirst.tokensOf_eq]
      simp [first.tokens_ne_nil]
    apply (h.row rest (suffix_of_taken hts hne)).opened.as
    rintro ⟨opening, name⟩ more hopened
    obtain ⟨xs, ys, c, d, hxs, hmore, hspaces, hnamed⟩ := hopened.split
    have hitem : Forms openingItem _ _ := hfirst.seq hspaces
    have hforms := hitem.starCons_seq hnamed
    subst hmore
    simpa [openedTrees, ← hxs] using hforms
  · apply hword.as
    intro name taken hname
    exact Forms.starNil.seq (hname.node _ (by simp))

theorem sound_readCommand {opening : Readings (Opening × Word)}
    (hopening : opening.Sound (fun o c =>
      Forms (.star openingItem ++ ref .name) (openedTrees o) c) (token :: ts)) :
    (readCommand chart opening).Sound (fun x c => Forms (ref .command) [x.tree] c)
      (token :: ts) := by
  unfold readCommand
  apply hopening.andThen
  rintro ⟨opening, name⟩ taken rest hts hopened
  have hne : taken ≠ [] := by
    rw [← hopened.tokensOf_eq]
    simp [openedTrees, name.tokens_ne_nil]
  apply (h.row rest (suffix_of_taken hts hne)).ending.as
  intro ending more hending
  have hnode := (hopened.seq hending).node .command (by simp)
  simpa [openedTrees] using hnode

include hcommand in
theorem sound_readPipe :
    (readPipe chart command).Sound (fun p c => Forms (ref .pipe) [p.tree] c) (token :: ts) := by
  unfold readPipe
  apply hcommand.andThen
  intro first taken rest hts hfirst
  have hsuffix := suffix_of_taken hts (hfirst.ne_nil first.tokens_ne_nil)
  apply (h.row rest hsuffix).barCommand.andThen
  intro joint taken' later hrest hjoint
  have hlater : later <:+ rest := hrest ▸ suffix_append _ _
  apply (h.row later (hlater.trans hsuffix)).bars.as
  intro joints more hjoints
  have hpair := (hjoint _ _ _ hfirst).node .pipe (by simp [joined])
  have hall := hjoints (.pair first joint.before joint.after joint.right) (taken ++ taken')
    (by simpa [Pipe.tree] using hpair)
  simpa using hall

/-- All four kinds of first pair of a sequence are read and go on in the same way. -/
theorem sound_sequencePair {β : Type} {left : Readings α} {joints : Row → Readings (Joint β)}
    {front : α → Joint β → Sequence} (leftTree : α → Tree) (rightTree : β → Tree)
    (leftRule rightRule : Rule)
    (hleft : left.Sound (fun a c => Forms (ref leftRule) [leftTree a] c) (token :: ts))
    (hne : ∀ a, (leftTree a).tokens ≠ [])
    (hjoints : ∀ rest, rest <:+ ts → (joints (chart.row rest.length)).Sound
      (Joint.Forms .semicolon rightRule rightTree) rest)
    (hknown : joined leftRule .semicolon rightRule ∈ Rule.sequence.alternatives)
    (hfront : ∀ a joint, (front a joint).tree = .node .sequence
      (leftTree a :: jointLeaves .semicolon joint.before joint.after ++ [rightTree joint.right])) :
    (left.andThen fun first left => (joints (chart.row left)).andThen fun joint left =>
      (chart.row left).semicolons.as (front first joint).extend).Sound
      (fun s c => Forms (ref .sequence) [s.tree] c) (token :: ts) := by
  apply hleft.andThen
  intro first taken rest hts hfirst
  have hsuffix := suffix_of_taken hts (hfirst.ne_nil (hne first))
  apply (hjoints rest hsuffix).andThen
  intro joint taken' later hrest hjoint
  have hlater : later <:+ rest := hrest ▸ suffix_append _ _
  apply (h.row later (hlater.trans hsuffix)).semicolons.as
  intro further more hfurther
  have hpair := (hjoint _ _ _ hfirst).node .sequence hknown
  have hall := hfurther (front first joint) (taken ++ taken') (by simpa [hfront] using hpair)
  simpa using hall

include hcommand hpipe in
theorem sound_readSequence :
    (readSequence chart command pipe).Sound (fun s c => Forms (ref .sequence) [s.tree] c)
      (token :: ts) := by
  have hcommands := fun rest hrest => (h.row rest hrest).semicolonCommand
  have hpipes := fun rest hrest => (h.row rest hrest).semicolonPipe
  refine .append (.append (.append ?_ ?_) ?_) ?_
  · exact sound_sequencePair h token Command.tree Command.tree .command .command hcommand
      Command.tokens_ne_nil hcommands (by simp) (fun _ _ => rfl)
  · exact sound_sequencePair h token Pipe.tree Command.tree .pipe .command hpipe
      Pipe.tokens_ne_nil hcommands (by simp) (fun _ _ => rfl)
  · exact sound_sequencePair h token Pipe.tree Pipe.tree .pipe .pipe hpipe
      Pipe.tokens_ne_nil hpipes (by simp) (fun _ _ => rfl)
  · exact sound_sequencePair h token Command.tree Pipe.tree .command .pipe hcommand
      Command.tokens_ne_nil hpipes (by simp) (fun _ _ => rfl)

omit h in
theorem sound_readJoints {joint : Readings (Joint Command)}
    {more : Row → Readings (List (Joint Command))} {R : Joint Command → List Token → Prop}
    {P : List (Joint Command) → List Token → Prop} (hjoint : joint.Sound R (token :: ts))
    (hne : ∀ first taken, R first taken → taken ≠ [])
    (hmore : ∀ rest, rest <:+ ts → (more (chart.row rest.length)).Sound P rest)
    (hnil : P [] [])
    (hcons : ∀ first joints taken more, R first taken → P joints more →
      P (first :: joints) (taken ++ more)) :
    (readJoints chart joint more (ts.length + 1)).Sound P (token :: ts) := by
  unfold readJoints
  apply Readings.Sound.append
  · apply hjoint.andThen
    intro first taken rest hts hfirst
    apply (hmore rest (suffix_of_taken hts (hne first taken hfirst))).as
    intro joints more hjoints
    exact hcons first joints taken more hfirst hjoints
  · exact .none_taken rfl hnil

omit h in
include hcommand hpipe in
private theorem sound_readCommandLine {sequence : Readings Sequence}
    (hsequence : sequence.Sound (fun s c => Forms (ref .sequence) [s.tree] c) (token :: ts)) :
    (readCommandLine command pipe sequence).Sound
      (fun l c => Forms (ref .commandLine) [l.tree] c) (token :: ts) := by
  have hnode : ∀ (tree : Tree) (taken : List Token),
      Forms (.alt (ref .command) (.alt (ref .pipe) (ref .sequence))) [tree] taken →
      Forms (ref .commandLine) [.node .commandLine [tree]] taken :=
    fun tree taken hforms => hforms.node _ (by simp)
  unfold readCommandLine
  refine .append (.append ?_ ?_) ?_
  · exact hcommand.as fun command taken hcommand => hnode _ _ hcommand.left
  · exact hpipe.as fun pipe taken hpipe => hnode _ _ hpipe.left.right
  · exact hsequence.as fun sequence taken hsequence => hnode _ _ hsequence.right.right

theorem sound_ofToken : (Row.ofToken chart token).Sound (token :: ts) := by
  have hleft : chart.size - 1 = ts.length := by rw [h.size_eq]; omega
  have hself := suffix_refl ts
  have hsubstitution := (sound_readSubstitution h token).distinct
  have hvoid := sound_readVoid h token
  have hquoted := (sound_readQuoted h token).distinct
  have hstrings := (sound_readStrings h token hquoted).distinct
  have hprimary :=
    (sound_readPrimary h token hsubstitution hvoid hquoted hstrings).distinct
  have hword := fun grip => (sound_readWord h token grip hprimary).distinct
  have hsuffixes := fun grip =>
    (sound_readSuffixes h token hsubstitution hvoid hquoted grip).distinct
  have hbody := fun quote => (sound_readBody h token hsubstitution quote).distinct
  have hredirect := (sound_readRedirect h token).distinct
  have hspaced := (sound_readSpacedRedirect h token hredirect).distinct
  have hending := (sound_readEnding h token hspaced).distinct
  have hopened := (sound_readOpened h token (hword .loose) hredirect).distinct
  have hopening := (sound_readOpening h token (hword .loose) hspaced).distinct
  have hcommand := (sound_readCommand h token hopening).distinct
  have hpipe := (sound_readPipe h token hcommand).distinct
  have hsequence := (sound_readSequence h token hcommand hpipe).distinct
  -- the joints may begin with this very token, so they are read from a chart that has it
  have hjoint : ∀ (row : Row), row.token? = some token →
      ∀ {α : Type} {rule : Rule} {tree : α → Tree} (right : Row → Readings α) (separator : Token),
      (∀ rest, rest <:+ ts →
        (right (chart.row rest.length)).Sound (fun a c => Forms (ref rule) [tree a] c) rest) →
      ((Chart.joint (chart.push row) separator right (ts.length + 1)).distinct).Sound
        (Joint.Forms separator rule tree) (token :: ts) := by
    intro row hrow α rule tree right separator hright
    have htracks := h.tracks.push h.size_eq hrow
    apply Readings.Sound.distinct
    refine (Chart.sound_joint htracks (suffix_refl _) separator ?_).mono
      fun _ _ hjoins => hjoins.forms
    intro later hlater hlength
    have hsuffix := suffix_of_length_lt hlater hlength
    rw [Chart.row_push_of_lt chart row (by have := hsuffix.length_le; have := h.size_eq; omega)]
    exact hright later hsuffix
  have hbar := fun row hrow => hjoint row hrow (·.command) .bar fun rest hrest =>
    (h.row rest hrest).command
  have hsemicolon := fun row hrow => hjoint row hrow (·.command) .semicolon fun rest hrest =>
    (h.row rest hrest).command
  have hsemicolonPipe := fun row hrow => hjoint row hrow (·.pipe) .semicolon fun rest hrest =>
    (h.row rest hrest).pipe
  have hbars := fun row hrow => (sound_readJoints token (hbar row hrow)
    (fun _ _ => Joint.Forms.ne_nil) (fun rest hrest => (h.row rest hrest).bars)
    Pipe.FormAll.nil fun _ _ _ _ => Pipe.FormAll.cons).distinct
  have hsemicolons := fun row hrow => (sound_readJoints token (hsemicolon row hrow)
    (fun _ _ => Joint.Forms.ne_nil) (fun rest hrest => (h.row rest hrest).semicolons)
    Sequence.FormAll.nil fun _ _ _ _ => Sequence.FormAll.cons).distinct
  have hcommandLine := (sound_readCommandLine token hcommand hpipe hsequence).distinct
  unfold Row.ofToken
  rw [hleft]
  -- the later readings hold the earlier ones many times over, so they are compared as they stand
  exact
    { token? := rfl
      body := fun
        | .double => hbody .double
        | .single => hbody .single
      quoted := hquoted
      strings := hstrings
      substitution := hsubstitution
      void := hvoid
      suffixes := fun
        | .loose => hsuffixes .loose
        | .firm => hsuffixes .firm
        | .tight => hsuffixes .tight
      word := fun
        | .loose => hword .loose
        | .firm => hword .firm
        | .tight => hword .tight
      redirect := hredirect
      spacedRedirect := hspaced
      modifier := (sound_readModifier h token (hword .loose)).distinct
      ending := hending
      opened := hopened
      command := hcommand
      barCommand := hbar _ rfl
      bars := by with_reducible exact hbars _ rfl
      pipe := by with_reducible exact hpipe
      semicolonCommand := hsemicolon _ rfl
      semicolonPipe := hsemicolonPipe _ rfl
      semicolons := by with_reducible exact hsemicolons _ rfl
      sequence := by with_reducible exact hsequence
      commandLine := by with_reducible exact hcommandLine
      blanks? := by
        intro spaces hspaces
        cases token with
        | space text =>
          obtain ⟨later, hlater, rfl⟩ := Option.map_eq_some_iff.mp hspaces
          rw [(h.row ts hself).blanks? later hlater]
          rfl
        | _ => cases hspaces }

end Rows

/-! ## Whole lines -/

private theorem Row.sound_atEnd : Row.atEnd.Sound [] where
  token? := rfl
  body _ := .nil _
  quoted := .nil _
  strings := .nil _
  substitution := .nil _
  void := .nil _
  suffixes _ := .none_taken rfl fun front c hfront => by simpa using hfront
  word _ := .nil _
  redirect := .nil _
  spacedRedirect := .nil _
  modifier := .nil _
  ending := .none_taken rfl .starNil
  opened := .nil _
  command := .nil _
  barCommand := .nil _
  bars := .none_taken rfl Pipe.FormAll.nil
  pipe := .nil _
  semicolonCommand := .nil _
  semicolonPipe := .nil _
  semicolons := .none_taken rfl Sequence.FormAll.nil
  sequence := .nil _
  commandLine := .nil _
  blanks? := by
    intro spaces hspaces
    cases hspaces
    rfl

theorem Chart.sound_ofTokens (ts : List Token) : (Chart.ofTokens ts).Sound ts := by
  induction ts with
  | nil =>
    refine ⟨rfl, fun rest hrest => ?_⟩
    rw [suffix_nil.mp hrest]
    exact Row.sound_atEnd
  | cons token ts ih =>
    refine ⟨by simp [Chart.ofTokens, ← ih.size_eq], fun rest hrest => ?_⟩
    change (Chart.row ((Chart.ofTokens ts).push _) rest.length).Sound rest
    rcases suffix_cons_iff.mp hrest with rfl | hrest
    · rw [Chart.row_push_self _ _ (by simp [ih.size_eq])]
      exact sound_ofToken ih token
    · rw [Chart.row_push_of_lt _ _ (by have := hrest.length_le; have := ih.size_eq; omega)]
      exact ih.row rest hrest

theorem conforms_start {line : List Tree} {c : List Token} (spaces : List Text)
    (hline : Forms (.opt (ref .commandLine)) line c) :
    (Tree.node .start (line ++ spaces.map spaceLeaf ++ [Tree.endOfLine])).Conforms ∧
      Tree.terminals (.node .start (line ++ spaces.map spaceLeaf ++ [Tree.endOfLine])) =
        (c ++ spaces.map Token.space).map .token ++ [Tree.Terminal.endOfLine] := by
  have hfront := hline.seq (forms_spaces spaces)
  constructor
  · refine .node _ (mem_singleton.mpr rfl)
      (.seq hfront.isInstance (.symbol .endOfLine)) ?_
    intro t ht
    rcases mem_append.mp ht with ht | ht
    · exact hfront.conforms t ht
    · rw [mem_singleton.mp ht]
      exact .endOfLine
  · rw [Tree.terminals, Tree.terminalsOf_append, hfront.terminals]
    rfl

theorem Script.of_ofTokens? {script : Script} (h : Script.ofTokens? ts = some script) :
    (∃ spaces, script = ⟨none, spaces⟩ ∧ ts = spaces.map .space) ∨
      ∃ line taken spaces, script = ⟨some line, spaces⟩ ∧ ts = taken ++ spaces.map .space ∧
        (line, (spaces.map Token.space).length) ∈
          ((Chart.ofTokens ts).row ts.length).commandLine ∧
        Forms (ref .commandLine) [line.tree] taken := by
  have hsound := Chart.sound_ofTokens ts
  have hwhole := hsound.row ts (suffix_refl ts)
  simp only [Script.ofTokens?] at h
  split at h
  · next first later hlines =>
      obtain rfl : first = script := by simpa using h
      have hmem := mem_cons_self (a := first) (l := later)
      rw [← hlines, mem_filterMap] at hmem
      obtain ⟨⟨line, left⟩, hline, hblanks⟩ := hmem
      obtain ⟨spaces, hspaces, rfl⟩ := Option.map_eq_some_iff.mp hblanks
      obtain ⟨taken, rest, rfl, rfl, hforms⟩ := hwhole.commandLine line left hline
      have hrest := (hsound.row rest (suffix_append _ _)).blanks? spaces hspaces
      subst hrest
      exact .inr ⟨line, taken, spaces, rfl, rfl, hline, hforms⟩
  · obtain ⟨spaces, hspaces, rfl⟩ := Option.map_eq_some_iff.mp h
    exact .inl ⟨spaces, rfl, hwhole.blanks? spaces hspaces⟩

theorem Script.forms_of_ofTokens? {script : Script} (h : Script.ofTokens? ts = some script) :
    script.tree.Conforms ∧ script.tree.terminals = ts.map .token ++ [Tree.Terminal.endOfLine] := by
  rcases Script.of_ofTokens? h with
    ⟨spaces, rfl, rfl⟩ | ⟨line, taken, spaces, rfl, rfl, -, hforms⟩
  · exact conforms_start spaces .optNone
  · exact conforms_start spaces hforms.optSome

/-- A line that can be read gives a tree that is rooted at `start`, follows the grammar at every
node, and has the tokens of the line and its end at the ends of its branches. -/
theorem Script.tree_of_ofLine? (line : Text) (script : Script)
    (h : Script.ofLine? line = some script) :
    (∃ children, script.tree = .node .start children) ∧ script.tree.Conforms ∧
      script.tree.terminals = (Token.ofLine line).map .token ++ [.endOfLine] :=
  ⟨⟨_, rfl⟩, forms_of_ofTokens? h⟩

/-- A pipe with a redirect, quotes and a substitution. -/
theorem Script.tree_of_ofLine?_nested : ∃ script,
    Script.ofLine? "cat <f|grep \"a \x60pwd\x60;\"".toList = some script ∧
      (∃ children, script.tree = .node .start children) ∧ script.tree.Conforms ∧
      script.tree.terminals =
        (Token.ofLine "cat <f|grep \"a \x60pwd\x60;\"".toList).map .token ++ [.endOfLine] := by
  have hread : (Script.ofLine? "cat <f|grep \"a \x60pwd\x60;\"".toList).isSome := by decide +kernel
  obtain ⟨script, h⟩ := Option.isSome_iff_exists.mp hread
  exact ⟨script, h, Script.tree_of_ofLine? _ script h⟩

end CommandShell.Line

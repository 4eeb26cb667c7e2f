import CommandShell.Proofs.Line.PlainCommands

/-!
# Where substitutions can stand

A backquote can open a substitution as well as close one, so a line with several pairs of backquotes
can be grouped in ways in which a pair is torn apart. What all groupings have in common can be told
from the tokens, as long as the backquotes stand outside quotes: a phrase closes the quotes that it
opens and holds an even number of backquotes, and a separator inside a command has backquotes on both
sides, of which the one before it is not at the end of a command. So if the backquotes of all
commands but the last that has some are at the end of their commands, the line is cut into its
commands as it would be without them.
-/

namespace CommandShell.Line

open List

/-! ## What phrases enclose -/

/-- Every backquote stands outside quotes. -/
def Outside (ts : List Token) : Prop :=
  ∀ front back, ts = front ++ Token.backquote :: back → openAfter none front = none

section Outside

variable {ts us : List Token}

theorem append_eq_append_cons {α : Type} {ts us front back : List α} {token : α}
    (h : ts ++ us = front ++ token :: back) :
    (∃ middle, ts = front ++ token :: middle ∧ back = middle ++ us) ∨
      ∃ middle, front = ts ++ middle ∧ us = middle ++ token :: back := by
  rcases append_eq_append_iff.mp h with ⟨middle, hfront, hmiddle⟩ | ⟨middle, hts, hmiddle⟩
  · exact .inr ⟨middle, hfront, hmiddle⟩
  · cases middle with
    | nil => exact .inr ⟨[], by simpa using hts.symm, hmiddle.symm⟩
    | cons token' middle =>
      obtain ⟨rfl, hback⟩ := List.cons.inj hmiddle
      exact .inl ⟨middle, hts, hback⟩

theorem outside_of_not_mem (h : .backquote ∉ ts) : Outside ts := by
  rintro front back rfl
  exact absurd (mem_append_right front mem_cons_self) h

theorem Outside.left (h : Outside (ts ++ us)) : Outside ts := by
  rintro front back rfl
  exact h front (back ++ us) (by simp)

theorem Outside.right (h : Outside (ts ++ us)) (hts : openAfter none ts = none) : Outside us := by
  rintro front back rfl
  have hfront := h (ts ++ front) back (by simp)
  rwa [openAfter_append, hts] at hfront

theorem Outside.append (hts : Outside ts) (hstate : openAfter none ts = none) (hus : Outside us) :
    Outside (ts ++ us) := by
  intro front back h
  rcases append_eq_append_cons h with ⟨middle, rfl, -⟩ | ⟨middle, rfl, rfl⟩
  · exact hts front middle rfl
  · rw [openAfter_append, hstate]
    exact hus middle back rfl

end Outside

/-- Tokens that begin with a separator, or with blanks and a separator. -/
def Severed : List Token → Prop
  | [] => False
  | .space _ :: ts => Severed ts
  | token :: _ => token.Separates

/-- Tokens that no substitution has behind the backquote that opens it, because a separator comes
first, or another backquote and then a separator. -/
def Barred : List Token → Prop
  | [] => False
  | .space _ :: ts => Barred ts
  | .backquote :: ts => Severed ts
  | token :: _ => token.Separates

section Barred

variable {separator : Token} {ts us : List Token}

private theorem severed_append_cons (hsep : separator.Separates) (ts us : List Token) :
    Severed (ts ++ separator :: us) ↔ Severed (ts ++ [separator]) := by
  induction ts with
  | nil => rcases hsep with rfl | rfl <;> rfl
  | cons token ts ih =>
    cases token with
    | space text => exact ih
    | _ => rfl

theorem barred_append_cons (hsep : separator.Separates) (ts us : List Token) :
    Barred (ts ++ separator :: us) ↔ Barred (ts ++ [separator]) := by
  induction ts with
  | nil => rcases hsep with rfl | rfl <;> rfl
  | cons token ts ih =>
    cases token with
    | space text => exact ih
    | backquote => exact severed_append_cons hsep ts us
    | _ => rfl

@[simp] theorem severed_gap (gap : Option Text) (ts : List Token) :
    Severed (gapTokens gap ++ ts) ↔ Severed ts := by
  cases gap <;> rfl

@[simp] theorem barred_gap (gap : Option Text) (ts : List Token) :
    Barred (gapTokens gap ++ ts) ↔ Barred ts := by
  cases gap <;> rfl

@[simp] theorem tokensOf_gapLeaves (gap : Option Text) :
    Tree.tokensOf (gapLeaves gap) = gapTokens gap := by
  cases gap <;> rfl

theorem tokens_joined (rule : Rule) (separator : Token) (before after : Option Text)
    (left right : Tree) :
    (Tree.node rule (left :: jointLeaves separator before after ++ [right])).tokens =
      left.tokens ++ jointTokens separator before after right.tokens := by
  simp [jointTokens, jointLeaves]

def Unbarred (ts : List Token) : Prop := ¬ Severed ts ∧ ¬ Barred ts

theorem unbarred_backquote (h : ¬ Severed ts) : Unbarred (.backquote :: ts) :=
  ⟨by simp [Severed, Token.Separates], h⟩

theorem Quoted.unbarred (q : Quoted) (ts : List Token) : Unbarred (q.tree.tokens ++ ts) := by
  cases q with
  | mk quote body => cases quote <;> simp [Unbarred, Severed, Barred, Token.Separates, Quote.token]

theorem Strings.unbarred (s : Strings) (ts : List Token) :
    Unbarred (Tree.tokensOf s.trees ++ ts) := by
  cases s with
  | one first => simpa using first.unbarred ts
  | more first rest => simpa using first.unbarred (Tree.tokensOf rest.trees ++ ts)

theorem unbarred_joined {left : Tree} (h : ∀ ts, Unbarred (left.tokens ++ ts)) (rule : Rule)
    (separator : Token) (before after : Option Text) (right : Tree) (ts : List Token) :
    Unbarred ((Tree.node rule (left :: jointLeaves separator before after ++ [right])).tokens ++
      ts) := by
  rw [tokens_joined, append_assoc]
  exact h _

theorem Opening.unbarred (o : Opening) (h : Unbarred ts) : Unbarred (Tree.tokensOf o.trees ++ ts) := by
  match o with
  | .done => exact h
  | .space text rest => exact rest.unbarred h
  | .redirect (.mk direction gap target) rest =>
    cases direction <;>
      simp [Unbarred, Severed, Barred, Token.Separates, Direction.token]

mutual

theorem Word.unbarred (w : Word) (ts : List Token) : Unbarred (w.tree.tokens ++ ts) := by
  cases w with
  | chars text | dash | charsBefore text rest | dashBefore rest =>
    simp [Unbarred, Severed, Barred, Token.Separates]
  | voidBefore gap rest =>
    simpa [voidLeaves] using unbarred_backquote (by simp [Severed, Token.Separates])
  | substitutionBefore inner rest => simpa using inner.unbarred (rest.tree.tokens ++ ts)
  | substitution inner => simpa using inner.unbarred ts
  | strings run => exact run.unbarred ts
  | stringBefore first rest => simpa using first.unbarred (rest.tree.tokens ++ ts)
  | stringAfter front last => simpa using front.unbarred (last.tree.tokens ++ ts)
  | voidAfter front gap => simpa using front.unbarred (Tree.tokensOf (voidLeaves gap) ++ ts)
  | substitutionAfter front inner => simpa using front.unbarred (inner.tree.tokens ++ ts)

theorem Substitution.unbarred (s : Substitution) (ts : List Token) :
    Unbarred (s.tree.tokens ++ ts) := by
  cases s with
  | void before after => simpa using unbarred_backquote (by simp [Severed, Token.Separates])
  | run before line after =>
    have hinside : ¬ Severed (gapTokens before ++ (line.tree.tokens ++
        (gapTokens after ++ .backquote :: ts))) := by simpa using (line.unbarred _).1
    simpa using unbarred_backquote hinside

theorem Command.unbarred (x : Command) (ts : List Token) : Unbarred (x.tree.tokens ++ ts) := by
  cases x with
  | mk opening name ending =>
    simpa using opening.unbarred (name.unbarred (Tree.tokensOf ending.trees ++ ts))

theorem Pipe.unbarred (p : Pipe) (ts : List Token) : Unbarred (p.tree.tokens ++ ts) := by
  cases p with
  | pair left before after right | more left before after right =>
    exact unbarred_joined left.unbarred ..

theorem Sequence.unbarred (s : Sequence) (ts : List Token) : Unbarred (s.tree.tokens ++ ts) := by
  cases s with
  | commands left before after right | pipeCommand left before after right
  | pipes left before after right | commandPipe left before after right
  | more left before after right =>
    exact unbarred_joined left.unbarred ..

theorem CommandLine.unbarred (l : CommandLine) (ts : List Token) :
    Unbarred (l.tree.tokens ++ ts) := by
  cases l with
  | command all | pipe all | sequence all => simpa using all.unbarred ts

end

end Barred

/-- Tokens that close the quotes that they open and hold an even number of backquotes. -/
structure Paired (ts : List Token) : Prop where
  state : openAfter none ts = none
  even : ts.count .backquote % 2 = 0

/-- Paired tokens in which separators stand only between backquotes, and the first of these can
open a substitution. -/
structure Enclosed (ts : List Token) : Prop extends Paired ts where
  fenced : ∀ (front : List Token) (separator : Token) (back : List Token),
    ts = front ++ separator :: back → separator.Separates → openAfter none front = none →
    (∃ outer inner, front = outer ++ .backquote :: inner ∧ ¬ Barred (inner ++ [separator])) ∧
      .backquote ∈ back

/-- Tokens that are paired if their backquotes stand outside quotes. -/
def Pairs (ts : List Token) : Prop := Outside ts → Paired ts

/-- Tokens that are enclosed if their backquotes stand outside quotes. -/
def Encloses (ts : List Token) : Prop := Outside ts → Enclosed ts

variable {separator : Token} {ts : List Token}

section Enclosing

variable {ts us : List Token}

theorem Encloses.pairs (h : Encloses ts) : Pairs ts := fun hts => (h hts).toPaired

theorem Pairs.append (hts : Pairs ts) (hus : Pairs us) : Pairs (ts ++ us) := by
  intro h
  obtain ⟨hstate, heven⟩ := hts h.left
  obtain ⟨hstate', heven'⟩ := hus (h.right hstate)
  refine ⟨by rw [openAfter_append, hstate, hstate'], ?_⟩
  rw [count_append]
  omega

theorem Encloses.append (hts : Encloses ts) (hus : Encloses us) : Encloses (ts ++ us) := by
  intro h
  have hleft := hts h.left
  have hright := hus (h.right hleft.state)
  refine ⟨hts.pairs.append hus.pairs h, ?_⟩
  intro front separator back hcut hsep hfront
  rcases append_eq_append_cons hcut with ⟨middle, rfl, rfl⟩ | ⟨middle, rfl, rfl⟩
  · obtain ⟨hbefore, hafter⟩ := hleft.fenced front separator middle rfl hsep hfront
    exact ⟨hbefore, mem_append_left us hafter⟩
  · rw [openAfter_append, hleft.state] at hfront
    obtain ⟨⟨outer, inner, rfl, hinner⟩, hafter⟩ :=
      hright.fenced middle separator back rfl hsep hfront
    exact ⟨⟨ts ++ outer, inner, by simp, hinner⟩, hafter⟩

theorem Uncut.openAfter_ne_none {open? : Option Quote}
    (h : Uncut separator open? (ts ++ separator :: us)) : openAfter open? ts ≠ none := by
  induction ts generalizing open? with
  | nil => exact fun hopen => h.1 hopen rfl
  | cons token ts ih => exact ih h.2

private theorem encloses_of_balanced
    (h : ∀ separator : Token, separator.Separates → Balanced separator none ts)
    (heven : ts.count .backquote % 2 = 0) : Encloses ts := by
  refine fun _ => ⟨⟨(h .bar (.inl rfl)).state, heven⟩, ?_⟩
  rintro front separator back rfl hsep hfront
  exact absurd hfront (h separator hsep).uncut.openAfter_ne_none

theorem encloses_of_plain
    (h : ∀ separator : Token, separator.Separates → Balanced separator none ts)
    (hplain : .backquote ∉ ts) : Encloses ts :=
  encloses_of_balanced h (by rw [count_eq_zero.mpr hplain])

theorem encloses_nil : Encloses [] := encloses_of_plain (fun _ _ => .nil) (by simp)

theorem Pairs.between (h : Pairs us) (hus : ¬ Barred us) :
    Encloses (.backquote :: (us ++ [Token.backquote])) := by
  intro hout
  have hpaired := h (Outside.left (@Outside.right [.backquote] _ hout rfl))
  refine ⟨⟨?_, ?_⟩, ?_⟩
  · rw [openAfter_cons, openAfter_append]
    exact congrArg (openAfter · [.backquote]) hpaired.state
  · have heven := hpaired.even
    simp only [count_cons_self, count_append, count_nil]
    omega
  · intro front separator back hcut hsep _
    have hne : separator ≠ .backquote := by rcases hsep with rfl | rfl <;> simp
    cases front with
    | nil => exact absurd (List.cons.inj hcut).1.symm hne
    | cons token front =>
      obtain ⟨rfl, htail⟩ := List.cons.inj hcut
      rcases append_eq_append_cons htail with ⟨middle, rfl, rfl⟩ | ⟨middle, -, hlast⟩
      · rw [barred_append_cons hsep] at hus
        exact ⟨⟨[], front, rfl, hus⟩, mem_append_right middle mem_cons_self⟩
      · have hmem : separator ∈ [Token.backquote] := hlast ▸ by simp
        exact absurd (mem_singleton.mp hmem) hne

end Enclosing

/-! ## One rule for each kind of phrase -/

theorem encloses_gap (gap : Option Text) : Encloses (Tree.tokensOf (gapLeaves gap)) := by
  refine encloses_of_plain (fun _ hsep => balanced_gap hsep none gap) ?_
  cases gap <;> simp [gapLeaves, spaceLeaf]

theorem encloses_spaces (spaces : List Text) :
    Encloses (Tree.tokensOf (spaces.map spaceLeaf)) := by
  refine encloses_of_plain (fun _ hsep => balanced_spaces hsep spaces) ?_
  induction spaces with
  | nil => simp
  | cons text spaces ih => simpa [spaceLeaf] using ih

theorem encloses_chars (text : Text) : Encloses [.chars text] :=
  encloses_of_plain (fun _ hsep => balanced_chars hsep text) (by simp)

theorem encloses_dash : Encloses [.dash] :=
  encloses_of_plain (fun _ hsep => balanced_dash hsep) (by simp)

theorem encloses_direction (direction : Direction) : Encloses [direction.token] := by
  refine encloses_of_plain (fun separator hsep => .one (fun _ => ?_) ?_) ?_
  · rcases hsep with rfl | rfl <;> cases direction <;> simp [Direction.token]
  · cases direction <;> rfl
  · cases direction <;> simp [Direction.token]

theorem encloses_void (gap : Option Text) : Encloses (Tree.tokensOf (voidLeaves gap)) := by
  have h := (encloses_gap gap).pairs.between (by cases gap <;> exact id)
  simpa [voidLeaves] using h

theorem Body.backquote_not_mem_of_outside (quote : Quote) (body : Body)
    (h : ∀ front back, Tree.tokensOf (body.trees quote) = front ++ Token.backquote :: back →
      openAfter (some quote) front = none) : .backquote ∉ Tree.tokensOf (body.trees quote) := by
  -- the first token of the body leaves the quote open, so the rest is in the same position
  have hrest : ∀ (token : Token) (rest : Body), token ≠ quote.token →
      Tree.tokensOf (body.trees quote) = token :: Tree.tokensOf (rest.trees quote) →
      ∀ front back, Tree.tokensOf (rest.trees quote) = front ++ Token.backquote :: back →
        openAfter (some quote) front = none := by
    intro token rest hne htokens front back hcut
    have hfront := h (token :: front) back (by rw [htokens, hcut, cons_append])
    rw [openAfter_cons] at hfront
    simpa [Quote.after, hne] using hfront
  cases body with
  | done => exact not_mem_nil
  | mark rest =>
    have hne : quote.other.token ≠ quote.token := by cases quote <;> decide
    have hlater := rest.backquote_not_mem_of_outside quote (hrest _ rest hne rfl)
    rw [Body.trees, Tree.tokensOf, Tree.tokens, mem_append, not_or]
    exact ⟨by cases quote <;> simp [Quote.other, Quote.token], hlater⟩
  | literal token rest =>
    have hne : token.token ≠ quote.token := by
      cases token <;> cases quote <;> intro heq <;> cases heq
    have hlater := rest.backquote_not_mem_of_outside quote (hrest _ rest hne rfl)
    rw [Body.trees, Tree.tokensOf, Tree.tokens, mem_append, not_or]
    exact ⟨by cases token <;> simp [Literal.token], hlater⟩
  | space text rest =>
    have hne : Token.space text ≠ quote.token := by cases quote <;> intro heq <;> cases heq
    have hlater := rest.backquote_not_mem_of_outside quote (hrest _ rest hne rfl)
    rw [Body.trees, Tree.tokensOf, spaceLeaf, Tree.tokens, mem_append, not_or]
    exact ⟨by simp, hlater⟩
  | substitution inner rest =>
    have hopen : ∃ ts, inner.tree.tokens = .backquote :: ts := by
      cases inner <;> exact ⟨_, rfl⟩
    obtain ⟨ts, hts⟩ := hopen
    have hstate := h [] (ts ++ Tree.tokensOf (rest.trees quote))
      (by rw [Body.trees, Tree.tokensOf, hts, cons_append, nil_append])
    cases hstate

theorem Quoted.backquote_not_mem_of_outside (q : Quoted) (h : Outside q.tree.tokens) :
    .backquote ∉ q.tree.tokens := by
  cases q with
  | mk quote body =>
    simp only [Quoted.tree, Tree.tokens, Tree.tokensOf, Tree.tokensOf_append, cons_append,
      nil_append, append_nil, mem_cons, mem_append, not_or] at h ⊢
    have hopen : Quote.after none quote.token = some quote := by cases quote <;> rfl
    have hbody := body.backquote_not_mem_of_outside quote fun front back hcut => by
      have hfront := h (quote.token :: front) (back ++ [quote.token]) (by rw [hcut]; simp)
      rwa [openAfter_cons, hopen] at hfront
    have hquote : Token.backquote ≠ quote.token := by cases quote <;> simp [Quote.token]
    exact ⟨hquote, hbody, hquote, not_mem_nil⟩

theorem Quoted.encloses (q : Quoted) : Encloses q.tree.tokens := by
  intro h
  have hplain := q.backquote_not_mem_of_outside h
  exact encloses_of_plain (fun _ hsep => q.balanced hsep hplain) hplain h

theorem Strings.encloses (s : Strings) : Encloses (Tree.tokensOf s.trees) := by
  cases s with
  | one first => simpa using first.encloses
  | more first rest => exact first.encloses.append rest.encloses

private theorem pairs_joint (hsep : separator.Separates) (before after : Option Text) :
    Pairs (Tree.tokensOf (jointLeaves separator before after)) := by
  have hone : Pairs [separator] := by
    intro _
    rcases hsep with rfl | rfl <;> exact ⟨rfl, rfl⟩
  have h := (encloses_gap before).pairs.append (hone.append (encloses_gap after).pairs)
  simpa [jointLeaves] using h

theorem Pairs.joined {rule : Rule} (hsep : separator.Separates) (before after : Option Text)
    {left right : Tree} (hleft : Pairs left.tokens) (hright : Pairs right.tokens) :
    Pairs (Tree.node rule (left :: jointLeaves separator before after ++ [right])).tokens := by
  have h := hleft.append ((pairs_joint hsep before after).append hright)
  simpa using h

mutual

theorem Word.encloses (w : Word) : Encloses w.tree.tokens := by
  cases w with
  | chars text => exact encloses_chars text
  | dash => exact encloses_dash
  | voidBefore gap rest =>
    simpa using (encloses_void gap).append rest.encloses
  | substitutionBefore inner rest => simpa using inner.encloses.append rest.encloses
  | substitution inner => simpa using inner.encloses
  | strings run => exact run.encloses
  | stringBefore first rest => simpa using first.encloses.append rest.encloses
  | charsBefore text rest =>
    simpa using (encloses_chars text).append rest.encloses
  | dashBefore rest => simpa using encloses_dash.append rest.encloses
  | stringAfter front last => simpa using front.encloses.append last.encloses
  | voidAfter front gap => simpa using front.encloses.append (encloses_void gap)
  | substitutionAfter front inner => simpa using front.encloses.append inner.encloses

theorem Substitution.encloses (s : Substitution) : Encloses s.tree.tokens := by
  cases s with
  | void before after =>
    have h := ((encloses_gap before).append (encloses_gap after)).pairs.between
      (by cases before <;> cases after <;> exact id)
    simpa using h
  | run before line after =>
    have h := ((encloses_gap before).pairs.append
      (line.pairs.append (encloses_gap after).pairs)).between
      (by simpa using (line.unbarred (gapTokens after)).2)
    simpa using h

theorem Redirect.encloses (r : Redirect) : Encloses r.tree.tokens := by
  cases r with
  | mk direction gap target =>
    have h := (encloses_direction direction).append ((encloses_gap gap).append target.encloses)
    simpa using h

theorem Opening.encloses (o : Opening) : Encloses (Tree.tokensOf o.trees) := by
  cases o with
  | done => exact encloses_nil
  | space text rest => exact (encloses_gap (some text)).append rest.encloses
  | redirect first rest => exact first.encloses.append rest.encloses

theorem Modifier.encloses (m : Modifier) : Encloses m.tree.tokens := by
  cases m with
  | flag name => simpa using encloses_dash.append name.encloses
  | arg value => simpa using value.encloses

theorem Ending.encloses (e : Ending) : Encloses (Tree.tokensOf e.trees) := by
  cases e with
  | done => exact encloses_nil
  | redirect spaces first rest =>
    simpa using (encloses_spaces spaces).append (first.encloses.append rest.encloses)
  | modifier text first rest =>
    exact (encloses_gap (some text)).append (first.encloses.append rest.encloses)

theorem Command.encloses (x : Command) : Encloses x.tree.tokens := by
  cases x with
  | mk opening name ending =>
    have h := opening.encloses.append (name.encloses.append ending.encloses)
    simpa using h

theorem Pipe.pairs (p : Pipe) : Pairs p.tree.tokens := by
  cases p with
  | pair left before after right =>
    exact left.encloses.pairs.joined (.inl rfl) before after right.encloses.pairs
  | more left before after right =>
    exact left.pairs.joined (.inl rfl) before after right.encloses.pairs

theorem Sequence.pairs (s : Sequence) : Pairs s.tree.tokens := by
  cases s with
  | commands left before after right =>
    exact left.encloses.pairs.joined (.inr rfl) before after right.encloses.pairs
  | pipeCommand left before after right =>
    exact left.pairs.joined (.inr rfl) before after right.encloses.pairs
  | pipes left before after right =>
    exact left.pairs.joined (.inr rfl) before after right.pairs
  | commandPipe left before after right =>
    exact left.encloses.pairs.joined (.inr rfl) before after right.pairs
  | more left before after right =>
    exact left.pairs.joined (.inr rfl) before after right.encloses.pairs

theorem CommandLine.pairs (l : CommandLine) : Pairs l.tree.tokens := by
  cases l with
  | command only => simpa using only.encloses.pairs
  | pipe all => simpa using all.pairs
  | sequence all => simpa using all.pairs

end

/-! ## Lines cut at their separators -/

/-- Tokens whose backquotes stand outside quotes, so that no substitution reaches over a separator:
there are no backquotes behind it, or none before it opens a substitution. -/
structure Gathered (ts : List Token) : Prop where
  outside : Outside ts
  apart : ∀ (front : List Token) (separator : Token) (back : List Token),
    ts = front ++ separator :: back → separator.Separates → openAfter none front = none →
    .backquote ∉ back ∨
      ∀ outer inner, front = outer ++ .backquote :: inner → Barred (inner ++ [separator])

theorem inherited_gathered : Inherited Gathered := by
  intro ts us h
  refine ⟨⟨h.outside.left, ?_⟩, fun hts => ⟨h.outside.right hts, ?_⟩⟩
  · rintro front separator back rfl hsep hfront
    refine (h.apart front separator (back ++ us) (by simp) hsep hfront).imp_left ?_
    exact fun hplain hmem => hplain (mem_append_left us hmem)
  · rintro front separator back rfl hsep hfront
    have hstate : openAfter none (ts ++ front) = none := by rw [openAfter_append, hts, hfront]
    refine (h.apart (ts ++ front) separator back (by simp) hsep hstate).imp_right ?_
    rintro hbarred outer inner rfl
    exact hbarred (ts ++ outer) inner (by simp)

private theorem uncut_of_forall {open? : Option Quote}
    (h : ∀ front back, ts = front ++ separator :: back → openAfter open? front ≠ none) :
    Uncut separator open? ts := by
  induction ts generalizing open? with
  | nil => trivial
  | cons token ts ih =>
    refine ⟨fun hopen hseparator => h [] ts (by rw [hseparator, nil_append]) hopen, ?_⟩
    exact ih fun front back hcut => h (token :: front) back (by rw [hcut, cons_append])

theorem Encloses.balanced (h : Encloses ts) (hts : Gathered ts) (hsep : separator.Separates) :
    Balanced separator none ts := by
  have henclosed := h hts.outside
  refine ⟨uncut_of_forall fun front back hcut hfront => ?_, henclosed.state⟩
  obtain ⟨⟨outer, inner, hopen, hinner⟩, hafter⟩ :=
    henclosed.fenced front separator back hcut hsep hfront
  rcases hts.apart front separator back hcut hsep hfront with hplain | hbarred
  · exact hplain hafter
  · exact hinner (hbarred outer inner hopen)

section Aligning

variable {R S : Command → List Token → Prop} (hR : ∀ x c, R x c → x.tree.tokens = c)
include hR

theorem balanced_of_tokens (hsep : separator.Separates) (x : Command) (c : List Token) (hx : R x c)
    (hc : Gathered c) : Balanced separator none c := by
  have hencloses := x.encloses
  rw [hR x c hx] at hencloses
  exact hencloses.balanced hc hsep

theorem Gathered.forall₂_pieces {parts : List (List Command)} (hts : Gathered ts)
    (h : Cut .semicolon (Cut .bar R) parts ts) :
    List.Forall₂ (fun xs piece => ∃ c, Cut .bar R xs c ∧ Gathered c ∧ trim c = piece) parts
      (pieces .semicolon ts) := by
  refine (h.pieces_of inherited_gathered (.inr rfl) (fun xs c hxs hc => ?_) hts).2
  exact hxs.balanced_of inherited_gathered (.inr rfl) (by simp) (.inl rfl)
    (balanced_of_tokens hR (.inr rfl)) hc

variable (hS : ∀ x c, S x c → x.tree.tokens = c)
include hS

/-- However a line is grouped, its commands stand at the same places, as long as no substitution
reaches over a separator. -/
theorem Gathered.aligned {xss yss : List (List Command)} (hts : Gathered ts)
    (hxss : Cut .semicolon (Cut .bar R) xss ts) (hyss : Cut .semicolon (Cut .bar S) yss ts) :
    List.Forall₂ (List.Forall₂ fun x y => ∃ c d, R x c ∧ S y d ∧ trim c = trim d) xss yss := by
  apply (forall₂_of_pieces (hts.forall₂_pieces hR hxss) (hts.forall₂_pieces hS hyss)).imp
  rintro xs ys ⟨piece, ⟨c, hxs, hc, hpiece⟩, d, hys, hd, hpiece'⟩
  have hpieces : pieces .bar c = pieces .bar d := by
    rw [← pieces_trim (.inl rfl) c, hpiece, ← hpiece', pieces_trim (.inl rfl)]
  have hxs := (hxs.pieces_of inherited_gathered (.inl rfl) (balanced_of_tokens hR (.inl rfl)) hc).2
  have hys := (hys.pieces_of inherited_gathered (.inl rfl) (balanced_of_tokens hS (.inl rfl)) hd).2
  rw [hpieces] at hxs
  apply (forall₂_of_pieces hxs hys).imp
  rintro x y ⟨piece, ⟨c, hx, -, hc⟩, d, hy, -, hd⟩
  exact ⟨c, d, hx, hy, hc.trans hd.symm⟩

end Aligning

/-! ## Backquotes in several commands -/

theorem gathered_of_balanced (hout : Outside ts)
    (h : ∀ separator : Token, separator.Separates → Balanced separator none ts) : Gathered ts := by
  refine ⟨hout, ?_⟩
  rintro front separator back rfl hsep hfront
  exact absurd hfront (h separator hsep).uncut.openAfter_ne_none

/-- Tokens without backquotes that close the quotes that they open. -/
structure Quiet (ts : List Token) : Prop where
  plain : .backquote ∉ ts
  state : openAfter none ts = none

theorem Quiet.append {us : List Token} (hts : Quiet ts) (hus : Quiet us) : Quiet (ts ++ us) := by
  refine ⟨?_, by rw [openAfter_append, hts.state, hus.state]⟩
  rw [mem_append, not_or]
  exact ⟨hts.plain, hus.plain⟩

theorem quiet_gap (gap : Option Text) : Quiet (gapTokens gap) := by
  cases gap with
  | none | some text => exact ⟨by simp [gapTokens], rfl⟩

theorem quiet_separator (h : separator.Separates) : Quiet [separator] := by
  rcases h with rfl | rfl <;> exact ⟨by simp, rfl⟩

theorem Gathered.append_plain {back : List Token} (h : Gathered ts) (hback : .backquote ∉ back) :
    Gathered (ts ++ back) := by
  refine ⟨?_, ?_⟩
  · intro before after hcut
    rcases append_eq_append_cons hcut with ⟨middle, rfl, -⟩ | ⟨middle, -, rfl⟩
    · exact h.outside before middle rfl
    · exact absurd (mem_append_right middle mem_cons_self) hback
  · intro before separator after hcut hsep hstate
    rcases append_eq_append_cons hcut with ⟨middle, rfl, rfl⟩ | ⟨middle, -, rfl⟩
    · refine (h.apart before separator middle rfl hsep hstate).imp_left fun hplain => ?_
      rw [mem_append, not_or]
      exact ⟨hplain, hback⟩
    · exact .inl fun hmem =>
        hback (mem_append_right middle (mem_cons_of_mem separator hmem))

/-- Tokens whose backquotes are such that no substitution that opens at one of them reaches over a
separator behind the tokens. -/
structure Sealed (ts : List Token) : Prop where
  outside : Outside ts
  state : openAfter none ts = none
  barred : ∀ outer inner, ts = outer ++ Token.backquote :: inner →
    ∀ (gap : Option Text) {separator : Token}, separator.Separates → ∀ us,
      Barred (inner ++ (gapTokens gap ++ separator :: us))

theorem Quiet.sealed (h : Quiet ts) : Sealed ts := by
  refine ⟨outside_of_not_mem h.plain, h.state, ?_⟩
  rintro outer inner rfl
  exact absurd (mem_append_right outer mem_cons_self) h.plain

/-- A command is sealed if its only backquotes are those of a void that ends it. -/
theorem sealed_of_void {front : List Token} {gap : Option Text}
    (hout : Outside (front ++ .backquote :: (gapTokens gap ++ [.backquote])))
    (hplain : .backquote ∉ front) :
    Sealed (front ++ .backquote :: (gapTokens gap ++ [.backquote])) := by
  have hstate : openAfter none front = none := hout front _ rfl
  refine ⟨hout, ?_, fun outer inner hcut gap' separator hsep us => ?_⟩
  · rw [openAfter_append, hstate]
    cases gap <;> rfl
  have hsevered : Severed (gapTokens gap' ++ separator :: us) := by
    rcases hsep with rfl | rfl <;> simp [Severed, Token.Separates]
  have hbarred : Barred (gapTokens gap' ++ separator :: us) := by
    rcases hsep with rfl | rfl <;> simp [Barred, Token.Separates]
  rcases append_eq_append_cons hcut with ⟨middle, rfl, -⟩ | ⟨middle, rfl, hback⟩
  · exact absurd (mem_append_right outer mem_cons_self) hplain
  cases middle with
  | nil =>
    obtain rfl := (List.cons.inj hback).2
    rw [append_assoc, barred_gap]
    exact hsevered
  | cons token middle =>
    have htail := (List.cons.inj hback).2
    rcases append_eq_append_cons htail with ⟨more, hgap, -⟩ | ⟨more, -, hlast⟩
    · exact absurd (hgap ▸ by simp) (quiet_gap gap).plain
    · have hinner : inner = [] := by
        have hlength := congrArg List.length hlast
        simp only [length_append, length_cons, length_nil] at hlength
        exact eq_nil_of_length_eq_zero (by omega)
      subst hinner
      exact hbarred

section Joints

variable {us : List Token} {before after : Option Text} (h : Sealed ts) (hsep : separator.Separates)

theorem jointTokens_eq_append (us : List Token) :
    jointTokens separator before after us = jointTokens separator before after [] ++ us := by
  simp [jointTokens]

include hsep

theorem quiet_joint : Quiet (jointTokens separator before after []) := by
  have hquiet := (quiet_gap before).append ((quiet_separator hsep).append (quiet_gap after))
  simpa [jointTokens] using hquiet

include h

theorem Sealed.openAfter_joint (us : List Token) :
    openAfter none (ts ++ jointTokens separator before after us) = openAfter none us := by
  rw [jointTokens_eq_append, openAfter_append, openAfter_append, h.state, (quiet_joint hsep).state]

theorem Sealed.outside_joint (hus : Outside us) :
    Outside (ts ++ jointTokens separator before after us) := by
  have hjoint : Quiet (jointTokens separator before after []) := quiet_joint hsep
  rw [jointTokens_eq_append]
  exact h.outside.append h.state ((outside_of_not_mem hjoint.plain).append hjoint.state hus)

/-- A backquote of two parts that are joined is one of the first, or one of the second. -/
theorem Sealed.barred_or {outer inner : List Token}
    (hcut : ts ++ jointTokens separator before after us = outer ++ .backquote :: inner) :
    (∀ more, Barred (inner ++ more)) ∨ ∃ middle, us = middle ++ .backquote :: inner := by
  rcases append_eq_append_cons hcut with ⟨middle, rfl, rfl⟩ | ⟨middle, rfl, hrest⟩
  · exact .inl fun more => by simpa [jointTokens] using h.barred outer middle rfl before hsep _
  · rw [jointTokens_eq_append] at hrest
    rcases append_eq_append_cons hrest with ⟨more, hmore, -⟩ | ⟨more, -, hmore⟩
    · have hmem : .backquote ∈ jointTokens separator before after [] := by simp [hmore]
      exact absurd hmem (quiet_joint hsep).plain
    · exact .inr ⟨more, hmore⟩

theorem Sealed.joint (hus : Sealed us) : Sealed (ts ++ jointTokens separator before after us) := by
  refine ⟨h.outside_joint hsep hus.outside, by rw [h.openAfter_joint hsep, hus.state], ?_⟩
  intro outer inner hcut gap separator' hsep' more
  rcases h.barred_or hsep hcut with hbarred | ⟨middle, hmiddle⟩
  · exact hbarred _
  · exact hus.barred middle inner hmiddle gap hsep' more

theorem Sealed.joint_gathered (hus : Gathered us) :
    Gathered (ts ++ jointTokens separator before after us) := by
  refine ⟨h.outside_joint hsep hus.outside, fun front separator' back hcut hsep' hstate => ?_⟩
  rw [jointTokens_eq_append, ← append_assoc] at hcut
  rcases append_eq_append_cons hcut with ⟨middle, hfront, -⟩ | ⟨middle, rfl, rfl⟩
  · right
    rintro outer inner rfl
    rw [append_assoc, cons_append] at hfront
    rcases h.barred_or hsep hfront with hbarred | ⟨_, hnil⟩
    · exact (barred_append_cons hsep' inner middle).mp (by simpa using hbarred [])
    · simp at hnil
  · rw [append_assoc, ← jointTokens_eq_append] at hstate ⊢
    rw [h.openAfter_joint hsep] at hstate
    refine (hus.apart middle separator' back rfl hsep' hstate).imp_right ?_
    intro hbarred outer inner hopen
    rcases h.barred_or hsep hopen with hfirst | ⟨more, hmore⟩
    · exact hfirst _
    · exact hbarred more inner hmore

end Joints

/-! ## The tokens of a command line -/

/-- A command with its own tokens. -/
def Command.Spans (x : Command) (ts : List Token) : Prop := x.tree.tokens = ts

theorem Cut.joined {α : Type} {R : α → List Token → Prop} {rule : Rule} {xs : List α}
    {left right : Tree} (hleft : Cut separator R xs left.tokens) (before after : Option Text)
    {x : α} (hright : R x right.tokens) :
    Cut separator R (xs ++ [x])
      (Tree.node rule (left :: jointLeaves separator before after ++ [right])).tokens := by
  rw [tokens_joined]
  have hjoint : (Joint.mk before after x).Joins separator R
      (jointTokens separator before after right.tokens) := ⟨right.tokens, hright, rfl⟩
  exact hleft.snoc hjoint

@[simp] theorem CommandLine.tokens_pipe (all : Pipe) :
    (CommandLine.pipe all).tree.tokens = all.tree.tokens := append_nil _

@[simp] theorem CommandLine.tokens_sequence (all : Sequence) :
    (CommandLine.sequence all).tree.tokens = all.tree.tokens := append_nil _

theorem Command.spans (x : Command) : Cut .bar Command.Spans [x] x.tree.tokens := .one rfl

theorem Pipe.spans (p : Pipe) : Cut .bar Command.Spans p.commands p.tree.tokens := by
  cases p with
  | pair left before after right | more left before after right =>
    exact left.spans.joined before after rfl

theorem Sequence.spans (s : Sequence) :
    Cut .semicolon (Cut .bar Command.Spans) s.parts s.tree.tokens := by
  cases s with
  | commands left before after right => exact (Cut.one left.spans).joined before after right.spans
  | pipeCommand left before after right =>
    exact (Cut.one left.spans).joined before after right.spans
  | pipes left before after right => exact (Cut.one left.spans).joined before after right.spans
  | commandPipe left before after right =>
    exact (Cut.one left.spans).joined before after right.spans
  | more left before after right => exact left.spans.joined before after right.spans

theorem CommandLine.spans (l : CommandLine) :
    Cut .semicolon (Cut .bar Command.Spans) l.parts l.tree.tokens := by
  cases l with
  | command only =>
    rw [CommandLine.tokens_command]
    exact .one only.spans
  | pipe all =>
    rw [CommandLine.tokens_pipe]
    exact .one all.spans
  | sequence all =>
    rw [CommandLine.tokens_sequence]
    exact all.spans

/-! ## Command lines whose commands can be read -/

theorem readable_pipe_of_commands (p : Pipe)
    (h : ∀ x ∈ p.commands, Covers (·.command) x.tree.tokens) : Readable .pipe p.tree.tokens := by
  cases p with
  | pair left before after right =>
    refine ⟨left.tree.tokens, jointTokens .bar before after right.tree.tokens, [], ?_, ?_, ?_⟩
    · rw [Pipe.tree, tokens_joined, flatten_nil, append_nil]
    · exact h left (by simp)
    · simpa using (h right (by simp)).barCommand before after
  | more left before after right =>
    obtain ⟨first, d, ds, htokens, hfirst, hds⟩ :=
      readable_pipe_of_commands left fun x hx => h x (by simp [hx])
    have hlast := (h right (by simp)).barCommand before after
    refine ⟨first, d, ds ++ [jointTokens .bar before after right.tree.tokens], ?_, hfirst, ?_⟩
    · rw [Pipe.tree, tokens_joined, htokens]
      simp
    · intro joint hjoint
      rw [← cons_append, mem_append, mem_singleton] at hjoint
      rcases hjoint with hjoint | rfl
      · exact hds joint hjoint
      · exact hlast

theorem Pipe.covers (p : Pipe) (h : ∀ x ∈ p.commands, Covers (·.command) x.tree.tokens) :
    Covers (·.pipe) p.tree.tokens :=
  covers_of_readable_pipe (readable_pipe_of_commands p h)

theorem readable_sequence_of_parts (s : Sequence)
    (h : ∀ x ∈ s.parts.flatten, Covers (·.command) x.tree.tokens) :
    Readable .sequence s.tree.tokens := by
  -- a first pair of any of the four kinds
  have hpair : ∀ {left right : Tree} (before after : Option Text),
      Covers (·.command) left.tokens ∨ Covers (·.pipe) left.tokens →
      Covers (·.command) right.tokens ∨ Covers (·.pipe) right.tokens →
      Readable .sequence
        (Tree.node .sequence (left :: jointLeaves .semicolon before after ++ [right])).tokens := by
    intro left right before after hleft hright
    refine ⟨left.tokens, jointTokens .semicolon before after right.tokens, [], ?_, hleft, ?_,
      by simp⟩
    · rw [tokens_joined, flatten_nil, append_nil]
    · exact hright.imp (·.semicolonCommand before after) (·.semicolonPipe before after)
  cases s with
  | commands left before after right =>
    exact hpair before after (.inl (h left (by simp)))
      (.inl (h right (by simp)))
  | pipeCommand left before after right =>
    exact hpair before after (.inr (left.covers fun x hx => h x (by simp [hx])))
      (.inl (h right (by simp)))
  | pipes left before after right =>
    exact hpair before after (.inr (left.covers fun x hx => h x (by simp [hx])))
      (.inr (right.covers fun x hx => h x (by simp [hx])))
  | commandPipe left before after right =>
    exact hpair before after (.inl (h left (by simp)))
      (.inr (right.covers fun x hx => h x (by simp [hx])))
  | more left before after right =>
    obtain ⟨first, d, ds, htokens, hfirst, hd, hds⟩ :=
      readable_sequence_of_parts left fun x hx => h x (by
        rw [Sequence.parts, flatten_append]
        exact mem_append_left _ hx)
    have hlast := (h right (by simp)).semicolonCommand before after
    refine ⟨first, d, ds ++ [jointTokens .semicolon before after right.tree.tokens], ?_, hfirst,
      hd, ?_⟩
    · rw [Sequence.tree, tokens_joined, htokens]
      simp
    · intro joint hjoint
      rw [mem_append, mem_singleton] at hjoint
      rcases hjoint with hjoint | rfl
      · exact hds joint hjoint
      · exact hlast

theorem CommandLine.covers (l : CommandLine)
    (h : ∀ x ∈ l.parts.flatten, Covers (·.command) x.tree.tokens) :
    Covers (·.commandLine) l.tree.tokens := by
  cases l with
  | command only =>
    rw [tokens_command]
    exact .commandLine (.inl (h only (by simp [parts])))
  | pipe all =>
    rw [tokens_pipe]
    exact .commandLine (.inr (.inl (all.covers fun x hx => h x (by simp [parts, hx]))))
  | sequence all =>
    rw [tokens_sequence]
    exact .commandLine (.inr (.inr (covers_of_readable_sequence
      (readable_sequence_of_parts all h))))

end CommandShell.Line

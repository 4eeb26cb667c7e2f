import CommandShell.Proofs.Chart.Grammar

/-!
# What the grammar derives

The token lists that an expression of the grammar can spell, given what its rules can spell. A
family of token lists that is closed under the alternatives of every rule has in it all that a
concrete tree can have at the ends of its branches, so a fact about derivable tokens can be proved
one alternative at a time.
-/

namespace CommandShell

namespace Grammar

/-- The tokens that an expression can spell if each rule spells what `L` allows. -/
inductive Expr.Spells (L : Rule → List Token → Prop) : Expr → List Token → Prop where
  | space (text : Text) : Spells L (.symbol .space) [.space text]
  | chars (text : Text) : Spells L (.symbol .chars) [.chars text]
  | exactly (token : Token) : Spells L (.symbol (.exactly token)) [token]
  | rule {rule : Rule} {c : List Token} (known : L rule c) : Spells L (.symbol (.rule rule)) c
  | seq {a b : Expr} {c d : List Token} (first : Spells L a c) (second : Spells L b d) :
      Spells L (.seq a b) (c ++ d)
  | left {a b : Expr} {c : List Token} (first : Spells L a c) : Spells L (.alt a b) c
  | right {a b : Expr} {c : List Token} (second : Spells L b c) : Spells L (.alt a b) c
  | none {a : Expr} : Spells L (.opt a) []
  | some {a : Expr} {c : List Token} (body : Spells L a c) : Spells L (.opt a) c
  | nil {a : Expr} : Spells L (.star a) []
  | cons {a : Expr} {c d : List Token} (first : Spells L a c) (later : Spells L (.star a) d) :
      Spells L (.star a) (c ++ d)
  | plus {a : Expr} {c d : List Token} (first : Spells L a c) (later : Spells L (.star a) d) :
      Spells L (.plus a) (c ++ d)

namespace Expr.Spells

variable {L : Rule → List Token → Prop} {a b : Expr} {c : List Token}

theorem split (h : Spells L (a ++ b) c) : ∃ d e, c = d ++ e ∧ Spells L a d ∧ Spells L b e := by
  cases h with
  | seq first second => exact ⟨_, _, rfl, first, second⟩

theorem eq_exactly {token : Token} (h : Spells L (Grammar.exactly token) c) : c = [token] := by
  cases h
  rfl

theorem eq_chars (h : Spells L Grammar.chars c) : ∃ text, c = [.chars text] := by
  cases h with
  | chars text => exact ⟨text, rfl⟩

theorem eq_space (h : Spells L Grammar.space c) : ∃ text, c = [.space text] := by
  cases h with
  | space text => exact ⟨text, rfl⟩

theorem known {rule : Rule} (h : Spells L (ref rule) c) : L rule c := by
  cases h with
  | rule known => exact known

theorem alt_cases (h : Spells L (.alt a b) c) : Spells L a c ∨ Spells L b c := by
  cases h with
  | left first => exact .inl first
  | right second => exact .inr second

theorem opt_cases (h : Spells L (.opt a) c) : c = [] ∨ Spells L a c := by
  cases h with
  | none => exact .inl rfl
  | some body => exact .inr body

theorem gap_cases (h : Spells L gap c) : c = [] ∨ ∃ text, c = [.space text] :=
  h.opt_cases.imp_right eq_space

/-- What holds of nothing, and of one more instance before others, holds of a repetition. -/
theorem star_induction {P : List Token → Prop} (h : Spells L (.star a) c) (nil : P [])
    (cons : ∀ d e, Spells L a d → P e → P (d ++ e)) : P c := by
  generalize hstar : Expr.star a = star at h
  induction h with
  | nil => exact nil
  | cons first later _ ih =>
    cases hstar
    exact cons _ _ first (ih rfl)
  | _ => cases hstar

theorem star_of_plus (h : Spells L (.plus a) c) : Spells L (.star a) c := by
  cases h with
  | plus first later => exact .cons first later

theorem spaces (h : Spells L (.star Grammar.space) c) :
    ∃ texts : List Text, c = texts.map .space := by
  apply h.star_induction (P := fun c => ∃ texts : List Text, c = texts.map .space)
  · exact ⟨[], rfl⟩
  · rintro d _ hd ⟨texts, rfl⟩
    obtain ⟨text, rfl⟩ := hd.eq_space
    exact ⟨text :: texts, rfl⟩

end Expr.Spells

theorem Expr.Matches.spells {L : Rule → List Token → Prop} {e : Expr} {xs : List Tree}
    (h : e.Matches xs)
    (hnodes : ∀ rule children, .node rule children ∈ xs →
      ∀ c : List Token, Tree.terminalsOf children = c.map .token → L rule c)
    {c : List Token} (hc : Tree.terminalsOf xs = c.map .token) : e.Spells L c := by
  induction h generalizing c with
  | symbol fits =>
    cases fits with
    | rule rule children =>
      rw [Tree.terminalsOf, Tree.terminalsOf, List.append_nil, Tree.terminals] at hc
      exact .rule (hnodes rule children List.mem_cons_self c hc)
    | endOfLine => cases c <;> cases hc
    | _ =>
      obtain ⟨_, _, rfl, hhead, htail⟩ := List.map_eq_cons_iff.mp hc.symm
      cases List.map_eq_nil_iff.mp htail
      cases hhead
      constructor
  | seq _ _ ihfirst ihsecond =>
    rw [Tree.terminalsOf_append] at hc
    obtain ⟨d, e, rfl, hd, he⟩ := List.map_eq_append_iff.mp hc.symm
    exact .seq (ihfirst (fun r t ht => hnodes r t (List.mem_append_left _ ht)) hd.symm)
      (ihsecond (fun r t ht => hnodes r t (List.mem_append_right _ ht)) he.symm)
  | left _ ih => exact .left (ih hnodes hc)
  | right _ ih => exact .right (ih hnodes hc)
  | none => cases List.map_eq_nil_iff.mp hc.symm; exact .none
  | some _ ih => exact .some (ih hnodes hc)
  | nil => cases List.map_eq_nil_iff.mp hc.symm; exact .nil
  | cons _ _ ihfirst ihlater =>
    rw [Tree.terminalsOf_append] at hc
    obtain ⟨d, e, rfl, hd, he⟩ := List.map_eq_append_iff.mp hc.symm
    exact .cons (ihfirst (fun r t ht => hnodes r t (List.mem_append_left _ ht)) hd.symm)
      (ihlater (fun r t ht => hnodes r t (List.mem_append_right _ ht)) he.symm)
  | plus _ _ ihfirst ihlater =>
    rw [Tree.terminalsOf_append] at hc
    obtain ⟨d, e, rfl, hd, he⟩ := List.map_eq_append_iff.mp hc.symm
    exact .plus (ihfirst (fun r t ht => hnodes r t (List.mem_append_left _ ht)) hd.symm)
      (ihlater (fun r t ht => hnodes r t (List.mem_append_right _ ht)) he.symm)

/-- Whatever an alternative of a rule can spell is allowed for the rule. -/
def Closed (L : Rule → List Token → Prop) : Prop :=
  ∀ (rule : Rule) (e : Expr) (c : List Token), e ∈ rule.alternatives → e.Spells L c → L rule c

end Grammar

namespace Tree

open Grammar

variable {L : Rule → List Token → Prop}

theorem Conforms.allowed (hL : Closed L) {t : Tree} (h : t.Conforms) (rule : Rule)
    (children : List Tree) (ht : t = Tree.node rule children) (c : List Token)
    (hc : terminalsOf children = c.map .token) : L rule c := by
  induction h generalizing rule children c with
  | leaf token => cases ht
  | endOfLine => cases ht
  | node e known matched below ih =>
    cases ht
    exact hL _ e c known
      (matched.spells (fun r xs hmem c hc => ih _ hmem r xs rfl c hc) hc)

theorem Conforms.start_cases (hL : Closed L) {children : List Tree} {ts : List Token}
    (h : (Tree.node .start children).Conforms)
    (hts : terminalsOf children = ts.map .token ++ [Terminal.endOfLine]) :
    ∃ (c : List Token) (spaces : List Text), ts = c ++ spaces.map .space ∧
      (c = [] ∨ L .commandLine c) := by
  cases h with
  | node e known matched below =>
    rw [Rule.alternatives, List.mem_singleton] at known
    subst known
    cases matched with
    | @seq _ _ front _ first last =>
      cases last with
      | symbol fits =>
        cases fits
        rw [terminalsOf_append] at hts
        have hfront : terminalsOf front = ts.map .token :=
          List.append_cancel_right hts
        have hspells := first.spells (L := L) (fun rule xs hmem c hc =>
          (below _ (List.mem_append_left _ hmem)).allowed hL rule xs rfl c hc) hfront
        obtain ⟨c, d, rfl, hline, hspaces⟩ := hspells.split
        obtain ⟨spaces, rfl⟩ := hspaces.spaces
        exact ⟨c, spaces, rfl, hline.opt_cases.imp_right fun h => h.known⟩

end Tree

end CommandShell

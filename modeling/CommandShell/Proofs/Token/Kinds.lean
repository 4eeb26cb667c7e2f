import CommandShell.Proofs.Chart.Completeness
import CommandShell.Proofs.Token.Rescanning

/-!
# Kinds of tokens

The grammar asks of a blank, or of a run of plain characters, only that it is there, so tokens of
the same kinds are read alike and are cut at the same places. What a semicolon with a space on
either side puts between two texts is known up to kinds.
-/

namespace CommandShell

namespace Token

/-- A token without the text that the grammar does not look at. -/
def kind : Token → Token
  | space _ => space []
  | chars _ => chars []
  | token => token

def kinds (ts : List Token) : List Token := ts.map kind

/-- The tokens that have no text of their own. -/
def isFixed : Token → Bool
  | space _ | chars _ => false
  | _ => true

variable {token : Token} {ts : List Token}

theorem eq_of_kind_eq {other : Token} (hfixed : token.isFixed = true) (h : other.kind = token.kind) :
    other = token := by
  cases token <;> cases other <;> simp_all [kind, isFixed]

theorem eq_space_of_kind_eq {t : Text} (h : token.kind = (space t).kind) :
    ∃ u, token = space u := by
  cases token <;> simp_all [kind]

theorem eq_chars_of_kind_eq {t : Text} (h : token.kind = (chars t).kind) :
    ∃ u, token = chars u := by
  cases token <;> simp_all [kind]

theorem Separates.isFixed (h : token.Separates) : token.isFixed = true := by
  rcases h with rfl | rfl <;> rfl

@[simp] theorem isSpace_kind (token : Token) : token.kind.isSpace = token.isSpace := by
  cases token <;> rfl

@[simp] theorem kinds_append (ts us : List Token) : kinds (ts ++ us) = kinds ts ++ kinds us :=
  List.map_append

@[simp] theorem kinds_cons (token : Token) (ts : List Token) :
    kinds (token :: ts) = token.kind :: kinds ts := rfl

theorem kinds_eq_append {us vs : List Token} (h : kinds ts = kinds (us ++ vs)) :
    ∃ us' vs', ts = us' ++ vs' ∧ kinds us' = kinds us ∧ kinds vs' = kinds vs := by
  rw [kinds_append] at h
  exact List.map_eq_append_iff.mp h

theorem kinds_eq_cons {us : List Token} (h : kinds ts = kinds (token :: us)) :
    ∃ token' us', ts = token' :: us' ∧ token'.kind = token.kind ∧ kinds us' = kinds us :=
  List.map_eq_cons_iff.mp h

theorem kinds_eq_spaces {spaces : List Text} (h : kinds ts = kinds (spaces.map space)) :
    ∃ texts : List Text, ts = texts.map space := by
  induction spaces generalizing ts with
  | nil => exact ⟨[], List.map_eq_nil_iff.mp h⟩
  | cons text spaces ih =>
    obtain ⟨token, us, rfl, htoken, hus⟩ := kinds_eq_cons h
    obtain ⟨u, rfl⟩ := eq_space_of_kind_eq htoken
    obtain ⟨texts, rfl⟩ := ih hus
    exact ⟨u :: texts, rfl⟩

end Token

open Token

namespace Grammar

/-! ## What an expression spells -/

/-- The tokens that an expression names have no text of their own. -/
def Expr.isFixed : Expr → Bool
  | .symbol (.exactly token) => token.isFixed
  | .symbol _ => true
  | .seq a b | .alt a b => a.isFixed && b.isFixed
  | .opt a | .star a | .plus a => a.isFixed

private theorem isFixed_of_mem_alternatives {rule : Rule} {e : Expr} (h : e ∈ rule.alternatives) :
    e.isFixed = true := by
  have hall : ∀ e ∈ rule.alternatives, e.isFixed = true := by cases rule <;> decide
  exact hall e h

variable {L : Rule → List Token → Prop}

theorem Expr.Spells.of_kinds {e : Expr} {c d : List Token}
    (h : e.Spells (fun rule c => ∀ d, kinds d = kinds c → L rule d) c) (he : e.isFixed = true)
    (hd : kinds d = kinds c) : e.Spells L d := by
  induction h generalizing d with
  | space text =>
    obtain ⟨token, us, rfl, htoken, hus⟩ := kinds_eq_cons hd
    obtain ⟨u, rfl⟩ := eq_space_of_kind_eq htoken
    rw [List.map_eq_nil_iff.mp hus]
    exact .space u
  | chars text =>
    obtain ⟨token, us, rfl, htoken, hus⟩ := kinds_eq_cons hd
    obtain ⟨u, rfl⟩ := eq_chars_of_kind_eq htoken
    rw [List.map_eq_nil_iff.mp hus]
    exact .chars u
  | exactly token =>
    obtain ⟨token', us, rfl, htoken, hus⟩ := kinds_eq_cons hd
    obtain rfl := eq_of_kind_eq he htoken
    rw [List.map_eq_nil_iff.mp hus]
    exact .exactly token'
  | rule known => exact .rule (known d hd)
  | seq _ _ ihfirst ihsecond =>
    obtain ⟨d, f, rfl, hd, hf⟩ := kinds_eq_append hd
    rw [Expr.isFixed, Bool.and_eq_true] at he
    exact .seq (ihfirst he.1 hd) (ihsecond he.2 hf)
  | left _ ih =>
    rw [Expr.isFixed, Bool.and_eq_true] at he
    exact .left (ih he.1 hd)
  | right _ ih =>
    rw [Expr.isFixed, Bool.and_eq_true] at he
    exact .right (ih he.2 hd)
  | none => rw [List.map_eq_nil_iff.mp hd]; exact .none
  | some _ ih => exact .some (ih he hd)
  | nil => rw [List.map_eq_nil_iff.mp hd]; exact .nil
  | cons _ _ ihfirst ihlater =>
    obtain ⟨d, f, rfl, hd, hf⟩ := kinds_eq_append hd
    exact .cons (ihfirst he hd) (ihlater he hf)
  | plus _ _ ihfirst ihlater =>
    obtain ⟨d, f, rfl, hd, hf⟩ := kinds_eq_append hd
    exact .plus (ihfirst he hd) (ihlater he hf)

/-- A closed family stays closed if it is asked to hold for all tokens of the same kinds. -/
theorem Closed.kinds (hL : Closed L) :
    Closed fun rule c => ∀ d, Token.kinds d = Token.kinds c → L rule d := by
  intro rule e c known h d hd
  exact hL rule e d known (h.of_kinds (isFixed_of_mem_alternatives known) hd)

theorem Expr.Spells.joined {left right : Rule} {c d : List Token} (separator : Token)
    (before after : Option Text) (hc : L left c) (hd : L right d) :
    (joined left separator right).Spells L (c ++ Line.jointTokens separator before after d) := by
  have hgap : ∀ gap : Option Text, Grammar.gap.Spells L (Line.gapTokens gap) := by
    intro gap
    cases gap with
    | none => exact .none
    | some text => exact .some (.space text)
  have htokens : c ++ Line.jointTokens separator before after d =
      c ++ Line.gapTokens before ++ [separator] ++ Line.gapTokens after ++ d := by
    simp [Line.jointTokens]
  rw [htokens]
  exact .seq (.seq (.seq (.seq (.rule hc) (hgap before)) (.exactly separator)) (hgap after))
    (.rule hd)

end Grammar

namespace Line

/-! ## Cuts at separators -/

@[simp] private theorem after_kind (open? : Option Quote) (token : Token) :
    Quote.after open? token.kind = Quote.after open? token := by
  cases open? with
  | none => cases token <;> rfl
  | some quote => cases token <;> cases quote <;> rfl

section Separator

variable {separator : Token} (hsep : separator.Separates)
include hsep

theorem kind_eq_separator_iff (token : Token) : token.kind = separator ↔ token = separator := by
  rcases hsep with rfl | rfl <;> cases token <;> simp [kind]

@[simp] theorem splitTop_kinds (open? : Option Quote) (ts : List Token) :
    splitTop separator open? (kinds ts) = (splitTop separator open? ts).map kinds := by
  induction ts generalizing open? with
  | nil => rfl
  | cons token ts ih =>
    by_cases hcut : open? = none ∧ token = separator
    · have hkind := (kind_eq_separator_iff hsep token).mpr hcut.2
      rw [kinds_cons, splitTop, if_pos ⟨hcut.1, hkind⟩, splitTop, if_pos hcut, ih]
      rfl
    · have hkind : ¬ (open? = none ∧ token.kind = separator) := by
        rwa [kind_eq_separator_iff hsep]
      rw [kinds_cons, splitTop_cons_of_ne separator hkind, splitTop_cons_of_ne separator hcut,
        after_kind, ih]
      cases splitTop separator (Quote.after open? token) ts <;> rfl

omit hsep in
@[simp] private theorem trim_kinds (ts : List Token) : trim (kinds ts) = kinds (trim ts) := by
  have hspace : Token.isSpace ∘ kind = Token.isSpace := funext isSpace_kind
  unfold trim kinds
  rw [List.dropWhile_map, hspace, List.rdropWhile, List.rdropWhile, ← List.map_reverse,
    List.dropWhile_map, hspace, List.map_reverse]

@[simp] theorem pieces_kinds (ts : List Token) :
    pieces separator (kinds ts) = (pieces separator ts).map kinds := by
  unfold pieces
  rw [splitTop_kinds hsep, List.map_map, List.map_map]
  exact List.map_congr_left fun piece _ => trim_kinds piece

end Separator

/-! ## Texts joined by a semicolon -/

private theorem kinds_ofLine_space (t y : Text) : ∃ gap, kinds
    (space t :: ofLine (y.dropWhile isBlank)) =
    kinds (gapTokens gap ++ ofLine y) := by
  rcases ofLine_dropWhile y with h | ⟨u, h⟩ | ⟨-, u, v, ts, h, h'⟩
  · exact ⟨some t, by rw [h]; rfl⟩
  · exact ⟨none, by rw [h]; rfl⟩
  · exact ⟨some t, by rw [h, h']; rfl⟩

/-- Two texts joined by a semicolon: the first keeps its tokens, but that blanks at its end make
one token with the space that follows. -/
theorem kinds_ofLine_joined (l : Text) :
    ∃ ts, (ofLine l = ts ∨ ∃ t, ofLine l = ts ++ [space t]) ∧
      (∃ b, ofLine (l ++ [' ']) = ts ++ [space b]) ∧
      ∀ y, ∃ gap, kinds (ofLine (l ++ " ; ".toList ++ y)) =
        kinds (ts ++ jointTokens semicolon (some []) gap (ofLine y)) := by
  obtain ⟨ts, hl, b, hx⟩ := ofLine_meet l
  refine ⟨ts, hl, ⟨b ++ [' '], by rw [hx]; simp⟩, fun y => ?_⟩
  obtain ⟨gap, hgap⟩ := kinds_ofLine_space (' ' :: y.takeWhile isBlank) y
  have hline : l ++ " ; ".toList ++ y = l ++ ' ' :: ';' :: ([] ++ ' ' :: y) := by simp
  refine ⟨gap, ?_⟩
  rw [hline, hx, kinds_append, kinds_append]
  congr 1
  change kind _ :: kinds (ofLine (';' :: ([] ++ ' ' :: y))) = _
  rw [ofLine_semicolon, ofLine_blank_run (by simp)]
  change space [] :: semicolon :: kinds (space (' ' :: y.takeWhile isBlank) :: _) = _
  rw [hgap]
  rfl

end Line

end CommandShell

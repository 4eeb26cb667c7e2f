import CommandShell.Text.Space
import Mathlib

/-!
# Fields of a text

The fields of a text are what stands between its separators, where separators in a row count as
one and those at the ends do not count. Trimming takes white space from both ends, and squeezing
leaves one space of each run.
-/

namespace CommandShell.Text

open List

/-! ## Cutting -/

variable {c : Char} {s a : Text} {p : Char → Bool}

section Cutting

variable {p : Char → Bool}

theorem splitWhere_ne_nil (p : Char → Bool) (s : Text) : splitWhere p s ≠ [] := by
  cases s with
  | nil => simp [splitWhere]
  | cons c s =>
    rw [splitWhere]
    split
    · simp
    · split <;> simp

theorem splitWhere_cons_of_neg (h : p c = false) (s : Text) :
    splitWhere p (c :: s) = (splitWhere p s).modifyHead (c :: ·) := by
  rw [splitWhere, if_neg (by simp [h])]
  split
  · next hnil => exact absurd hnil (splitWhere_ne_nil p s)
  · next piece pieces hcons => rw [hcons, modifyHead_cons]

theorem splitWhere_append_cons (h : p c = true) (a b : Text) :
    splitWhere p (a ++ c :: b) = splitWhere p a ++ splitWhere p b := by
  induction a with
  | nil =>
    rw [nil_append, splitWhere.eq_2, if_pos h]
    rfl
  | cons d a ih =>
    cases hd : p d with
    | true => rw [cons_append, splitWhere, if_pos hd, ih, splitWhere, if_pos hd,
        cons_append]
    | false =>
      rw [cons_append, splitWhere_cons_of_neg hd, splitWhere_cons_of_neg hd, ih]
      obtain ⟨piece, pieces, hcons⟩ := exists_cons_of_ne_nil (splitWhere_ne_nil p a)
      rw [hcons]
      rfl

theorem splitWhere_of_neg (h : ∀ c ∈ s, p c = false) : splitWhere p s = [s] := by
  induction s with
  | nil => rfl
  | cons c s ih =>
    rw [splitWhere_cons_of_neg (h c mem_cons_self),
      ih fun d hd => h d (mem_cons_of_mem c hd), modifyHead_cons]

theorem splitWhere_map {q : Char → Bool} {f : Char → Char} (hp : ∀ c, p (f c) = q c)
    (hf : ∀ c, q c = false → f c = c) (s : Text) : splitWhere p (s.map f) = splitWhere q s := by
  induction s with
  | nil => rfl
  | cons c s ih =>
    cases hc : q c with
    | true => rw [map_cons, splitWhere, if_pos (by rw [hp, hc]), splitWhere, if_pos hc, ih]
    | false =>
      rw [map_cons, splitWhere_cons_of_neg (by rw [hp, hc]), splitWhere_cons_of_neg hc,
        ih, hf c hc]

theorem cut_induction {motive : Text → Prop} (p : Char → Bool)
    (solid : ∀ s, (∀ c ∈ s, p c = false) → motive s)
    (cut : ∀ a c b, (∀ d ∈ a, p d = false) → p c = true → motive b → motive (a ++ c :: b))
    (s : Text) : motive s := by
  induction hn : s.length using Nat.strongRecOn generalizing s with
  | _ n ih =>
    cases hdrop : s.dropWhile (!p ·) with
    | nil =>
      refine solid s fun c hc => ?_
      simpa using dropWhile_eq_nil_iff.mp hdrop c hc
    | cons c b =>
      have hc : p c = true := by
        simpa [hdrop] using List.head?_dropWhile_not (!p ·) s
      have hs : s = s.takeWhile (!p ·) ++ c :: b := by
        rw [← hdrop, takeWhile_append_dropWhile]
      have hlength : s.length = (s.takeWhile (!p ·)).length + (b.length + 1) := by
        rw [← length_cons, ← length_append, ← hs]
      rw [hs]
      refine cut _ c b (fun d hd => ?_) hc (ih b.length (by omega) b rfl)
      simpa using mem_takeWhile_imp hd

end Cutting

/-! ## Fields -/

/-- The maximal runs of characters that are no separators. -/
def fields (p : Char → Bool) (s : Text) : List Text := (splitWhere p s).filter (· ≠ [])

section Fields

variable {p : Char → Bool}

theorem fields_append_cons (h : p c = true) (a b : Text) :
    fields p (a ++ c :: b) = fields p a ++ fields p b := by
  rw [fields, splitWhere_append_cons h, filter_append]
  rfl

theorem fields_cons (h : p c = true) (s : Text) : fields p (c :: s) = fields p s :=
  fields_append_cons h [] s

theorem fields_of_neg (hs : s ≠ []) (h : ∀ c ∈ s, p c = false) : fields p s = [s] := by
  rw [fields, splitWhere_of_neg h]
  simp [hs]

theorem fields_append_of_head? (hs : s ≠ []) (h : ∀ c ∈ s, p c = false) {t : Text}
    (ht : ∀ c, t.head? = some c → p c = true) : fields p (s ++ t) = s :: fields p t := by
  cases t with
  | nil => rw [append_nil, fields_of_neg hs h]; rfl
  | cons c t =>
    have hc := ht c rfl
    rw [fields_append_cons hc, fields_cons hc, fields_of_neg hs h, singleton_append]

theorem fields_append_left (ha : ∀ c ∈ a, p c = true) (s : Text) :
    fields p (a ++ s) = fields p s := by
  induction a with
  | nil => rfl
  | cons c a ih =>
    rw [cons_append, fields_cons (ha c mem_cons_self),
      ih fun d hd => ha d (mem_cons_of_mem c hd)]

theorem fields_append_right (ha : ∀ c ∈ a, p c = true) (s : Text) :
    fields p (s ++ a) = fields p s := by
  cases a with
  | nil => rw [append_nil]
  | cons c a =>
    have hnil : fields p a = [] := by
      have h := fields_append_left (fun d hd => ha d (mem_cons_of_mem c hd)) []
      rwa [append_nil] at h
    rw [fields_append_cons (ha c mem_cons_self), hnil, append_nil]

@[simp] theorem flatten_fields (p : Char → Bool) (s : Text) : (fields p s).flatten = s.filter
    (!p ·) := by
  induction s using cut_induction p with
  | solid s h =>
    have hfilter : s.filter (!p ·) = s := filter_eq_self.mpr (by simpa using h)
    by_cases hs : s = []
    · rw [hs]; rfl
    · rw [fields_of_neg hs h, hfilter, flatten_singleton]
  | cut a c b ha hc ih =>
    have hfilter : a.filter (!p ·) = a := filter_eq_self.mpr (by simpa using ha)
    rw [fields_append_cons hc, flatten_append, ih, filter_append,
      filter_cons_of_neg (by simp [hc]), hfilter]
    by_cases hnil : a = []
    · rw [hnil]; rfl
    · rw [fields_of_neg hnil ha, flatten_singleton]

theorem infix_of_mem_fields {field : Text} (h : field ∈ fields p s) : field <:+: s := by
  induction s using cut_induction p with
  | solid s hsolid =>
    by_cases hs : s = []
    · rw [hs] at h
      cases h
    · rw [fields_of_neg hs hsolid, mem_singleton] at h
      exact h ▸ infix_refl s
  | cut a c b ha hc ih =>
    rw [fields_append_cons hc, mem_append] at h
    rcases h with h | h
    · by_cases hnil : a = []
      · rw [hnil] at h
        cases h
      · rw [fields_of_neg hnil ha, mem_singleton] at h
        exact h ▸ (prefix_append a (c :: b)).isInfix
    · exact (ih h).trans ⟨a ++ [c], [], by simp⟩

theorem fields_of_cut {f : Text → Text}
    (hcut : ∀ a c b, p c = true → f (a ++ c :: b) = f a ++ c :: f b)
    (hsolid : ∀ s, (∀ c ∈ s, p c = false) → ∀ c ∈ f s, p c = false)
    (hnil : ∀ s, f s = [] ↔ s = []) (s : Text) : fields p (f s) = (fields p s).map f := by
  have hfield : ∀ s, (∀ c ∈ s, p c = false) → fields p (f s) = (fields p s).map f := by
    intro s hs
    by_cases h : s = []
    · rw [h, (hnil []).mpr rfl]
      rfl
    · rw [fields_of_neg (mt (hnil s).mp h) (hsolid s hs), fields_of_neg h hs, map_singleton]
  induction s using cut_induction p with
  | solid s hs => exact hfield s hs
  | cut a c b ha hc ih =>
    rw [hcut a c b hc, fields_append_cons hc, fields_append_cons hc, map_append, ih,
      hfield a ha]

theorem sep_of_mem_fields {field : Text} (h : field ∈ fields p s) (hc : c ∈ field) :
    p c = false := by
  have hmem : c ∈ (fields p s).flatten := mem_flatten.mpr ⟨field, h, hc⟩
  rw [flatten_fields, mem_filter] at hmem
  simpa using hmem.2

end Fields

/-! ## Squeezing -/

/-- A text with one space in place of each run of them, and none at its ends. -/
def squeeze (s : Text) : Text := join [' '] (fields (· = ' ') s)

section Squeeze

theorem join_cons_cons (a b : Text) (sep : Text) (pieces : List Text) :
    join sep (a :: b :: pieces) = a ++ sep ++ join sep (b :: pieces) := rfl

@[simp] theorem join_splitWhere (c : Char) (s : Text) : join [c] (splitWhere (· = c) s) = s := by
  induction s with
  | nil => rfl
  | cons d s ih =>
    obtain ⟨piece, pieces, hcons⟩ := exists_cons_of_ne_nil (splitWhere_ne_nil (· = c) s)
    rw [hcons] at ih
    by_cases hd : d = c
    · rw [splitWhere, if_pos (by simpa using hd), hcons, join_cons_cons, ih, hd]
      rfl
    · rw [splitWhere_cons_of_neg (by simpa using hd), hcons, modifyHead_cons]
      cases pieces with
      | nil => rw [← ih]; rfl
      | cons next pieces =>
        rw [join_cons_cons] at ih ⊢
        rw [← ih]
        rfl

theorem splitAt_eq_iff {piece : Text} {pieces : List Text} :
    splitAt c s = piece :: pieces ↔
      (∀ p ∈ piece :: pieces, c ∉ p) ∧ join [c] (piece :: pieces) = s := by
  constructor
  · intro hsplit
    refine ⟨fun p hp hc => ?_, by rw [← hsplit]; exact join_splitWhere c s⟩
    have hfield : p ∈ fields (· = c) s :=
      mem_filter.2 ⟨by rw [← hsplit] at hp; exact hp, by simpa using ne_nil_of_mem hc⟩
    simpa using sep_of_mem_fields hfield hc
  · rintro ⟨hpieces, rfl⟩
    have hpiece : ∀ p : Text, c ∉ p → splitWhere (· = c) p = [p] := fun p hp =>
      splitWhere_of_neg fun d hd => decide_eq_false fun hdc => hp (hdc ▸ hd)
    unfold splitAt
    induction pieces generalizing piece with
    | nil => exact hpiece piece (hpieces piece mem_cons_self)
    | cons next pieces ih =>
      rw [forall_mem_cons] at hpieces
      rw [join_cons_cons, append_assoc, singleton_append,
        splitWhere_append_cons (by simp), hpiece piece hpieces.1, ih hpieces.2]
      rfl

variable {α : Type} (f : Text → α) (op : α → α → α) {unit : α}

theorem join_eq_foldr (hnil : f [] = unit) (hop : ∀ a b, f (a ++ ' ' :: b) = op (f a) (f b))
    (hright : ∀ a, op a unit = a) (pieces : List Text) :
    f (join [' '] pieces) = (pieces.map f).foldr op unit := by
  induction pieces with
  | nil => exact hnil
  | cons piece pieces ih =>
    cases pieces with
    | nil => exact (hright (f piece)).symm
    | cons next pieces =>
      rw [join_cons_cons, append_assoc, singleton_append, hop, ih]
      rfl

/-- What can be told apart by the spaces in a text does not depend on how many they are. -/
theorem squeeze_eq (hnil : f [] = unit) (hop : ∀ a b, f (a ++ ' ' :: b) = op (f a) (f b))
    (hleft : ∀ a, op unit a = a) (hright : ∀ a, op a unit = a) (s : Text) :
    f (squeeze s) = f s := by
  have hfilter : ∀ pieces : List Text,
      ((pieces.filter (· ≠ [])).map f).foldr op unit = (pieces.map f).foldr op unit := by
    intro pieces
    induction pieces with
    | nil => rfl
    | cons piece pieces ih =>
      by_cases hpiece : piece = []
      · rw [filter_cons_of_neg (by simpa using hpiece), ih, hpiece, map_cons,
          foldr_cons, hnil, hleft]
      · rw [filter_cons_of_pos (by simpa using hpiece), map_cons, foldr_cons, ih,
          map_cons, foldr_cons]
  rw [squeeze, join_eq_foldr f op hnil hop hright, fields, hfilter, ← join_eq_foldr f op hnil hop hright,
    join_splitWhere]

theorem filter_squeeze (hp : p ' ' = false) (s : Text) : (squeeze s).filter p = s.filter p :=
  squeeze_eq (List.filter p) (· ++ ·) rfl
    (fun a b => by rw [filter_append, filter_cons_of_neg (by simp [hp])])
    nil_append append_nil s

theorem fields_squeeze (hp : p ' ' = true) (s : Text) : fields p (squeeze s) = fields p s :=
  squeeze_eq (fields p) (· ++ ·) rfl (fields_append_cons hp) nil_append
    append_nil s

end Squeeze

/-! ## Trimming -/

/-- A text that begins and ends with something other than white space. -/
structure Trimmed (s : Text) : Prop where
  head : ∃ c, s.head? = some c ∧ isSpace c = false
  last : ∃ c, s.getLast? = some c ∧ isSpace c = false

theorem trim_append {b : Text} (ha : ∀ c ∈ a, isSpace c = true) (hb : ∀ c ∈ b, isSpace c = true)
    (hs : s.Trimmed) : trim (a ++ s ++ b) = s := by
  obtain ⟨⟨c, hhead, hc⟩, d, hlast, hd⟩ := hs
  have hfront : (a ++ s ++ b).dropWhile isSpace = s ++ b := by
    obtain ⟨rest, rfl⟩ := List.head?_eq_some_iff.mp hhead
    rw [append_assoc, dropWhile_append_of_pos ha, cons_append,
      dropWhile_cons_of_neg (by simp [hc])]
  have hback : (s ++ b).reverse.dropWhile isSpace = s.reverse := by
    obtain ⟨rest, rfl⟩ := List.getLast?_eq_some_iff.mp hlast
    rw [reverse_append, dropWhile_append_of_pos (by simpa using hb), reverse_append,
      reverse_singleton, singleton_append, dropWhile_cons_of_neg (by simp [hd])]
  rw [trim, hfront, dropEndWhile, hback, reverse_reverse]

theorem exists_append_dropEnds (p : Char → Bool) (s : Text) :
    ∃ a b, s = a ++ dropEndWhile p (s.dropWhile p) ++ b ∧
      (∀ c ∈ a, p c = true) ∧ ∀ c ∈ b, p c = true := by
  refine ⟨s.takeWhile p, (s.dropWhile p).rtakeWhile p, ?_,
    fun c hc => mem_takeWhile_imp hc, fun c hc => mem_rtakeWhile_imp hc⟩
  rw [append_assoc]
  change s = s.takeWhile p ++ ((s.dropWhile p).rdropWhile p ++ (s.dropWhile p).rtakeWhile p)
  rw [rdropWhile_append_rtakeWhile, takeWhile_append_dropWhile]

theorem exists_append_trim (s : Text) : ∃ a b, s = a ++ trim s ++ b ∧
    (∀ c ∈ a, isSpace c = true) ∧ ∀ c ∈ b, isSpace c = true :=
  exists_append_dropEnds isSpace s

theorem trimmed_trim {s : Text} (h : trim s ≠ []) : (trim s).Trimmed where
  head := by
    have hprefix : trim s <+: s.dropWhile isSpace := rdropWhile_prefix isSpace _
    obtain ⟨c, rest, hcons⟩ := exists_cons_of_ne_nil h
    obtain ⟨more, hmore⟩ := hprefix
    have hnot := List.head?_dropWhile_not isSpace s
    rw [← hmore, hcons] at hnot
    exact ⟨c, by rw [hcons]; rfl, by simpa using hnot⟩
  last := by
    refine ⟨(trim s).getLast h, List.getLast?_eq_some_getLast h, ?_⟩
    exact Bool.not_eq_true _ ▸ rdropWhile_last_not isSpace (s.dropWhile isSpace) h

theorem dropEnds_of_neg (h : ∀ c ∈ s, p c = false) : dropEndWhile p (s.dropWhile p) = s := by
  have hdrop : ∀ t : Text, (∀ c ∈ t, p c = false) → t.dropWhile p = t := by
    intro t ht
    cases t with
    | nil => rfl
    | cons c t => rw [dropWhile_cons_of_neg (by simp [ht c mem_cons_self])]
  rw [hdrop s h, dropEndWhile, hdrop s.reverse (by simpa using h), reverse_reverse]

theorem trim_between {b : Text} (ha : ∀ c ∈ a, isSpace c = true) (hb : ∀ c ∈ b, isSpace c = true)
    (s : Text) : trim (a ++ s ++ b) = trim s := by
  obtain ⟨x, y, hs, hx, hy⟩ := exists_append_trim s
  have hbefore : ∀ c ∈ a ++ x, isSpace c = true := by simpa [or_imp, forall_and] using ⟨ha, hx⟩
  have hafter : ∀ c ∈ y ++ b, isSpace c = true := by simpa [or_imp, forall_and] using ⟨hy, hb⟩
  have hsplit : a ++ s ++ b = (a ++ x) ++ trim s ++ (y ++ b) := by
    conv_lhs => rw [hs]
    simp only [append_assoc]
  rw [hsplit]
  by_cases hnil : trim s = []
  · have hdrop : ((a ++ x) ++ (y ++ b)).dropWhile isSpace = [] :=
      dropWhile_eq_nil_iff.mpr fun c hc => (mem_append.mp hc).elim (hbefore c) (hafter c)
    rw [hnil, append_nil, trim, hdrop]
    rfl
  · exact trim_append hbefore hafter (trimmed_trim hnil)

theorem trim_map {f : Char → Char} (hf : ∀ c, isSpace (f c) = isSpace c) (h : trim s ≠ []) :
    trim (s.map f) = (trim s).map f := by
  obtain ⟨a, b, hs, ha, hb⟩ := exists_append_trim s
  obtain ⟨⟨c, hhead, hc⟩, d, hlast, hd⟩ := trimmed_trim h
  conv_lhs => rw [hs, map_append, map_append]
  refine trim_append (by simpa [hf] using ha) (by simpa [hf] using hb)
    ⟨⟨f c, by simp [hhead], by rw [hf, hc]⟩, f d, by simp [hlast], by rw [hf, hd]⟩

section Ends

variable {pieces : List Text} (h : ∀ piece ∈ pieces, piece ≠ [] ∧ ' ' ∉ piece)
include h

theorem head?_join : (join [' '] pieces).head? ≠ some ' ' := by
  cases pieces with
  | nil => simp [join]
  | cons piece pieces =>
    obtain ⟨hpiece, hspace⟩ := h piece mem_cons_self
    obtain ⟨c, rest, rfl⟩ := exists_cons_of_ne_nil hpiece
    have hc : c ≠ ' ' := fun hc => hspace (hc ▸ mem_cons_self)
    cases pieces <;> simpa [join] using hc

theorem getLast?_join : (join [' '] pieces).getLast? ≠ some ' ' ∧
    (pieces ≠ [] → join [' '] pieces ≠ []) := by
  induction pieces with
  | nil => simp [join]
  | cons piece pieces ih =>
    obtain ⟨hpiece, hspace⟩ := h piece mem_cons_self
    cases pieces with
    | nil => exact ⟨fun hlast => hspace (mem_of_getLast? hlast), fun _ => hpiece⟩
    | cons next pieces =>
      obtain ⟨hlast, hne⟩ := ih fun piece hmem => h piece (mem_cons_of_mem _ hmem)
      rw [join_cons_cons, List.getLast?_append_of_ne_nil _ (hne (cons_ne_nil _ _))]
      exact ⟨hlast, fun _ => by simp⟩

end Ends

theorem head?_filter (h : ∀ c, s.head? = some c → p c = true) : (s.filter p).head? = s.head? := by
  cases s with
  | nil => rfl
  | cons c s => rw [filter_cons_of_pos (h c rfl), List.head?_cons, List.head?_cons]

theorem getLast?_filter (h : ∀ c, s.getLast? = some c → p c = true) :
    (s.filter p).getLast? = s.getLast? := by
  rw [List.getLast?_eq_head?_reverse, ← filter_reverse,
    head?_filter (by simpa using h), List.head?_reverse]

theorem Trimmed.squeeze {s : Text} (h : s.Trimmed) : s.squeeze.Trimmed := by
  have hpieces : ∀ piece ∈ fields (· = ' ') s, piece ≠ [] ∧ ' ' ∉ piece := by
    intro piece hmem
    refine ⟨by simpa using (mem_filter.mp hmem).2, fun hspace => ?_⟩
    simpa using sep_of_mem_fields hmem hspace
  have hfilter : s.squeeze.filter (· ≠ ' ') = s.filter (· ≠ ' ') := filter_squeeze rfl s
  obtain ⟨⟨c, hhead, hc⟩, d, hlast, hd⟩ := h
  have hne : ∀ x, isSpace x = false → x ≠ ' ' := by
    rintro x hx rfl
    cases hx
  have hfirst : ∀ x, s.squeeze.head? = some x → decide (x ≠ ' ') = true := by
    intro x hx
    rw [decide_eq_true_eq]
    rintro rfl
    exact head?_join hpieces hx
  have hfinal : ∀ x, s.squeeze.getLast? = some x → decide (x ≠ ' ') = true := by
    intro x hx
    rw [decide_eq_true_eq]
    rintro rfl
    exact (getLast?_join hpieces).1 hx
  refine ⟨⟨c, ?_, hc⟩, d, ?_, hd⟩
  · calc s.squeeze.head?
        = (s.squeeze.filter (· ≠ ' ')).head? := (head?_filter hfirst).symm
      _ = (s.filter (· ≠ ' ')).head? := by rw [hfilter]
      _ = some c := by rw [head?_filter (by simpa [hhead] using hne c hc), hhead]
  · calc s.squeeze.getLast?
        = (s.squeeze.filter (· ≠ ' ')).getLast? := (getLast?_filter hfinal).symm
      _ = (s.filter (· ≠ ' ')).getLast? := by rw [hfilter]
      _ = some d := by rw [getLast?_filter (by simpa [hlast] using hne d hd), hlast]

end CommandShell.Text

import CommandShell.Pattern.Wildcard
import Mathlib

/-!
# Patterns for paths

A path that is put before a pattern becomes part of it. Where no bracket reaches over a slash, the
whole fits the path with a name after it exactly if the path fits itself and the name fits the
pattern. A path without brackets always fits itself.
-/

namespace CommandShell

open List

namespace Wildcard

/-! ## The parts of a pattern -/

theorem getElem?_of_closing? {body : Text} {stop : Nat} (h : closing? body = some stop) :
    body[stop]? = some ']' := by
  unfold closing? at h
  obtain ⟨i, hi, rfl⟩ := Option.map_eq_some_iff.1 h
  obtain ⟨hlt, hclosed, -⟩ := List.findIdx?_eq_some_iff_getElem.1 hi
  rw [Nat.add_comm, ← List.getElem?_drop, List.getElem?_eq_getElem hlt]
  simpa using hclosed

private theorem closing?_eq_none_of_not_mem {body : Text}
    (h : ']' ∉ body) : closing? body = none := by
  cases hclosing : closing? body with
  | none => rfl
  | some stop => exact absurd (mem_of_getElem? (getElem?_of_closing? hclosing)) h

/-- A bracket does not close later because of what has no closing bracket in it. -/
theorem closing?_append (body : Text) {later : Text} (h : ']' ∉ later) :
    closing? (body ++ later) = closing? body := by
  cases body with
  | nil => exact closing?_eq_none_of_not_mem h
  | cons c body =>
    have hclosed (i : Nat) : (c :: body ++ later)[i]? = some ']' ↔ (c :: body)[i]? = some ']' := by
      rw [List.getElem?_append]
      split
      · exact Iff.rfl
      · next hlong =>
          rw [List.getElem?_eq_none (Nat.le_of_not_lt hlong)]
          exact iff_of_false (fun hmem => h (mem_of_getElem? hmem)) nofun
    have hhead : (c :: body ++ later).head? = (c :: body).head? := rfl
    unfold closing?
    simp only [hclosed, hhead]
    generalize hmark : (if (c :: body).head? = some '!' then 1 else 0) = mark
    have hskipped : (if (c :: body)[mark]? = some ']' then mark + 1 else mark) ≤
        (c :: body).length := by
      split_ifs with hclosing
      · exact (List.getElem?_eq_some_iff.1 hclosing).1
      · rw [← hmark, length_cons]
        split_ifs <;> omega
    rw [drop_append_of_le_length hskipped, List.findIdx?_append]
    have hnone : later.findIdx? (· = ']') = none :=
      List.findIdx?_eq_none_iff.2 fun d hd => decide_eq_false fun heq => h (heq ▸ hd)
    rw [hnone, Option.map_none, Option.or_none]

theorem parts_bracket {body : Text} {stop : Nat} (h : closing? body = some stop) :
    parts ('[' :: body) = ofBracket (body.take stop) :: parts (body.drop (stop + 1)) := by
  rw [parts, h]

theorem parts_unclosed {body : Text} (h : closing? body = none) :
    parts ('[' :: body) = .char '[' :: parts body := by
  rw [parts, h]

variable {later name pattern : Text}

/-- A pattern is read in two pieces if no bracket of the first closes in the second. -/
theorem parts_append {front : Text} (h : '[' ∈ front → ']' ∉ later) :
    parts (front ++ later) = parts front ++ parts later := by
  induction front using parts.induct with
  | case1 => simp [parts]
  | case2 rest ih | case3 rest ih =>
    rw [cons_append, parts, parts, ih (fun hmem => h (by simp [hmem]))]; rfl
  | case4 rest hnone ih =>
    have hlater := h mem_cons_self
    rw [cons_append, parts_unclosed hnone, parts_unclosed (by rwa [closing?_append rest hlater]),
      ih fun _ => hlater, cons_append]
  | case5 rest stop hstop ih =>
    have hlater := h mem_cons_self
    have hlt : stop < rest.length := (List.getElem?_eq_some_iff.1 (getElem?_of_closing? hstop)).1
    rw [cons_append, parts_bracket hstop,
      parts_bracket (by rwa [closing?_append rest hlater]), take_append_of_le_length hlt.le,
      drop_append_of_le_length hlt, ih fun _ => hlater, cons_append]
  | case6 c rest hany hone hbracket ih =>
    rw [cons_append, parts, parts, ih (fun hmem => h (by simp [hmem]))]
    · rfl
    all_goals assumption

theorem exists_ofBracket (body : Text) : ∃ negated items, ofBracket body = .set negated items := by
  unfold ofBracket
  dsimp only
  generalize marks _ = all
  split <;> exact ⟨_, _, rfl⟩

/-! ## Names that fit -/

theorem fitsLater_iff {fits : Text → Bool} :
    fitsLater fits name = true ↔ ∃ a b, name = a ++ b ∧ fits b = true := by
  induction name with
  | nil => simp [fitsLater]
  | cons c name ih =>
    rw [fitsLater, Bool.or_eq_true, ih]
    constructor
    · rintro (h | ⟨a, b, rfl, h⟩)
      · exact ⟨[], c :: name, rfl, h⟩
      · exact ⟨c :: a, b, rfl, h⟩
    · rintro ⟨a, b, hname, h⟩
      cases a with
      | nil => exact .inl (by rwa [hname])
      | cons d a => exact .inr ⟨a, b, (List.cons.inj hname).2, h⟩

theorem fitsParts_cons {part : Part} (h : part ≠ .any) {parts : List Part} :
    fitsParts (part :: parts) name = true ↔
      ∃ c rest, name = c :: rest ∧ part.has c = true ∧ fitsParts parts rest = true := by
  cases name with
  | nil | cons c rest => cases part <;> simp [fitsParts] at h ⊢

theorem fitsParts_append {front later : List Part} :
    fitsParts (front ++ later) name = true ↔
      ∃ a b, name = a ++ b ∧ fitsParts front a = true ∧ fitsParts later b = true := by
  induction front generalizing name with
  | nil => simp [fitsParts]
  | cons part front ih =>
    rw [cons_append]
    by_cases hany : part = .any
    · subst hany
      simp only [fitsParts, fitsLater_iff, ih]
      constructor
      · rintro ⟨a, _, rfl, b, c, rfl, hb, hc⟩
        exact ⟨a ++ b, c, (append_assoc a b c).symm, ⟨a, b, rfl, hb⟩, hc⟩
      · rintro ⟨_, c, rfl, ⟨a, b, rfl, hb⟩, hc⟩
        exact ⟨a, b ++ c, append_assoc a b c, b, c, rfl, hb, hc⟩
    · simp only [fitsParts_cons hany, ih]
      constructor
      · rintro ⟨c, _, rfl, hc, a, b, rfl, ha, hb⟩
        exact ⟨c :: a, b, rfl, ⟨c, a, rfl, hc, ha⟩, hb⟩
      · rintro ⟨_, b, rfl, ⟨c, a, rfl, hc, ha⟩, hb⟩
        exact ⟨c, a ++ b, rfl, hc, a, b, rfl, ha, hb⟩

theorem fits_self {path : Text} (h : '[' ∉ path) : fits path path = true := by
  unfold fits
  induction path using parts.induct with
  | case1 => simp [parts, fitsParts]
  | case2 rest ih =>
    have hrest := ih (fun hmem => h (mem_cons_of_mem _ hmem))
    rw [parts, fitsParts, fitsLater_iff]
    exact ⟨['*'], rest, rfl, hrest⟩
  | case3 rest ih =>
    have hrest := ih (fun hmem => h (mem_cons_of_mem _ hmem))
    rw [parts, fitsParts_cons (by simp)]
    exact ⟨'?', rest, rfl, rfl, hrest⟩
  | case4 rest hnone ih => simp at h
  | case5 rest stop hstop ih => simp at h
  | case6 c rest hany hone hbracket ih =>
    have hrest := ih (fun hmem => h (mem_cons_of_mem _ hmem))
    rw [parts, fitsParts_cons (by simp)]
    · exact ⟨c, rest, rfl, by simp [Part.has], hrest⟩
    all_goals assumption

/-! ## Slashes -/

/-- That no bracket in a pattern can close behind a slash. -/
def IsLocal (pattern : Text) : Prop :=
  ∀ a b c, pattern = a ++ '[' :: b ++ '/' :: c → ']' ∉ c

theorem IsLocal.of_suffix (front : Text) (h : IsLocal (front ++ later)) : IsLocal later :=
  fun a b c hlater => h (front ++ a) b c (by simp [hlater])

theorem IsLocal.of_prefix {front : Text} (h : IsLocal (front ++ later)) : IsLocal front :=
  fun a b c hfront hmem => h a b (c ++ later) (by simp [hfront]) (mem_append_left later hmem)

theorem IsLocal.tail {c : Char} (h : IsLocal (c :: pattern)) : IsLocal pattern :=
  IsLocal.of_suffix [c] h

/-- No bracket closes behind a slash if none opens before the last one. -/
theorem isLocal_append {front later : Text} (hfront : '[' ∉ front) (hlater : '/' ∉ later) :
    IsLocal (front ++ later) := by
  intro a b c heq
  rw [append_assoc, cons_append] at heq
  rcases append_eq_append_iff.1 heq with ⟨x, rfl, hx⟩ | ⟨x, rfl, hx⟩
  · exact absurd (by simp [hx]) hlater
  · cases x with
    | nil => exact absurd (by simp [← show _ = later from hx]) hlater
    | cons d x =>
      obtain rfl : '[' = d := (List.cons.inj hx).1
      exact absurd (by simp) hfront

/-- All slashes of such a pattern stand for themselves. -/
theorem count_parts (h : IsLocal pattern) :
    (parts pattern).count (.char '/') = pattern.count '/' := by
  induction pattern using parts.induct with
  | case1 => simp [parts]
  | case2 rest ih | case3 rest ih => simp [parts, ih h.tail]
  | case4 rest hnone ih => simp [parts_unclosed hnone, ih h.tail]
  | case5 rest stop hstop ih =>
    obtain ⟨hlt, hclosed⟩ := List.getElem?_eq_some_iff.1 (getElem?_of_closing? hstop)
    have hrest : rest = rest.take stop ++ ']' :: rest.drop (stop + 1) := by
      rw [← hclosed, getElem_cons_drop, take_append_drop]
    have hbody : '/' ∉ rest.take stop := by
      intro hmem
      obtain ⟨b, c, hcut⟩ := append_of_mem hmem
      rw [hcut, append_assoc] at hrest
      exact h [] b (c ++ ']' :: rest.drop (stop + 1)) (congrArg ('[' :: ·) hrest) (by simp)
    have hlater : IsLocal (rest.drop (stop + 1)) :=
      IsLocal.of_suffix ('[' :: rest.take (stop + 1)) (by simpa using h)
    obtain ⟨negated, items, hset⟩ := exists_ofBracket (rest.take stop)
    rw [parts_bracket hstop, hset, count_cons, ih hlater]
    conv_rhs => rw [hrest]
    simp [count_eq_zero_of_not_mem hbody]
  | case6 c rest hany hone hbracket ih =>
    rw [parts, count_cons, count_cons, ih h.tail]
    · simp
    all_goals assumption

private theorem count_le_of_fitsParts {parts : List Part} (h : fitsParts parts name = true) :
    parts.count (.char '/') ≤ name.count '/' := by
  induction parts generalizing name with
  | nil => simp
  | cons part parts ih =>
    by_cases hany : part = .any
    · subst hany
      rw [fitsParts, fitsLater_iff] at h
      obtain ⟨a, b, rfl, hb⟩ := h
      rw [count_cons_of_ne (by simp), count_append]
      exact (ih hb).trans (Nat.le_add_left _ _)
    · obtain ⟨c, rest, rfl, hc, hrest⟩ := (fitsParts_cons hany).1 h
      rw [count_cons, count_cons]
      refine Nat.add_le_add (ih hrest) ?_
      by_cases hslash : part = .char '/'
      · subst hslash
        obtain rfl : c = '/' := by simpa [Part.has] using hc
        rfl
      · simp [hslash]

/-- A text is cut behind its last slash in one way only. -/
theorem append_inj_of_slash {a b a' b' : Text} (h : a ++ b = a' ++ b')
    (ha : a.getLast? = some '/') (ha' : a'.getLast? = some '/') (hb : '/' ∉ b) (hb' : '/' ∉ b') :
    a = a' ∧ b = b' := by
  have hnil : ∀ {front rest later : Text}, (front ++ rest).getLast? = some '/' →
      '/' ∉ rest ++ later → rest = [] := by
    intro front rest later hlast hnot
    by_contra hne
    rw [List.getLast?_append_of_ne_nil _ hne] at hlast
    exact hnot (mem_append_left later (mem_of_getLast? hlast))
  rcases append_eq_append_iff.1 h with ⟨x, rfl, rfl⟩ | ⟨x, rfl, rfl⟩
  · obtain rfl := hnil ha' hb
    exact ⟨(append_nil a).symm, rfl⟩
  · obtain rfl := hnil ha hb'
    exact ⟨append_nil a', rfl⟩

theorem fits_append_iff {path : Text} (hpath : path.getLast? = some '/')
    (hlocal : IsLocal (path ++ pattern)) (hname : '/' ∉ name) :
    fits (path ++ pattern) (path ++ name) = true ↔
      fits path path = true ∧ fits pattern name = true := by
  obtain ⟨front, hfront⟩ := List.getLast?_eq_some_iff.1 hpath
  have hslash : parts path = parts front ++ [Part.char '/'] := by
    rw [hfront, parts_append (by simp)]
    simp [parts]
  have hparts : parts (path ++ pattern) = parts path ++ parts pattern := by
    refine parts_append fun hmem => ?_
    obtain ⟨a, b, hcut⟩ := append_of_mem (show '[' ∈ front by simpa [hfront] using hmem)
    exact hlocal a b pattern (by simp [hfront, hcut])
  unfold fits
  rw [hparts, fitsParts_append]
  constructor
  · rintro ⟨a, b, heq, ha, hb⟩
    -- There are as many slashes in the path as its parts ask for, so none is left.
    have hcount : path.count '/' ≤ a.count '/' := by
      rw [← count_parts hlocal.of_prefix]
      exact count_le_of_fitsParts ha
    have hrest : '/' ∉ b := by
      have htotal := congrArg (List.count '/') heq
      rw [count_append, count_append, count_eq_zero_of_not_mem hname] at htotal
      exact count_eq_zero.1 (by omega)
    have hlast : a.getLast? = some '/' := by
      rw [hslash, fitsParts_append] at ha
      obtain ⟨a, c, rfl, -, hc⟩ := ha
      obtain ⟨d, rest, rfl, hd, hrest⟩ := (fitsParts_cons (by simp)).1 hc
      obtain rfl : d = '/' := by simpa [Part.has] using hd
      obtain rfl : rest = [] := by simpa [fitsParts] using hrest
      exact List.getLast?_concat
    obtain ⟨rfl, rfl⟩ := append_inj_of_slash heq hpath hlast hname hrest
    exact ⟨ha, hb⟩
  · rintro ⟨hself, hfits⟩
    exact ⟨path, name, rfl, hself, hfits⟩

end Wildcard

end CommandShell

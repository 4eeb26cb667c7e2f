import CommandShell.Proofs.Utility.Filters

/-!
# Columns in ranges

What `cut` leaves of a line are the characters in those columns that lie in one of the ranges as
they are written, each once and in order. On the way there the ranges are cut off at the longest
line, which may leave some of them without columns, put in order, and joined where they overlap.
A range that cannot be read is complained about before anything is written.
-/

namespace CommandShell

open List

/-! ## Ranges in order -/

variable {r : Range} {s : Text} {n : Int}

namespace Range

def Has (r : Range) (column : Int) : Prop := r.first ≤ column ∧ column ≤ r.last

instance (r : Range) (column : Int) : Decidable (r.Has column) :=
  inferInstanceAs (Decidable (_ ∧ _))

def Before (r s : Range) : Prop := r.last < s.first

theorem le_iff {s : Range} :
    r.le s = true ↔ r.first < s.first ∨ r.first = s.first ∧ r.last ≤ s.last := by
  simp [le]

theorem pairwise_mergeSort (ranges : List Range) :
    (ranges.mergeSort le).Pairwise fun r s => r.first ≤ s.first := by
  have hsorted : (ranges.mergeSort le).Pairwise fun r s => r.le s = true := by
    apply List.pairwise_mergeSort
    · intro r s t hrs hst
      rw [le_iff] at hrs hst ⊢
      omega
    · intro r s
      rw [Bool.or_eq_true, le_iff, le_iff]
      omega
  refine hsorted.imp fun {r s} hle => ?_
  rw [le_iff] at hle
  omega

section MergeFrom

variable {current : Range} {later : List Range}

theorem pairwise_grown {next : Range} {last : Int}
    (sorted : (current :: next :: later).Pairwise fun r s => r.first ≤ s.first) :
    (⟨current.first, last⟩ :: later : List Range).Pairwise fun r s => r.first ≤ s.first := by
  rw [pairwise_cons, pairwise_cons] at sorted
  obtain ⟨hcurrent, -, hlater⟩ := sorted
  exact pairwise_cons.2 ⟨fun r hr => hcurrent r (mem_cons_of_mem _ hr), hlater⟩

private theorem first_le_of_mem_mergeFrom
    (sorted : (current :: later).Pairwise fun r s => r.first ≤ s.first) :
    ∀ r ∈ mergeFrom current later, current.first ≤ r.first := by
  fun_induction mergeFrom current later with
  | case1 current => simp
  | case2 current next later hover ih => exact ih (pairwise_grown sorted)
  | case3 current next later hover ih =>
    intro r hr
    rcases mem_cons.1 hr with rfl | hr
    · exact le_rfl
    · exact (rel_of_pairwise_cons sorted mem_cons_self).trans
        (ih sorted.of_cons r hr)

private theorem mergeFrom_has (sorted : (current :: later).Pairwise fun r s => r.first ≤ s.first)
    (column : Int) :
    (∃ r ∈ mergeFrom current later, r.Has column) ↔ ∃ r ∈ current :: later, r.Has column := by
  fun_induction mergeFrom current later with
  | case1 current => exact Iff.rfl
  | case2 current next later hover ih =>
    -- The grown range has the columns of both: the second starts where the first has not ended.
    have hfirst : current.first ≤ next.first :=
      rel_of_pairwise_cons sorted mem_cons_self
    have hgrown : Has ⟨current.first, max current.last next.last⟩ column ↔
        current.Has column ∨ next.Has column := by
      unfold Has
      dsimp only
      omega
    rw [ih (pairwise_grown sorted)]
    simp only [mem_cons, exists_eq_or_imp, hgrown, or_assoc]
  | case3 current next later hover ih =>
    simp only [mem_cons, exists_eq_or_imp, ih sorted.of_cons]

private theorem pairwise_mergeFrom
    (sorted : (current :: later).Pairwise fun r s => r.first ≤ s.first) :
    (mergeFrom current later).Pairwise fun r s => r.first ≤ s.first ∧ r.Before s := by
  fun_induction mergeFrom current later with
  | case1 current => exact pairwise_singleton _ _
  | case2 current next later hover ih => exact ih (pairwise_grown sorted)
  | case3 current next later hover ih =>
    refine pairwise_cons.2 ⟨fun r hr => ?_, ih sorted.of_cons⟩
    have hnext : current.first ≤ next.first := rel_of_pairwise_cons sorted mem_cons_self
    have hfirst := first_le_of_mem_mergeFrom sorted.of_cons r hr
    unfold Before
    omega

end MergeFrom

theorem merge_has (ranges : List Range) (column : Int) :
    (∃ r ∈ merge ranges, r.Has column) ↔ ∃ r ∈ ranges, r.Has column := by
  have hsorted := pairwise_mergeSort ranges
  have hmem : ∀ r, r ∈ ranges.mergeSort le ↔ r ∈ ranges :=
    fun _ => (mergeSort_perm ranges le).mem_iff
  unfold merge
  cases hsort : ranges.mergeSort le with
  | nil => simp [← hmem, hsort]
  | cons first later =>
    rw [hsort] at hsorted
    rw [mergeFrom_has hsorted, ← hsort]
    simp only [hmem]

theorem pairwise_merge (ranges : List Range) :
    (merge ranges).Pairwise fun r s => r.first ≤ s.first ∧ r.Before s := by
  have hsorted := pairwise_mergeSort ranges
  unfold merge
  cases hsort : ranges.mergeSort le with
  | nil => exact .nil
  | cons first later =>
    rw [hsort] at hsorted
    exact pairwise_mergeFrom hsorted

/-- Merged ranges come in the order of their first columns, no two of them have a column in common,
and together they have the columns of the ranges that are merged. -/
theorem merge_partitions (ranges : List Range) :
    (merge ranges).Pairwise (fun r s => r.first ≤ s.first) ∧
    (merge ranges).Pairwise (fun r s => ∀ column, ¬ (r.Has column ∧ s.Has column)) ∧
    ∀ column, (∃ r ∈ merge ranges, r.Has column) ↔ ∃ r ∈ ranges, r.Has column := by
  refine ⟨(pairwise_merge ranges).imp And.left, ?_, merge_has ranges⟩
  refine (pairwise_merge ranges).imp fun {r s} hapart column hboth => ?_
  obtain ⟨⟨-, hlast⟩, hfirst, -⟩ := hboth
  have hbefore : r.last < s.first := hapart.2
  omega

end Range

/-! ## The chosen columns of a line -/

namespace Text

/-- The characters of a text in the columns that are chosen; the first one is in column `start`. -/
def pick (chosen : Nat → Bool) (start : Nat) (s : Text) : Text :=
  ((s.zipIdx start).filter fun (_, column) => chosen column).map (·.1)

section Pick

variable {chosen chosen' : Nat → Bool} {start : Nat}

@[simp] theorem pick_nil : pick chosen start [] = [] := rfl

theorem pick_cons (c : Char) (s : Text) : pick chosen start (c :: s) =
    (if chosen start then [c] else []) ++ pick chosen (start + 1) s := by
  unfold pick
  rw [zipIdx_cons, filter_cons]
  split_ifs <;> rfl

theorem pick_congr
    (h : ∀ column, start ≤ column → column < start + s.length → chosen column = chosen' column) :
    pick chosen start s = pick chosen' start s := by
  induction s generalizing start with
  | nil => rfl
  | cons c s ih =>
    rw [length_cons] at h
    rw [pick_cons, pick_cons, h start le_rfl (by omega),
      ih fun column hle hlt => h column (by omega) (by omega)]

theorem pick_eq_nil (h : ∀ column, start ≤ column → chosen column = false) (s : Text) :
    pick chosen start s = [] := by
  induction s generalizing start with
  | nil => rfl
  | cons c s ih =>
    rw [pick_cons, h start le_rfl, ih fun column hle => h column (by omega)]
    rfl

theorem pick_or (h : ∀ j k, chosen j = true → chosen' k = true → j < k) (s : Text) :
    pick (fun column => chosen column || chosen' column) start s =
      pick chosen start s ++ pick chosen' start s := by
  induction s generalizing start with
  | nil => rfl
  | cons c s ih =>
    rw [pick_cons, pick_cons, pick_cons, ih]
    by_cases hlater : chosen' start = true
    · have hnone : ∀ column, start ≤ column → chosen column = false := fun column hle => by
        by_contra hchosen
        have hlt := h column start (by simpa using hchosen) hlater
        omega
      rw [hnone start le_rfl, hlater, pick_eq_nil fun column hle => hnone column (by omega)]
      rfl
    · simp [hlater]

end Pick

private theorem pick_has (r : Range) (start : Nat) (s : Text) :
    pick (fun column => r.Has column) start s =
      (s.take (r.last - start + 1).toNat).drop (r.first - start).toNat := by
  induction s generalizing start with
  | nil => simp
  | cons c s ih =>
    rw [pick_cons, ih]
    by_cases hlast : r.last < start
    · have hhas : ¬ r.Has start := fun h => absurd h.2 (by omega)
      have htake : (r.last - start + 1).toNat = 0 := by omega
      have htake' : (r.last - (start + 1 : Nat) + 1).toNat = 0 := by omega
      rw [htake, htake']
      simp [hhas]
    · obtain ⟨width, hwidth⟩ : ∃ width : Nat, (r.last - start + 1).toNat = width + 1 :=
        ⟨(r.last - start).toNat, by omega⟩
      have hwidth' : (r.last - (start + 1 : Nat) + 1).toNat = width := by omega
      rw [hwidth, hwidth', take_succ_cons]
      by_cases hfirst : start < r.first
      · obtain ⟨gap, hgap⟩ : ∃ gap : Nat, (r.first - start).toNat = gap + 1 :=
          ⟨(r.first - start - 1).toNat, by omega⟩
        have hhas : ¬ r.Has start := fun h => absurd h.1 (by omega)
        have hgap' : (r.first - (start + 1 : Nat)).toNat = gap := by omega
        rw [hgap, hgap']
        simp [hhas]
      · have hhas : r.Has start := ⟨by omega, by omega⟩
        have hgap : (r.first - start).toNat = 0 := by omega
        have hgap' : (r.first - (start + 1 : Nat)).toNat = 0 := by omega
        rw [hgap, hgap']
        simp [hhas]

end Text

namespace Cut

private theorem slice_eq_pick (line : Text) (r : Range) :
    slice line r = Text.pick (fun column => r.Has column) 1 line := by
  rw [Text.pick_has, slice]
  congr 2
  omega

private theorem slices_eq_pick {ranges : List Range} (apart : ranges.Pairwise Range.Before)
    (line : Text) : slices ranges line =
      Text.pick (fun column => ranges.any fun r => r.Has column) 1 line := by
  unfold slices
  induction ranges with
  | nil => exact (Text.pick_eq_nil (fun _ _ => rfl) line).symm
  | cons r ranges ih =>
    obtain ⟨hr, hranges⟩ := pairwise_cons.1 apart
    rw [flatMap_cons, ih hranges, slice_eq_pick, ← Text.pick_or]
    · rfl
    · intro j k hj hk
      obtain ⟨s, hs, hk⟩ := any_eq_true.1 hk
      have hbefore : r.last < s.first := hr s hs
      have hj := (of_decide_eq_true hj).2
      have hk := (of_decide_eq_true hk).1
      omega

theorem slices_merge (ranges : List Range) (line : Text) :
    slices (Range.merge ranges) line =
      Text.pick (fun column => ranges.any fun r => r.Has column) 1 line := by
  rw [slices_eq_pick ((Range.pairwise_merge ranges).imp And.right)]
  congr 1
  funext column
  rw [Bool.eq_iff_iff]
  simpa using Range.merge_has ranges column

end Cut

/-! ## Numbers -/

theorem Digit.isSpace_of_isDecimal {c : Char} (h : isDecimal c = true) :
    Text.isSpace c = false := by
  have hcode : ∀ nought ∈ zeros, ∀ d < 10, Text.isSpace (Char.ofNat (nought + d)) = false := by
    decide
  obtain ⟨nought, hfind⟩ : ∃ nought, zeros.find? (fun nought =>
      nought ≤ c.toNat && c.toNat < nought + 10) = some nought := by
    simpa [isDecimal, value?, Option.isSome_iff_exists] using h
  have hmem := List.mem_of_find?_eq_some hfind
  have hrange := List.find?_some hfind
  simp only [Bool.and_eq_true, decide_eq_true_eq] at hrange
  have hspace := hcode nought hmem (c.toNat - nought) (by omega)
  rwa [Nat.add_sub_cancel' hrange.1, Char.ofNat_toNat] at hspace

namespace Number

private theorem of_digits?_eq_some {digits : List Nat} (h : digits? s = some digits) :
    s ≠ [] ∧ ∀ c ∈ s, c = '_' ∨ Digit.isDecimal c = true := by
  have hdigit : ∀ {c : Char} {d : Nat}, Digit.value? c = some d → Digit.isDecimal c = true := by
    intro c d hd
    rw [Digit.isDecimal, hd]
    rfl
  fun_induction digits? s generalizing digits with
  | case1 => cases h
  | case2 c =>
    obtain ⟨d, hd, -⟩ := Option.map_eq_some_iff.1 h
    simpa using Or.inr (hdigit hd)
  | case3 c rest ih | case4 c rest _ _ ih =>
    obtain ⟨d, hd, hrest⟩ := Option.bind_eq_some_iff.1 h
    obtain ⟨ds, hds, -⟩ := Option.bind_eq_some_iff.1 hrest
    simpa [hdigit hd] using (ih hds).2

private theorem eq_append_of_splitSign {rest : Text} {negative : Bool}
    (h : splitSign s = (negative, rest)) :
    ∃ sign, s = sign ++ rest ∧ (sign = [] ∨ sign = ['+'] ∨ sign = ['-'] ∧ negative = true) := by
  unfold splitSign at h
  split at h <;> cases h
  · exact ⟨['+'], rfl, .inr (.inl rfl)⟩
  · exact ⟨['-'], rfl, .inr (.inr ⟨rfl, rfl⟩)⟩
  · exact ⟨[], rfl, .inl rfl⟩

end Number

/-- A number is made of digits and underscores, but for a sign and white space around it; with a
minus it is not positive. -/
theorem Int.of_ofText?_eq_some (h : Int.ofText? s = some n) :
    ∃ before sign digits after, s = before ++ (sign ++ digits) ++ after ∧
      (∀ c ∈ before, Number.isSpace c = true) ∧ (∀ c ∈ after, Number.isSpace c = true) ∧
      (sign = [] ∨ sign = ['+'] ∨ sign = ['-'] ∧ n ≤ 0) ∧
      digits ≠ [] ∧ ∀ c ∈ digits, c = '_' ∨ Digit.isDecimal c = true := by
  obtain ⟨before, after, hs, hbefore, hafter⟩ := Text.exists_append_dropEnds Number.isSpace s
  change s = before ++ Number.trim s ++ after at hs
  unfold Int.ofText? at h
  rcases hsplit : Number.splitSign (Number.trim s) with ⟨negative, rest⟩
  obtain ⟨sign, htrim, hsign⟩ := Number.eq_append_of_splitSign hsplit
  rw [hsplit] at h
  obtain ⟨values, hvalues, hn⟩ := Option.bind_eq_some_iff.1 h
  obtain ⟨hne, hchars⟩ := Number.of_digits?_eq_some hvalues
  rw [htrim] at hs
  refine ⟨before, sign, rest, after, hs, hbefore, hafter, ?_, hne, hchars⟩
  refine hsign.imp_right (Or.imp_right fun hminus => ⟨hminus.1, ?_⟩)
  rw [hminus.2] at hn
  split at hn
  · obtain rfl := Option.some.inj hn
    exact Int.neg_nonpos_of_nonneg (Int.natCast_nonneg _)
  · cases hn

theorem Int.exists_not_isSpace (h : Int.ofText? s = some n) : ∃ c ∈ s, Text.isSpace c = false := by
  obtain ⟨before, sign, digits, after, rfl, -, -, -, hne, hdigits⟩ := of_ofText?_eq_some h
  obtain ⟨c, rest, rfl⟩ := exists_cons_of_ne_nil hne
  refine ⟨c, by simp, ?_⟩
  rcases hdigits c mem_cons_self with rfl | hc
  · rfl
  · exact Digit.isSpace_of_isDecimal hc

theorem Int.dash_not_mem (h : Int.ofText? s = some n) (hn : 1 ≤ n) : '-' ∉ s := by
  obtain ⟨before, sign, digits, after, rfl, hbefore, hafter, hsign, -, hdigits⟩ :=
    of_ofText?_eq_some h
  have hsign' : '-' ∉ sign := by
    rcases hsign with rfl | rfl | ⟨-, hneg⟩
    · exact not_mem_nil
    · decide
    · omega
  have hspace : ∀ part : Text, (∀ c ∈ part, Number.isSpace c = true) → '-' ∉ part :=
    fun part hpart hdash => absurd (hpart '-' hdash) (by decide)
  have hdigits' : '-' ∉ digits := fun hdash => absurd (hdigits '-' hdash) (by decide)
  simp [hspace before hbefore, hspace after hafter, hsign', hdigits']

/-! ## Ranges as they are written -/

namespace Range

/-- An end of a range as it is written: left out, or a number. -/
inductive End : Text → Option Int → Prop
  | leftOut : End [] none
  | number {s : Text} {n : Int} (h : Int.ofText? s = some n) : End s (some n)

/-- How a range is written, and the ends that it has: as a positive number, or as two ends with
the only dash between them. The first end is positive, and the last does not come before it. -/
inductive Written : Text → Option Int → Option Int → Prop
  | column {s : Text} {n : Int} (number : Int.ofText? s = some n) (positive : 1 ≤ n) :
      Written s (some n) (some n)
  | ends {a b : Text} {first? last? : Option Int} (ha : '-' ∉ a) (hb : '-' ∉ b)
      (first : End a first?) (last : End b last?) (positive : ∀ m ∈ first?, 1 ≤ m)
      (increasing : ∀ m ∈ first?, ∀ n ∈ last?, m ≤ n) : Written (a ++ '-' :: b) first? last?

/-- Whether a column lies between two ends. A first end that is left out stands for the first
column, and a last one for the end of the line. -/
def Between (first? last? : Option Int) (column : Nat) : Prop :=
  (∀ m ∈ first?, m ≤ column) ∧ ∀ n ∈ last?, (column : Int) ≤ n

def Holds (s : Text) (column : Nat) : Prop :=
  ∃ first? last?, Written s first? last? ∧ Between first? last? column

variable {a b : Text} {cause : Complaint} {columns : Int}

private theorem readEnd_eq_ok {side : Text} {end? : Option Int} :
    readEnd a b side = .ok end? ↔ End side end? := by
  unfold readEnd
  constructor
  · intro h
    cases side with
    | nil =>
      cases h
      exact .leftOut
    | cons c rest =>
      rw [if_neg (by simp)] at h
      split at h <;> cases h
      next hn => exact .number hn
  · intro h
    cases h with
    | leftOut => rfl
    | number hn =>
      have hne : side.isEmpty = false := by
        cases side with
        | nil => cases hn
        | cons c rest => rfl
      rw [hne, hn]
      rfl

theorem readEnd_eq_error {side : Text} (h : readEnd a b side = .error cause) :
    cause = .cutBadEnds a b := by
  unfold readEnd at h
  split_ifs at h
  · cases h
  · split at h <;> cases h
    rfl

/-- A range with two ends is read if both can be read and fit together, and its last column is
cut off at the last column there is. -/
theorem ofEnds_eq_ok :
    ofEnds a b columns = .ok r ↔ ∃ first? last?, End a first? ∧ End b last? ∧
      (∀ m ∈ first?, 1 ≤ m) ∧ (∀ m ∈ first?, ∀ n ∈ last?, m ≤ n) ∧
      r = ⟨first?.getD 1, (last?.map (min · columns)).getD columns⟩ := by
  simp only [← readEnd_eq_ok (a := a) (b := b)]
  unfold ofEnds
  rcases readEnd a b a with cause | first?
  · simp [bind, Except.bind]
  rcases readEnd a b b with cause | last?
  · simp [bind, Except.bind]
  simp only [bind, Except.bind, Except.ok.injEq, exists_and_left, exists_eq_left']
  rcases first? with _ | m
  · cases last? <;> simpa [pure, Except.pure] using eq_comm
  by_cases hm : m < 1
  · rcases last? with _ | n
    · simp [hm, Int.not_le.2 hm]
    · by_cases hn : n < m <;> simp [hm, hn, Int.not_le.2 hm]
  rcases last? with _ | n
  · simpa [hm, Int.not_lt.1 hm, pure, Except.pure] using eq_comm
  by_cases hn : n < m
  · simp [hn, Int.not_le.2 hn]
  · simpa [hm, hn, Int.not_lt.1 hm, Int.not_lt.1 hn, pure, Except.pure] using eq_comm

theorem kind_of_ofEnds_eq_error (h : ofEnds a b columns = .error cause) :
    cause.report.kind = .command := by
  unfold ofEnds at h
  cases hfirst : readEnd a b a with
  | error cause' =>
    rw [hfirst] at h
    cases h
    rw [readEnd_eq_error hfirst]
    rfl
  | ok first? =>
    cases hlast : readEnd a b b with
    | error cause' =>
      rw [hfirst, hlast] at h
      cases h
      rw [readEnd_eq_error hlast]
      rfl
    | ok last? =>
      rw [hfirst, hlast] at h
      dsimp only [bind, Except.bind] at h
      split_ifs at h <;> cases h <;> rfl

theorem ofText_of_written {first? last? : Option Int} (h : Written s first? last?) (columns : Nat) :
    ∃ r, ofText s columns = .ok r ∧
      ∀ column : Nat, 1 ≤ column → column ≤ columns →
        (r.Has column ↔ Between first? last? column) := by
  have htrim : Text.trim s ≠ [] := by
    obtain ⟨c, hc, hspace⟩ : ∃ c ∈ s, Text.isSpace c = false := by
      cases h with
      | column number positive => exact Int.exists_not_isSpace number
      | ends => exact ⟨'-', by simp, by decide⟩
    obtain ⟨before, after, hs, hbefore, hafter⟩ := Text.exists_append_trim s
    intro hnil
    rw [hs, hnil, append_nil, mem_append] at hc
    exact Bool.false_ne_true (hspace.symm.trans (hc.elim (hbefore c) (hafter c)))
  unfold ofText
  rw [if_neg (by simpa using htrim)]
  cases h with
  | @column _ n number positive =>
    have hsplit : Text.splitAt '-' s = [s] :=
      Text.splitAt_eq_iff.2 ⟨by simpa using Int.dash_not_mem number positive, rfl⟩
    refine ⟨⟨n, n⟩, ?_, fun column _ _ => by simp [Has, Between]⟩
    rw [hsplit]
    dsimp only [ofColumn]
    rw [number]
    dsimp only
    rw [if_neg (by omega)]
    rfl
  | @ends a b _ _ ha hb first last positive increasing =>
    have hsplit : Text.splitAt '-' (a ++ '-' :: b) = [a, b] :=
      Text.splitAt_eq_iff.2 ⟨by simp [ha, hb], by simp [Text.join]⟩
    rw [hsplit]
    refine ⟨_, ofEnds_eq_ok.2 ⟨_, _, first, last, positive, increasing, rfl⟩, ?_⟩
    intro column hone hcolumns
    rcases first? with _ | m <;> rcases last? with _ | n <;> simp [Has, Between] <;> omega

theorem exists_written (h : ofText s columns = .ok r) : ∃ first? last?, Written s first? last? := by
  unfold ofText at h
  split_ifs at h
  split at h
  · next column hsplit =>
      obtain rfl : column = s := (Text.splitAt_eq_iff.1 hsplit).2
      unfold ofColumn at h
      split at h
      · cases h
      · next n hn =>
          split_ifs at h with hlow
          exact ⟨_, _, .column hn (by omega)⟩
  · next a b hsplit =>
      obtain ⟨hdash, hjoin⟩ := Text.splitAt_eq_iff.1 hsplit
      obtain rfl : a ++ '-' :: b = s := by simpa [Text.join] using hjoin
      obtain ⟨first?, last?, first, last, positive, increasing, -⟩ := ofEnds_eq_ok.1 h
      exact ⟨first?, last?, .ends (hdash a (by simp)) (hdash b (by simp)) first last positive
        increasing⟩
  · cases h

theorem kind_of_ofText_eq_error (h : ofText s columns = .error cause) :
    cause.report.kind = .command ∨ cause.report.kind = .unknownFlagValue := by
  unfold ofText at h
  split_ifs at h
  · cases h
    exact .inr rfl
  · left
    split at h
    · unfold ofColumn at h
      split at h
      · cases h
        rfl
      · split_ifs at h <;> cases h
        rfl
    · exact kind_of_ofEnds_eq_error h
    · cases h
      rfl

/-- That a range is read makes it one that is written well, and it has the columns that it is
written to have. -/
theorem has_iff_holds {columns column : Nat} (h : ofText s columns = .ok r) (hone : 1 ≤ column)
    (hcolumns : column ≤ columns) : r.Has column ↔ Holds s column := by
  have hbetween : ∀ first? last?, Written s first? last? →
      (r.Has column ↔ Between first? last? column) := by
    intro first? last? hwritten
    obtain ⟨r', hr', hhas⟩ := ofText_of_written hwritten columns
    rw [h] at hr'
    cases hr'
    exact hhas column hone hcolumns
  constructor
  · intro hhas
    obtain ⟨first?, last?, hwritten⟩ := exists_written h
    exact ⟨first?, last?, hwritten, (hbetween first? last? hwritten).1 hhas⟩
  · rintro ⟨first?, last?, hwritten, hcolumn⟩
    exact (hbetween first? last? hwritten).2 hcolumn

theorem mapM_ofText_of_written {texts : List Text}
    (h : ∀ s ∈ texts, ∃ first? last?, Written s first? last?) (columns : Nat) :
    ∃ ranges, texts.mapM (ofText · columns) = .ok ranges ∧
      ∀ column : Nat, 1 ≤ column → column ≤ columns →
        ((∃ r ∈ ranges, r.Has column) ↔ ∃ s ∈ texts, Holds s column) := by
  induction texts with
  | nil => exact ⟨[], rfl, by simp⟩
  | cons s texts ih =>
    obtain ⟨first?, last?, hwritten⟩ := h s mem_cons_self
    obtain ⟨r, hr, -⟩ := ofText_of_written hwritten columns
    obtain ⟨ranges, hranges, hhas⟩ := ih fun t ht => h t (mem_cons_of_mem s ht)
    refine ⟨r :: ranges, ?_, fun column hone hcolumns => ?_⟩
    · rw [mapM_cons, hr, hranges]
      rfl
    · simp only [mem_cons, exists_eq_or_imp, hhas column hone hcolumns,
        has_iff_holds hr hone hcolumns]

theorem mapM_ofText_of_not_written {texts : List Text}
    (h : ¬ ∀ s ∈ texts, ∃ first? last?, Written s first? last?) (columns : Nat) :
    ∃ cause, texts.mapM (ofText · columns) = .error cause ∧
      (cause.report.kind = .command ∨ cause.report.kind = .unknownFlagValue) := by
  induction texts with
  | nil => exact absurd (fun _ hmem => nomatch hmem) h
  | cons s texts ih =>
    rw [mapM_cons]
    cases hs : ofText s columns with
    | error cause => exact ⟨cause, rfl, kind_of_ofText_eq_error hs⟩
    | ok r =>
      have hlater : ¬ ∀ t ∈ texts, ∃ first? last?, Written t first? last? := fun hall =>
        h (forall_mem_cons.2 ⟨exists_written hs, hall⟩)
      obtain ⟨cause, hcause, hkind⟩ := ih hlater
      refine ⟨cause, ?_, hkind⟩
      rw [hcause]
      rfl

end Range

/-! ## What `cut` writes -/

namespace Cut

open CommandShell.Action

private theorem on_readRange_text (columns : Int) (s : Text) (scene : Scene) :
    (readRange columns (.text s)).on scene =
      ((Range.ofText s columns).mapError .complaint, scene) := by
  unfold readRange
  dsimp only
  cases Range.ofText s columns <;> rfl

theorem on_readRanges_texts (columns : Int) (texts : List Text) (scene : Scene) :
    (readRanges columns (.list (texts.map .text))).on scene =
      ((texts.mapM (Range.ofText · columns)).mapError .complaint, scene) := by
  change ((texts.map Value.text).mapM (readRange columns)).on scene = _
  induction texts with
  | nil => rfl
  | cons s texts ih =>
    rw [map_cons, mapM_cons, mapM_cons, on_bind, on_readRange_text]
    cases Range.ofText s columns with
    | error cause => rfl
    | ok r =>
      dsimp only [Except.mapError]
      rw [on_bind, ih]
      cases texts.mapM (Range.ofText · columns) <;> rfl

private theorem length_le_columns {lines : List Text} {line : Text} (h : line ∈ lines) :
    line.length ≤ columns lines := by
  have hfold : ∀ (lines : List Text) (start : Nat),
      start ≤ lines.foldl (fun n line => max n line.length) start ∧
        ∀ line ∈ lines, line.length ≤ lines.foldl (fun n line => max n line.length) start := by
    intro lines
    induction lines with
    | nil => simp
    | cons first later ih =>
      intro start
      obtain ⟨hstart, hlater⟩ := ih (max start first.length)
      rw [foldl_cons, forall_mem_cons]
      exact ⟨by omega, by omega, hlater⟩
  exact (hfold lines 0).2 line h

section Run

variable {w : World} {files : List Text} {input : Stream} {text : Text} {texts : List Text}

open Classical in
/-- What is left of a text by ranges: of each line the columns that lie in one of them. -/
noncomputable def left (texts : List Text) (text : Text) : Text :=
  Text.join ['\n'] (((Text.lines text).map Text.withoutLineEnd).map
    (Text.pick (fun column => ∃ s ∈ texts, Range.Holds s column) 1))

private theorem writes_run_of_written (hoffers : w.Offers files input text)
    (h : ∀ s ∈ texts, ∃ first? last?, Range.Written s first? last?) :
    (Cut.run ⟨.list (texts.map .text), files⟩).Writes w input (.ok (left texts text)) := by
  obtain ⟨input', hread⟩ := reads_readLines hoffers (.list (texts.map .text))
  set lines := (Text.lines text).map Text.withoutLineEnd with hlines
  obtain ⟨ranges, hranges, hhas⟩ := Range.mapM_ofText_of_written h (columns lines)
  have hleft : Text.join ['\n'] (lines.map (slices (Range.merge ranges))) = left texts text := by
    rw [left, ← hlines]
    refine congrArg _ (map_congr_left fun line hline => ?_)
    rw [slices_merge]
    refine Text.pick_congr fun column hone hlt => ?_
    have hle := length_le_columns hline
    rw [Bool.eq_iff_iff]
    simpa using hhas column hone (by omega)
  have hreadRanges : (readRanges (columns lines) (.list (texts.map .text))).Reads w input' ranges
      input' := by
    intro output
    rw [on_readRanges_texts, hranges]
    rfl
  rw [← hleft]
  exact hread.writes_bind (hreadRanges.writes_bind ((prints_writeLines _).writes _ _))

private theorem writes_run_of_not_written (hoffers : w.Offers files input text)
    (h : ¬ ∀ s ∈ texts, ∃ first? last?, Range.Written s first? last?) :
    ∃ cause, (cause.report.kind = .command ∨ cause.report.kind = .unknownFlagValue) ∧
      (Cut.run ⟨.list (texts.map .text), files⟩).Writes w input
        (.error (.complaint cause)) := by
  obtain ⟨input', hread⟩ := reads_readLines hoffers (.list (texts.map .text))
  obtain ⟨cause, hcause, hkind⟩ := Range.mapM_ofText_of_not_written h
    (columns ((Text.lines text).map Text.withoutLineEnd))
  refine ⟨cause, hkind, hread.writes_bind ⟨input', fun output houtput => ?_⟩⟩
  rw [on_bind, on_readRanges_texts, hcause, Except.toOption, Option.getD_none, Stream.pour_nil]
  rfl

end Run

end Cut

namespace Plan

/-- `cut` succeeds if all its ranges are written well. It then leaves of each line the characters
in those columns that lie in one of the ranges, each once and in order, and writes the lines with
line feeds between them. Otherwise it complains about a range and writes nothing. -/
theorem effect_cut {w : World} {files : List Text} {input output : Stream} {text : Text}
    (hoffers : w.Offers files input text) (houtput : output.isWritable = true)
    (texts : List Text) (help : Text) :
    let effect := (simple (.command .cut [⟨['b'], .list (texts.map .text), help⟩] files)).effect
      ⟨w, input, output⟩
    effect.world = w ∧
      (effect.result = .ok 0 ↔ ∀ s ∈ texts, ∃ first? last?, Range.Written s first? last?) ∧
      (effect.result = .ok 0 → effect.scene.output = output.pour (Cut.left texts text)) ∧
      (effect.result ≠ .ok 0 → ∃ cause, effect.result = .error (.complaint cause) ∧
        (cause.report.kind = .command ∨ cause.report.kind = .unknownFlagValue) ∧
        effect.scene.output = output) := by
  intro effect
  have hcheck : Invocation.check .cut
      ⟨some [⟨['b'], .list (texts.map .text), help⟩], some files, true⟩ w =
        .ok (.cut ⟨.list (texts.map .text), files⟩) := rfl
  by_cases h : ∀ s ∈ texts, ∃ first? last?, Range.Written s first? last?
  · obtain ⟨input', heffect⟩ : ∃ input', effect = _ := effect_of_writes hoffers.isConnected
      houtput hcheck (Cut.writes_run_of_written hoffers h)
    rw [heffect]
    exact ⟨rfl, iff_of_true rfl h, fun _ => rfl, fun hne => absurd rfl hne⟩
  · obtain ⟨cause, hkind, hwrites⟩ := Cut.writes_run_of_not_written hoffers h
    obtain ⟨input', heffect⟩ : ∃ input', effect = _ := effect_of_writes hoffers.isConnected
      houtput hcheck hwrites
    rw [heffect]
    exact ⟨rfl, iff_of_false nofun h, nofun, fun _ => ⟨cause, rfl, hkind, Stream.pour_nil _⟩⟩

/-- Ranges may overlap, come in any order, be empty or lie behind the end of all lines. -/
theorem effect_cut_overlapping :
    let texts := ["4-".toList, "-0".toList, "9".toList, "3-7".toList, "2".toList]
    let effect := (simple (.command .cut [⟨['b'], .list (texts.map .text), []⟩] [])).effect
      (.ofInput "abcde\nf\r\n".toList)
    (∀ s ∈ texts, ∃ first? last?, Range.Written s first? last?) ∧ effect.result = .ok 0 ∧
      effect.scene.output.held = "bcde\n".toList := by
  intro texts effect
  have hwritten : ∀ s ∈ texts, ∃ first? last?, Range.Written s first? last? := by
    have hread : ∀ s ∈ texts, ∃ r, Range.ofText s 5 = .ok r := by
      simp only [texts, forall_mem_cons]
      exact ⟨⟨⟨4, 5⟩, by cbv⟩, ⟨⟨1, 0⟩, by cbv⟩, ⟨⟨9, 9⟩, by cbv⟩, ⟨⟨3, 5⟩, by cbv⟩,
        ⟨⟨2, 2⟩, by cbv⟩, nofun⟩
    exact fun s hs => (hread s hs).elim fun r => Range.exists_written
  obtain ⟨-, hresult, -⟩ := effect_cut (w := ⟨.dir [], [], []⟩)
    (.input (by decide : "abcde\nf\r\n".toList ≠ [])) (rfl : Stream.empty.isWritable = true)
    texts []
  exact ⟨hwritten, hresult.2 hwritten, by cbv⟩

end Plan

end CommandShell

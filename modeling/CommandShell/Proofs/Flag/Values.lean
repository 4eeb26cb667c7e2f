import CommandShell.Flag
import CommandShell.Proofs.Text.Fields

/-!
# Values of flags

A flag whose value is a list is given its items with commas between them and white space around
them. Numbers in decimal digits, and texts without commas, are read back from such a list as they
were written. Whatever the text and the declared type, a flag that is read has a value of its type,
and the only complaint is about the value: the check of a value's kind never fails after reading.
-/

namespace CommandShell

open List

variable {c : Char} {s : Text}

/-! ## Decimal numerals -/

theorem Digit.value?_of_isDigit (h : c.isDigit = true) :
    Digit.value? c = some (c.toNat - '0'.toNat) := by
  have hrange : 0x30 ≤ c.toNat ∧ c.toNat < 0x30 + 10 := by
    obtain ⟨hle, hge⟩ := Char.isDigit_iff_toNat.mp h
    exact ⟨hle, Nat.lt_succ_of_le hge⟩
  have hfind : Digit.zeros.find? (fun nought => nought ≤ c.toNat && c.toNat < nought + 10) =
      some 0x30 :=
    find?_cons_of_pos (by simpa using hrange)
  rw [Digit.value?, hfind]
  rfl

theorem Text.isSpace_of_isDigit (h : c.isDigit = true) : Text.isSpace c = false := by
  have hrange : 48 ≤ c.toNat ∧ c.toNat ≤ 57 := Char.isDigit_iff_toNat.mp h
  simp only [Text.isSpace, Bool.or_eq_false_iff, Bool.and_eq_false_iff, decide_eq_false_iff_not]
  omega

theorem Text.isDigit_of_mem_ofNat {k : Nat} (h : c ∈ Text.ofNat k) : c.isDigit = true :=
  Nat.isDigit_of_mem_toDigits (by decide) (by decide) h

theorem Text.mem_ofInt {n : Int} (h : c ∈ Text.ofInt n) : c = '-' ∨ c.isDigit = true := by
  cases n with
  | ofNat k => exact .inr (isDigit_of_mem_ofNat h)
  | negSucc k => exact (mem_cons.mp h).imp_right isDigit_of_mem_ofNat

theorem Text.isSpace_of_mem_ofInt {n : Int} (h : c ∈ Text.ofInt n) : Text.isSpace c = false := by
  rcases mem_ofInt h with rfl | h
  · rfl
  · exact isSpace_of_isDigit h

theorem Text.comma_not_mem_ofInt (n : Int) : ',' ∉ Text.ofInt n := by
  intro h
  rcases mem_ofInt h with h | h <;> cases h

namespace Number

theorem digits?_of_isDigit (hne : s ≠ []) (h : ∀ c ∈ s, c.isDigit = true) :
    digits? s = some (s.map fun c => c.toNat - '0'.toNat) := by
  fun_induction digits? s with
  | case1 => exact absurd rfl hne
  | case2 c =>
    rw [Digit.value?_of_isDigit (h c mem_cons_self)]
    rfl
  | case3 c rest ih => cases h '_' (by simp)
  | case4 c rest hrest _ ih =>
    rw [Digit.value?_of_isDigit (h c mem_cons_self),
      ih hrest fun d hd => h d (mem_cons_of_mem c hd)]
    rfl

private theorem ofDigits_ofNat (k : Nat) : ofDigits
    ((Text.ofNat k).map fun c => c.toNat - '0'.toNat) = k := by
  rw [ofDigits, foldl_map, ← Nat.ofDigitChars_eq_foldl]
  exact Nat.ofDigitChars_toDigits (by decide) (by decide)

private theorem splitSign_ofNat (k : Nat) : splitSign (Text.ofNat k) = (false, Text.ofNat k) := by
  have hdigit : ∀ c ∈ Text.ofNat k, c.isDigit = true := fun c => Text.isDigit_of_mem_ofNat
  unfold splitSign
  split
  · next heq => cases hdigit '+' (heq ▸ mem_cons_self)
  · next heq => cases hdigit '-' (heq ▸ mem_cons_self)
  · rfl

end Number

namespace Int

theorem ofText?_of_splitSign {negative : Bool} {k : Nat} (hs : ∀ c ∈ s, Text.isSpace c = false)
    (hsign : Number.splitSign s = (negative, Text.ofNat k)) :
    Int.ofText? s =
      if k < 10 ^ Number.maxDigits then some (if negative then -Int.ofNat k else Int.ofNat k)
      else none := by
  have htrim : Number.trim s = s :=
    Text.dropEnds_of_neg fun c hc => by rw [Number.isSpace, hs c hc]; rfl
  have hdigits : Number.digits? (Text.ofNat k) =
      some ((Text.ofNat k).map fun c => c.toNat - '0'.toNat) :=
    Number.digits?_of_isDigit Nat.toDigits_ne_nil fun c => Text.isDigit_of_mem_ofNat
  have hlength : (Text.ofNat k).length ≤ Number.maxDigits ↔ k < 10 ^ Number.maxDigits :=
    Nat.length_toDigits_le_iff (by decide) (by decide)
  unfold Int.ofText?
  rw [htrim, hsign]
  simp only [hdigits, Option.bind_eq_bind, Option.bind_some, length_map, hlength,
    Number.ofDigits_ofNat]
  rfl

theorem ofText?_ofInt (n : Int) :
    Int.ofText? (Text.ofInt n) = some n ↔ n.natAbs < 10 ^ Number.maxDigits := by
  cases n with
  | ofNat k =>
    have hread := ofText?_of_splitSign (fun c => Text.isSpace_of_mem_ofInt (n := .ofNat k))
      (Number.splitSign_ofNat k)
    rw [hread]
    simp
  | negSucc k =>
    have hread := ofText?_of_splitSign (fun c => Text.isSpace_of_mem_ofInt (n := .negSucc k))
      (k := k + 1) rfl
    rw [hread, Int.natAbs_negSucc]
    simp [Int.negSucc_eq]

end Int

/-! ## Lists as they are written -/

/-- An item of a list with white space around it. -/
structure Padded (α : Type) where
  before : Text
  item : α
  after : Text
  before_blank : ∀ c ∈ before, Text.isSpace c = true
  after_blank : ∀ c ∈ after, Text.isSpace c = true

namespace Padded

variable {α : Type} {write : α → Text} {p : Padded α} {items : List (Padded α)}

def text (write : α → Text) (p : Padded α) : Text := p.before ++ write p.item ++ p.after

def list (write : α → Text) (items : List (Padded α)) : Text :=
  Text.join [','] (items.map (text write))

private theorem comma_not_mem_text (h : ',' ∉ write p.item) : ',' ∉ p.text write := by
  simp only [text, mem_append, not_or]
  refine ⟨⟨fun hc => ?_, h⟩, fun hc => ?_⟩
  · cases p.before_blank _ hc
  · cases p.after_blank _ hc

theorem items_list (write : α → Text) (hne : items ≠ [])
    (h : ∀ p ∈ items, ',' ∉ write p.item ∧ Text.trim (write p.item) = write p.item) :
    ValueType.items (list write items) = (items.map (·.item)).map write := by
  obtain ⟨first, later, rfl⟩ := exists_cons_of_ne_nil hne
  have hpieces : ∀ piece ∈ (first :: later).map (text write), ',' ∉ piece :=
    forall_mem_map.mpr fun p hp => comma_not_mem_text (h p hp).1
  have hsplit : Text.splitAt ',' (list write (first :: later)) =
      (first :: later).map (text write) := Text.splitAt_eq_iff.mpr ⟨hpieces, rfl⟩
  rw [ValueType.items, hsplit, map_map, map_map]
  refine map_congr_left fun p hp => ?_
  exact (Text.trim_between p.before_blank p.after_blank _).trans (h p hp).2

end Padded

/-! ## Values of a type -/

inductive Value.HasType : Value → ValueType → Prop where
  | bool (b : Bool) : HasType (.bool b) .bool
  | text (t : Text) : HasType (.text t) .text
  | int (n : Int) : HasType (.int n) .int
  | float (x : Binary64) : HasType (.float x) .float
  | texts (ts : List Text) : HasType (.list (ts.map .text)) .texts
  | ints (ns : List Int) : HasType (.list (ns.map .int)) .ints
  | floats (xs : List Binary64) : HasType (.list (xs.map .float)) .floats

namespace ValueType

variable {type : ValueType} {value : Value}

theorem hasType_of_read? (h : type.read? s = some value) : value.HasType type := by
  cases type with
  | bool =>
    cases h
    exact .bool _
  | text =>
    cases h
    exact .text s
  | int =>
    obtain ⟨n, -, rfl⟩ := Option.map_eq_some_iff.mp h
    exact .int n
  | float =>
    obtain ⟨x, -, rfl⟩ := Option.map_eq_some_iff.mp h
    exact .float x
  | texts =>
    cases h
    exact .texts (items s)
  | ints =>
    obtain ⟨ns, -, hns⟩ := Option.bind_eq_some_iff.mp h
    cases hns
    exact .ints ns
  | floats =>
    obtain ⟨xs, -, hxs⟩ := Option.bind_eq_some_iff.mp h
    cases hxs
    exact .floats xs

private theorem mapM_ofText?_iff {ns : List Int} : (ns.map Text.ofInt).mapM Int.ofText? = some ns ↔
    ∀ n ∈ ns, Int.ofText? (Text.ofInt n) = some n := by
  induction ns with
  | nil => simp
  | cons n ns ih =>
    rw [map_cons, mapM_cons, forall_mem_cons, ← ih]
    constructor
    · intro h
      obtain ⟨m, hm, hlater⟩ := Option.bind_eq_some_iff.mp h
      obtain ⟨ms, hms, hcons⟩ := Option.bind_eq_some_iff.mp hlater
      cases hcons
      exact ⟨hm, hms⟩
    · rintro ⟨hn, hns⟩
      rw [hn, hns]
      rfl

theorem read?_ints {ns : List Int} (h : items s = ns.map Text.ofInt) :
    ints.read? s = some (.list (ns.map .int)) ↔ ∀ n ∈ ns, Int.ofText? (Text.ofInt n) = some n := by
  rw [← mapM_ofText?_iff, read?, h]
  cases (ns.map Text.ofInt).mapM Int.ofText? with
  | none => exact ⟨nofun, nofun⟩
  | some ms =>
    have hinj : Function.Injective (map Value.int) :=
      map_injective_iff.mpr fun _ _ => Value.int.inj
    constructor
    · intro hread
      rw [hinj (Value.list.inj (Option.some.inj hread))]
    · rintro ⟨⟩
      rfl

end ValueType

namespace FlagSpec

variable {name help : Text} {type : ValueType} {value : Value}

private theorem withValue_of_hasType (h : value.HasType type) :
    (named name type help).withValue value = .ok ⟨name, value, help⟩ := by
  cases h <;> rfl

theorem ofText_of_read? (h : type.read? s = some value) :
    (named name type help).ofText (some s) = .ok ⟨name, value, help⟩ := by
  simp only [ofText, h]
  exact withValue_of_hasType (ValueType.hasType_of_read? h)

theorem ofText_of_read?_none (h : type.read? s = none) :
    (named name type help).ofText (some s) = .error (.flagValue name s) := by
  simp only [ofText, h]
  rfl

theorem ofText_eq_ok_iff : (named name type help).ofText (some s) = .ok ⟨name, value, help⟩ ↔
    type.read? s = some value := by
  refine ⟨fun h => ?_, ofText_of_read?⟩
  cases hread : type.read? s with
  | none =>
    rw [ofText_of_read?_none hread] at h
    cases h
  | some value' =>
    rw [ofText_of_read? hread] at h
    cases h
    rfl

/-- A list of numbers is read back if each number is, which is so up to 4300 digits, and a list of
texts if each text is trimmed and has no comma. Any text is read as a value of the declared type, or
complained about as a bad value. -/
theorem ofText_lists (name help : Text) :
    (∀ items : List (Padded Int), items ≠ [] →
      ((named name .ints help).ofText (some (Padded.list Text.ofInt items)) =
          .ok ⟨name, .list (items.map fun p => .int p.item), help⟩ ↔
        ∀ p ∈ items, Int.ofText? (Text.ofInt p.item) = some p.item)) ∧
    (∀ n : Int, Int.ofText? (Text.ofInt n) = some n ↔ n.natAbs < 10 ^ Number.maxDigits) ∧
    (∀ items : List (Padded Text), items ≠ [] →
      (∀ p ∈ items, ',' ∉ p.item ∧ Text.trim p.item = p.item) →
      (named name .texts help).ofText (some (Padded.list id items)) =
        .ok ⟨name, .list (items.map fun p => .text p.item), help⟩) ∧
    ∀ (type : ValueType) (s : Text),
      (∃ value, (named name type help).ofText (some s) = .ok ⟨name, value, help⟩ ∧
        value.HasType type) ∨
      ∃ cause, (named name type help).ofText (some s) = .error cause ∧
        cause.report = ⟨.unknownFlagValue,
          "Invalid value for flag ".toList ++ name ++ ": ".toList ++ s⟩ := by
  refine ⟨fun items hne => ?_, Int.ofText?_ofInt, fun items hne hitems => ?_, fun type s => ?_⟩
  · have hread := Padded.items_list Text.ofInt hne fun p _ =>
      ⟨Text.comma_not_mem_ofInt p.item, Text.dropEnds_of_neg fun c => Text.isSpace_of_mem_ofInt⟩
    have hiff := ValueType.read?_ints hread
    rw [map_map, forall_mem_map] at hiff
    rw [ofText_eq_ok_iff]
    exact hiff
  · have hread := Padded.items_list id hne hitems
    rw [ofText_eq_ok_iff, ValueType.read?, hread, map_id, map_map]
    rfl
  · cases hread : type.read? s with
    | none => exact .inr ⟨_, ofText_of_read?_none hread, rfl⟩
    | some value => exact .inl ⟨value, ofText_of_read? hread, ValueType.hasType_of_read? hread⟩

/-- A sign, blanks around the items and an item without characters. -/
theorem ofText_lists_blanks :
    (named ['n'] .ints []).ofText (some [' ', '-', '1', '2', ' ', ',', '0']) =
      .ok ⟨['n'], .list [.int (-12), .int 0], []⟩ ∧
    (named ['b'] .texts []).ofText (some ['a', ' ', 'b', '\t', ',']) =
      .ok ⟨['b'], .list [.text ['a', ' ', 'b'], .text []], []⟩ := by
  let numbers : List (Padded Int) :=
    [⟨[' '], -12, [' '], by simp [Text.isSpace], by simp [Text.isSpace]⟩, ⟨[], 0, [], nofun, nofun⟩]
  let words : List (Padded Text) :=
    [⟨[], ['a', ' ', 'b'], ['\t'], nofun, by simp [Text.isSpace]⟩, ⟨[], [], [], nofun, nofun⟩]
  obtain ⟨hnumbers, -, -⟩ := ofText_lists ['n'] []
  obtain ⟨-, -, hwords, -⟩ := ofText_lists ['b'] []
  have hread : ∀ p ∈ numbers, Int.ofText? (Text.ofInt p.item) = some p.item :=
    forall_mem_cons.mpr ⟨rfl, forall_mem_singleton.mpr rfl⟩
  have hplain : ∀ p ∈ words, ',' ∉ p.item ∧ Text.trim p.item = p.item :=
    forall_mem_cons.mpr ⟨⟨by decide, rfl⟩, forall_mem_singleton.mpr ⟨by decide, rfl⟩⟩
  exact ⟨(hnumbers numbers (by simp [numbers])).mpr hread, hwords words (by simp [words]) hplain⟩

end FlagSpec

end CommandShell

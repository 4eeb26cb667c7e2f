import CommandShell.Proofs.Utility.LineRuns

/-!
# Counting lines, words and characters

`wc` counts line by line, which gives the numbers of the text as a whole. It counts its files as
one text. So the numbers of several files add up to what it writes for them all, but for the lines
and the words that end in one file and go on in another.
-/

namespace CommandShell

open List

namespace Text

/-! ## Words -/

/-- Whether two characters both are white space or both are not. -/
def alike (c d : Char) : Bool := isSpace c == isSpace d

/-- The maximal runs of characters that are not white space. -/
def solids (s : Text) : List Text := (s.splitBy alike).filter fun run => run.all (!isSpace ·)

variable {s a : Text}

theorem solids_cons {c : Char} (hc : isSpace c = true) (s : Text) : solids (c :: s) = solids s := by
  cases s with
  | nil => simp [solids, List.splitBy, List.splitBy.loop, hc]
  | cons d s =>
    cases hd : isSpace d with
    | true =>
      have halike : alike c d = true := by rw [alike, hc, hd]; rfl
      obtain ⟨run, runs, hlater, hall⟩ := splitBy_cons_cons halike s
      unfold solids
      rw [hlater, hall]
      simp [hc, hd]
    | false =>
      have hapart : ∀ x ∈ [c].getLast?, alike x d = false := by simp [alike, hc, hd]
      unfold solids
      rw [← singleton_append, splitBy_append_cons s hapart]
      simp [List.splitBy, List.splitBy.loop, hc]

theorem solids_of_neg (hne : a ≠ []) (h : ∀ c ∈ a, isSpace c = false) : solids a = [a] := by
  have hchain : a.IsChain (alike · ·) := by
    refine List.Pairwise.isChain (pairwise_of_forall_mem_list fun c hc d hd => ?_)
    rw [alike, h c hc, h d hd, beq_self_eq_true]
  rw [solids, splitBy_of_isChain hne hchain]
  simpa using h

theorem words_eq_solids (s : Text) : words s = solids s := by
  induction s using cut_induction isSpace with
  | solid s h =>
    by_cases hs : s = []
    · rw [hs]
      rfl
    · rw [solids_of_neg hs h]
      exact fields_of_neg hs h
  | cut a c b ha hc ih =>
    have hwords : words (a ++ c :: b) = words a ++ words b := fields_append_cons hc a b
    rw [hwords, ih]
    by_cases hne : a = []
    · rw [hne, nil_append, solids_cons hc]
      rfl
    · have hapart : ∀ x ∈ a.getLast?, alike x c = false := by
        intro x hx
        rw [alike, ha x (mem_of_mem_getLast? hx), hc]
        rfl
      have hsplit : solids (a ++ c :: b) = solids a ++ solids (c :: b) := by
        unfold solids
        rw [splitBy_append_cons b hapart, filter_append]
      rw [hsplit, solids_cons hc, solids_of_neg hne ha]
      exact congrArg (· ++ solids b) (fields_of_neg hne ha)

/-- No word goes on after a line feed. -/
theorem flatten_map_words_lines (s : Text) : ((lines s).map words).flatten = words s := by
  obtain ⟨ended, rest, hended, hrest, rfl⟩ := exists_lines s
  rw [lines_flatten_append hended]
  induction ended with
  | nil =>
    by_cases hne : rest = []
    · rw [hne]
      rfl
    · simp [lines_of_not_mem hrest hne]
  | cons line ended ih =>
    obtain ⟨⟨x, -, rfl⟩, hlater⟩ := forall_mem_cons.1 hended
    have hline : words (x ++ ['\n']) = words x := fields_append_right (by simp [isSpace]) x
    have hcut : words (x ++ '\n' :: (ended.flatten ++ rest)) =
        words x ++ words (ended.flatten ++ rest) := fields_append_cons rfl _ _
    rw [cons_append, map_cons, flatten_cons, ih hlater, hline, flatten_cons,
      append_assoc, append_assoc, singleton_append, hcut]

/-! ## Lines -/

/-- A text whose last line has no line feed. -/
def Unended (s : Text) : Prop := s ≠ [] ∧ s.getLast? ≠ some '\n'

instance : DecidablePred Unended := fun _ => inferInstanceAs (Decidable (_ ∧ _))

private theorem unended_cons_cons (c d : Char) (s : Text) :
    Unended (c :: d :: s) ↔ Unended (d :: s) := by
  simp [Unended]

theorem length_lines (s : Text) :
    (lines s).length = s.count '\n' + if Unended s then 1 else 0 := by
  induction s with
  | nil => rfl
  | cons c s ih =>
    cases s with
    | nil => by_cases hc : c = '\n' <;> simp [lines, Unended, hc]
    | cons d s =>
      rw [if_congr (unended_cons_cons c d s) rfl rfl]
      by_cases hc : c = '\n'
      · rw [lines, if_pos hc, hc, length_cons, ih, count_cons_self]
        omega
      · rw [count_cons_of_ne hc, ← ih, lines_cons_of_ne hc]
        cases hlines : lines (d :: s) with
        | nil => simpa [hlines] using flatten_lines (d :: s)
        | cons line later => rfl

/-! ## Texts in a row -/

/-- Whether the last line of a text goes on in the next text. -/
def JoinsLine (a b : Text) : Prop := Unended a ∧ b ≠ []

/-- Whether the last word of a text goes on in the next text. -/
def JoinsWord (a b : Text) : Prop :=
  a.getLast?.any (!isSpace ·) = true ∧ b.head?.any (!isSpace ·) = true

instance : DecidableRel JoinsLine := fun _ _ => inferInstanceAs (Decidable (_ ∧ _))

instance : DecidableRel JoinsWord := fun _ _ => inferInstanceAs (Decidable (_ ∧ _))

theorem length_lines_append (a b : Text) :
    (lines (a ++ b)).length + (if JoinsLine a b then 1 else 0) =
      (lines a).length + (lines b).length := by
  by_cases hb : b = []
  · rw [hb, append_nil, if_neg fun hjoins => hjoins.2 rfl]
    rfl
  · have hjoins : JoinsLine a b ↔ Unended a := and_iff_left hb
    have hunended : Unended (a ++ b) ↔ Unended b := by simp [Unended, hb]
    simp only [length_lines, count_append, hjoins, hunended]
    omega

/-- A character that is not white space makes one more word, unless it belongs to the next one. -/
theorem length_words_cons (c : Char) (s : Text) : (words (c :: s)).length =
    (words s).length + if isSpace c = false ∧ ∀ d ∈ s.head?, isSpace d = true then 1 else 0 := by
  cases hc : isSpace c with
  | true =>
    have hwords : words (c :: s) = words s := fields_cons hc s
    simp [hwords]
  | false =>
    split_ifs with hhead
    · have hwords : words ([c] ++ s) = [c] :: words s :=
        fields_append_of_head? (by simp) (by simpa using hc) hhead.2
      exact congrArg List.length hwords
    · simp only [true_and, not_forall, Bool.not_eq_true] at hhead
      obtain ⟨d, hhead, hd⟩ := hhead
      obtain ⟨rest, rfl⟩ := List.head?_eq_some_iff.1 hhead
      obtain ⟨piece, pieces, hcons⟩ := exists_cons_of_ne_nil (splitWhere_ne_nil isSpace rest)
      unfold words
      rw [splitWhere_cons_of_neg hc, splitWhere_cons_of_neg hd, hcons]
      rfl

theorem length_words_append (a b : Text) :
    (words (a ++ b)).length + (if JoinsWord a b then 1 else 0) =
      (words a).length + (words b).length := by
  induction a with
  | nil => simp [JoinsWord, words, splitWhere]
  | cons c a ih =>
    rw [cons_append, length_words_cons, length_words_cons]
    cases a with
    | nil =>
      have hempty : words [] = [] := rfl
      cases b with
      | nil => simp [JoinsWord, hempty]
      | cons d b =>
        cases hc : isSpace c <;> cases hd : isSpace d <;>
          simp [JoinsWord, hempty, hc, hd, Nat.add_comm]
    | cons d a =>
      have hjoins : JoinsWord (c :: d :: a) b ↔ JoinsWord (d :: a) b := by
        rw [JoinsWord, List.getLast?_cons_cons]
        rfl
      rw [cons_append, List.head?_cons, List.head?_cons, if_congr hjoins rfl rfl]
      rw [cons_append] at ih
      omega

/-- How many of some texts are joined to what follows them. -/
def joints (joins : Text → Text → Prop) [DecidableRel joins] : List Text → Nat
  | [] => 0
  | a :: later => (if joins a later.flatten then 1 else 0) + joints joins later

theorem add_joints {joins : Text → Text → Prop} [DecidableRel joins] (count : Text → Nat)
    (hnil : count [] = 0)
    (happend : ∀ a b, count (a ++ b) + (if joins a b then 1 else 0) = count a + count b)
    (texts : List Text) : count texts.flatten + joints joins texts = (texts.map count).sum := by
  induction texts with
  | nil => rw [flatten_nil, hnil]; rfl
  | cons a later ih =>
    rw [flatten_cons, joints, map_cons, sum_cons, ← ih]
    have hjoint := happend a later.flatten
    omega

end Text

namespace Counts

private theorem foldl_add (counts : Counts) (lines : List Text) :
    lines.foldl add counts = ⟨counts.lines + lines.length,
      counts.words + (lines.map Text.words).flatten.length,
      counts.characters + lines.flatten.length⟩ := by
  induction lines generalizing counts with
  | nil => rfl
  | cons line later ih =>
    rw [foldl_cons, ih]
    simp only [add, length_cons, map_cons, flatten_cons, length_append]
    congr 1 <;> omega

theorem ofLines_lines (s : Text) :
    ofLines (Text.lines s) = ⟨(Text.lines s).length, (Text.words s).length, s.length⟩ := by
  rw [ofLines, foldl_add, Text.flatten_map_words_lines, Text.flatten_lines]
  simp only [Nat.zero_add]

/-- The counts of a text, taken line by line, are those of the text as a whole. -/
theorem ofLines_eq_whole (s : Text) : ofLines (Text.lines s) =
    ⟨s.count '\n' + (if s ≠ [] ∧ s.getLast? ≠ some '\n' then 1 else 0),
      (Text.solids s).length, s.length⟩ := by
  rw [ofLines_lines, Text.length_lines, Text.words_eq_solids]
  rfl

def total (parts : List Counts) : Counts where
  lines := (parts.map (·.lines)).sum
  words := (parts.map (·.words)).sum
  characters := (parts.map (·.characters)).sum

private theorem total_eq (texts : List Text) :
    let whole := ofLines (Text.lines texts.flatten)
    total (texts.map fun text => ofLines (Text.lines text)) =
      ⟨whole.lines + Text.joints Text.JoinsLine texts,
        whole.words + Text.joints Text.JoinsWord texts, whole.characters⟩ := by
  have hlines := Text.add_joints (fun s => (Text.lines s).length) rfl Text.length_lines_append texts
  have hwords := Text.add_joints (fun s => (Text.words s).length) rfl Text.length_words_append texts
  simp only [ofLines_lines, total, map_map, Function.comp_def]
  rw [hlines, hwords, length_flatten]

end Counts

namespace Plan

/-- `wc` writes the sums of the counts of its files, if no line and no word of a file goes on in
another one. -/
theorem effect_wc_files {w : World} {files texts : List Text} {input output : Stream}
    {flags : List Flag} {measure? : Option Measure} (hflags : Wc.checkFlags flags = .ok measure?)
    (hne : files ≠ [])
    (hfiles : List.Forall₂ (fun file text => w.read? file = some text) files texts)
    (hinput : input.isConnected = true) (houtput : output.isWritable = true) :
    let Counted files counts :=
      let effect := (simple (.command .wc flags files)).effect ⟨w, input, output⟩
      effect.result = .ok 0 ∧ effect.world = w ∧
        effect.scene.output = output.pour (counts.render measure? ++ ['\n'])
    let whole := Counts.ofLines (Text.lines texts.flatten)
    let parts := texts.map fun text => Counts.ofLines (Text.lines text)
    Counted files whole ∧ List.Forall₂ (fun file part => Counted [file] part) files parts ∧
      Counts.total parts = ⟨whole.lines + Text.joints Text.JoinsLine texts,
        whole.words + Text.joints Text.JoinsWord texts, whole.characters⟩ ∧
      (whole = Counts.total parts ↔
        Text.joints Text.JoinsLine texts = 0 ∧ Text.joints Text.JoinsWord texts = 0) := by
  intro Counted whole parts
  have hcounted : ∀ {files texts : List Text}, files ≠ [] →
      List.Forall₂ (fun file text => w.read? file = some text) files texts →
      Counted files (Counts.ofLines (Text.lines texts.flatten)) := by
    intro files texts hne hfiles
    have hcheck : Invocation.check .wc ⟨some flags, some files, true⟩ w =
        .ok (.wc ⟨measure?, files⟩) := by
      change (Invocation.wc <$> Wc.check ⟨some flags, some files, true⟩) = _
      dsimp only [Wc.check, Arguments.flags, bind, Except.bind, pure, Except.pure]
      rw [hflags]
      rfl
    obtain ⟨input', heffect⟩ := effect_of_writes hinput houtput hcheck
      (Wc.writes_run_files hne hfiles measure? input)
    dsimp only [Counted]
    rw [heffect]
    exact ⟨rfl, rfl, rfl⟩
  have htotal := Counts.total_eq texts
  refine ⟨hcounted hne hfiles, ?_, htotal, ?_⟩
  · rw [forall₂_map_right_iff]
    refine hfiles.imp fun file text hfile => ?_
    have hone := hcounted (cons_ne_nil file []) (.cons hfile .nil)
    rwa [flatten_singleton] at hone
  · rw [show Counts.total parts = _ from htotal]
    constructor
    · intro hwhole
      exact ⟨Nat.left_eq_add.1 (congrArg Counts.lines hwhole),
        Nat.left_eq_add.1 (congrArg Counts.words hwhole)⟩
    · rintro ⟨hlines, hwords⟩
      rw [hlines, hwords]
      rfl

/-- A file that ends in a line feed, an empty one and one that starts with white space. -/
theorem effect_wc_apart :
    let w : World := ⟨.dir [(['f'], .file "a b\n".toUTF8), (['g'], .file .empty),
      (['h'], .file " c".toUTF8)], [], []⟩
    let effect := (simple (.command .wc [] [['f'], ['g'], ['h']])).effect ⟨w, .empty, .empty⟩
    effect.result = .ok 0 ∧ effect.scene.output.held =
      (Counts.total [⟨1, 2, 4⟩, ⟨0, 0, 0⟩, ⟨1, 1, 2⟩]).render none ++ ['\n'] := by
  intro w effect
  have hfiles : List.Forall₂ (fun file text => w.read? file = some text) [['f'], ['g'], ['h']]
      ["a b\n".toList, [], " c".toList] :=
    .cons (by cbv) (.cons (by cbv) (.cons (by cbv) .nil))
  obtain ⟨⟨hresult, -, houtput⟩, -, -, hiff⟩ := effect_wc_files (rfl : Wc.checkFlags [] = .ok none)
    (cons_ne_nil _ _) hfiles (rfl : Stream.empty.isConnected = true)
    (rfl : Stream.empty.isWritable = true)
  rw [hiff.2 (by decide)] at houtput
  refine ⟨hresult, ?_⟩
  rw [houtput]
  decide

/-- A line and a word that start in one file and end in the next are counted once. -/
theorem effect_wc_joined :
    let w : World := ⟨.dir [(['f'], .file "a".toUTF8), (['g'], .file "b".toUTF8)], [], []⟩
    let printed files :=
      ((simple (.command .wc [] files)).effect ⟨w, .empty, .empty⟩).scene.output.held
    printed [['f']] = "1 1 1\n".toList ∧ printed [['g']] = "1 1 1\n".toList ∧
      printed [['f'], ['g']] = "1 1 2\n".toList :=
  ⟨by cbv, by cbv, by cbv⟩

end Plan

end CommandShell

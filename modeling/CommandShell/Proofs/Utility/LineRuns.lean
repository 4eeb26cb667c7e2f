import CommandShell.Proofs.Text.LineEnds
import CommandShell.Proofs.Utility.Filters
import Mathlib.Data.List.SplitBy

/-!
# Runs of equal lines

`uniq` compares each line with the one before it, and the first line with an empty one. So it
writes the first line of each run of equal lines, but for a run of blank lines at the very start.
What it has written, it writes again unchanged.
-/

namespace CommandShell

open List

/-! ## Lower case -/

private theorem Lowercase.inContext_ne_nil (before : Text) (c : Char) (after : Text) :
    inContext before c after ≠ [] := by
  unfold inContext
  split_ifs <;> exact cons_ne_nil _ _

@[simp] private theorem Text.lower_eq_nil {s : Text} : lower s = [] ↔ s = [] := by
  cases s with
  | nil => exact iff_of_true rfl rfl
  | cons c s =>
    refine iff_of_false (fun h => ?_) (cons_ne_nil c s)
    exact Lowercase.inContext_ne_nil [] c s (append_eq_nil_iff.1 h).1

/-! ## Runs -/

theorem splitBy_cons_cons {α : Type} {r : α → α → Bool} {a b : α} (h : r a b = true)
    (later : List α) : ∃ run runs, (b :: later).splitBy r = (b :: run) :: runs ∧
      (a :: b :: later).splitBy r = (a :: b :: run) :: runs := by
  obtain ⟨first, runs, hlater⟩ := exists_cons_of_ne_nil
    (splitBy_ne_nil (r := r).2 (cons_ne_nil b later))
  obtain ⟨hflatten, hnil, hchain, hapart⟩ := splitBy_eq_iff.1 hlater
  have hfirst : first ≠ [] := fun hempty => hnil (by simp [hempty])
  obtain ⟨c, run, rfl⟩ := exists_cons_of_ne_nil hfirst
  obtain ⟨rfl, hrest⟩ := List.cons.inj hflatten
  refine ⟨run, runs, hlater, splitBy_eq_iff.2 ⟨?_, ?_, ?_, ?_⟩⟩
  · simp [hrest]
  · simpa using hnil
  · rw [forall_mem_cons] at hchain ⊢
    exact ⟨isChain_cons_cons.2 ⟨h, hchain.1⟩, hchain.2⟩
  · cases runs with
    | nil => exact isChain_singleton _
    | cons next runs =>
      rw [isChain_cons_cons] at hapart ⊢
      obtain ⟨⟨_, hnext, hdiffer⟩, hapart⟩ := hapart
      refine ⟨⟨cons_ne_nil _ _, hnext, ?_⟩, hapart⟩
      rwa [getLast_cons (cons_ne_nil b run)]

namespace Uniq

theorem key_eq_key_nil {ignoreCase : Bool} {line : Text} :
    key ignoreCase [] = key ignoreCase line ↔ line = [] := by
  cases ignoreCase with
  | false => exact eq_comm
  | true => exact eq_comm.trans Text.lower_eq_nil

/-- Whether two lines are equal to `uniq`. -/
def same (ignoreCase : Bool) (a b : Text) : Bool := key ignoreCase a = key ignoreCase b

/-- The first line of each maximal run of equal lines. -/
def firsts (ignoreCase : Bool) (lines : List Text) : List Text :=
  (lines.splitBy (same ignoreCase)).filterMap List.head?

theorem firsts_cons_cons (ignoreCase : Bool) (a b : Text) (later : List Text) :
    firsts ignoreCase (a :: b :: later) =
      a :: if same ignoreCase a b then (firsts ignoreCase (b :: later)).tail
        else firsts ignoreCase (b :: later) := by
  unfold firsts
  split_ifs with h
  · obtain ⟨run, runs, hlater, hall⟩ := splitBy_cons_cons h later
    rw [hlater, hall]
    rfl
  · have hapart : ∀ x ∈ [a].getLast?, same ignoreCase x b = false := by simpa using h
    rw [← singleton_append, splitBy_append_cons later hapart]
    rfl

theorem firsts_cons (ignoreCase : Bool) (a : Text) (later : List Text) :
    firsts ignoreCase (a :: later) = a :: (firsts ignoreCase (a :: later)).tail := by
  cases later with
  | nil => rfl
  | cons b later => rw [firsts_cons_cons, tail_cons]

theorem printedAlong_added (ignoreCase : Bool) (previous : Text) (lines : List Text) :
    Action.printedAlong (fun _ line => Text.trim line) (added ignoreCase) previous lines =
      ((firsts ignoreCase (previous :: lines.map Text.trim)).tail.map (· ++ ['\n'])).flatten := by
  induction lines generalizing previous with
  | nil => rfl
  | cons line later ih =>
    rw [Action.printedAlong, ih, map_cons, firsts_cons_cons, tail_cons]
    have hsame : same ignoreCase previous (Text.trim line) = true ↔
        key ignoreCase (Text.trim line) = key ignoreCase previous :=
      decide_eq_true_iff.trans eq_comm
    unfold added
    split_ifs with hne hsame' hsame'
    · exact absurd (hsame.1 hsame') hne
    · rw [firsts_cons ignoreCase (Text.trim line)]
      simp
    · rfl
    · exact absurd (hsame.2 (not_ne_iff.1 hne)) hsame'

def written (ignoreCase : Bool) (lines : List Text) : List Text :=
  (firsts ignoreCase ([] :: lines)).tail

theorem written_eq (ignoreCase : Bool) (lines : List Text) : written ignoreCase lines =
    if lines.head? = some [] then (firsts ignoreCase lines).tail else firsts ignoreCase lines := by
  cases lines with
  | nil => rfl
  | cons line later =>
    have hsame : same ignoreCase [] line = true ↔ (line :: later).head? = some [] := by
      rw [List.head?_cons, Option.some_inj]
      exact decide_eq_true_iff.trans key_eq_key_nil
    rw [written, firsts_cons_cons, tail_cons]
    simp only [hsame]

theorem written_eq_firsts (ignoreCase : Bool) (lines : List Text) :
    written ignoreCase lines = firsts ignoreCase lines ↔ lines.head? ≠ some [] := by
  rw [written_eq]
  split_ifs with hblank
  · obtain ⟨later, rfl⟩ := List.head?_eq_some_iff.1 hblank
    refine iff_of_false (fun heq => ?_) (not_not.2 hblank)
    rw [firsts_cons] at heq
    exact absurd (congrArg List.length heq) (by simp)
  · exact iff_of_true rfl hblank

theorem mem_of_mem_firsts {ignoreCase : Bool} {lines : List Text} {line : Text}
    (h : line ∈ firsts ignoreCase lines) : line ∈ lines := by
  obtain ⟨run, hrun, hline⟩ := mem_filterMap.1 h
  rw [← flatten_splitBy (same ignoreCase) lines]
  exact mem_flatten_of_mem hrun (mem_of_mem_head? hline)

theorem mem_of_mem_written {ignoreCase : Bool} {lines : List Text} {line : Text}
    (h : line ∈ written ignoreCase lines) : line ∈ lines := by
  rw [written_eq] at h
  split_ifs at h
  · exact mem_of_mem_firsts (mem_of_mem_tail h)
  · exact mem_of_mem_firsts h

theorem feed_not_mem_of_mem_written {ignoreCase : Bool} {text line : Text}
    (h : line ∈ written ignoreCase ((Text.lines text).map Text.trim)) : '\n' ∉ line := by
  obtain ⟨whole, hwhole, rfl⟩ := mem_map.1 (mem_of_mem_written h)
  exact (Text.isLine_of_mem_lines hwhole).feed_not_mem_trim

/-! ## Lines without runs -/

/-- That no line equals the one before it. -/
def Stepwise (ignoreCase : Bool) (lines : List Text) : Prop :=
  lines.IsChain fun a b => key ignoreCase a ≠ key ignoreCase b

/-- The first lines of two runs in a row differ, since the second one differs from the last line
of the first run. -/
theorem stepwise_firsts (ignoreCase : Bool) (lines : List Text) :
    Stepwise ignoreCase (firsts ignoreCase lines) := by
  induction lines with
  | nil => exact .nil
  | cons a later ih =>
    cases later with
    | nil => exact .singleton a
    | cons b later =>
      rw [firsts_cons] at ih
      rw [firsts_cons_cons]
      split_ifs with hsame
      · have hkey : key ignoreCase a = key ignoreCase b := of_decide_eq_true hsame
        cases hrest : (firsts ignoreCase (b :: later)).tail with
        | nil => exact .singleton a
        | cons c rest =>
          rw [hrest] at ih
          obtain ⟨hdiffer, hstep⟩ := isChain_cons_cons.1 ih
          exact isChain_cons_cons.2 ⟨hkey ▸ hdiffer, hstep⟩
      · rw [firsts_cons]
        exact isChain_cons_cons.2 ⟨fun hkey => hsame (decide_eq_true hkey), ih⟩

private theorem firsts_of_stepwise {ignoreCase : Bool} {lines : List Text}
    (h : Stepwise ignoreCase lines) : firsts ignoreCase lines = lines := by
  induction lines with
  | nil => rfl
  | cons a later ih =>
    cases later with
    | nil => rfl
    | cons b later =>
      obtain ⟨hdiffer, hstep⟩ := isChain_cons_cons.1 h
      have hsame : ¬same ignoreCase a b = true := fun hsame => hdiffer (of_decide_eq_true hsame)
      rw [firsts_cons_cons, if_neg hsame, ih hstep]

/-- The empty line before the first one and the lines written have no runs. -/
theorem stepwise_written (ignoreCase : Bool) (lines : List Text) :
    Stepwise ignoreCase ([] :: written ignoreCase lines) := by
  rw [written, ← firsts_cons]
  exact stepwise_firsts ignoreCase ([] :: lines)

@[simp] theorem written_written (ignoreCase : Bool) (lines : List Text) :
    written ignoreCase (written ignoreCase lines) = written ignoreCase lines := by
  rw [written, firsts_of_stepwise (stepwise_written ignoreCase lines), tail_cons]

private theorem trim_trim_append_feed (line : Text) :
    Text.trim (Text.trim line ++ ['\n']) = Text.trim line := by
  by_cases hblank : Text.trim line = []
  · rw [hblank]
    decide
  · exact Text.trim_append (a := []) nofun (by simp [Text.isSpace]) (Text.trimmed_trim hblank)

/-- What `uniq` leaves of a text that it takes line by line from the input or from a file. -/
structure Leaves (uniq : Uniq) (text rest : Text) : Prop where
  input : ∀ w, (Action.foldInputLines [] uniq.visit >>= fun _ => pure ()).Writes w
    (.ofText text) (.ok rest)
  file : ∀ w file input, w.read? file = some text →
    (Action.foldFileLines file [] uniq.visit >>= fun _ => pure ()).Writes w input (.ok rest)

theorem leaves_written (uniq : Uniq) (text : Text) : uniq.Leaves text
    ((written uniq.ignoreCase ((Text.lines text).map Text.trim)).map (· ++ ['\n'])).flatten := by
  have hprinted := printedAlong_added uniq.ignoreCase [] (Text.lines text)
  constructor
  · intro w
    exact hprinted ▸ Action.writes_foldInputLines uniq.prints_visit [] w text
  · intro w file input hfile
    exact hprinted ▸ Action.writes_foldFileLines uniq.prints_visit [] hfile input

/-- What `uniq` leaves of a text has no two equal lines in a row, and `uniq` leaves it as it is. -/
theorem leaves_idempotent (uniq : Uniq) (text : Text) : ∃ rest, uniq.Leaves text rest ∧
    uniq.Leaves rest rest ∧ Stepwise uniq.ignoreCase (Text.contents rest) := by
  set lines := written uniq.ignoreCase ((Text.lines text).map Text.trim) with hwritten
  have hended : ∀ line ∈ lines.map (· ++ ['\n']), Text.IsEnded line := by
    intro line hline
    obtain ⟨content, hcontent, rfl⟩ := mem_map.1 hline
    exact ⟨content, feed_not_mem_of_mem_written hcontent, rfl⟩
  have hlines : Text.lines (lines.map (· ++ ['\n'])).flatten = lines.map (· ++ ['\n']) := by
    refine Text.lines_flatten (fun line hline => .inl (hended line hline)) fun line hline => ?_
    exact hended line (mem_of_mem_dropLast hline)
  have htrim : (Text.lines (lines.map (· ++ ['\n'])).flatten).map Text.trim = lines := by
    rw [hlines, map_map]
    refine (map_congr_left fun line hline => ?_).trans (map_id lines)
    obtain ⟨whole, -, rfl⟩ := mem_map.1 (mem_of_mem_written hline)
    exact trim_trim_append_feed whole
  have hcontents : Text.contents (lines.map (· ++ ['\n'])).flatten = lines := by
    rw [Text.contents, hlines, map_map]
    refine (map_congr_left fun line hline => ?_).trans (map_id lines)
    exact Text.content_append_feed (feed_not_mem_of_mem_written hline)
  refine ⟨_, leaves_written uniq text, ?_, ?_⟩
  · have hagain := leaves_written uniq (lines.map (· ++ ['\n'])).flatten
    rwa [htrim, hwritten, written_written] at hagain
  · rw [hcontents]
    exact (stepwise_written uniq.ignoreCase ((Text.lines text).map Text.trim)).tail

end Uniq

namespace Plan

/-- `uniq` takes the white space off its lines and writes the first line of each run of equal
ones, but for a first run of blank lines. -/
theorem effect_uniq {w : World} {file? : Option Text} {input output : Stream} {text : Text}
    (hoffers : w.Offers file?.toList input text) (houtput : output.isWritable = true)
    {flag? : Option Flag} (hflag : ∀ flag ∈ flag?, flag.name = Uniq.ignoreCaseFlag) :
    let effect := (simple (.command .uniq flag?.toList file?.toList)).effect ⟨w, input, output⟩
    let lines := (Text.lines text).map Text.trim
    let firsts := Uniq.firsts flag?.isSome lines
    effect.result = .ok 0 ∧ effect.world = w ∧ ∃ written : List Text,
      effect.scene.output = output.pour (written.map (· ++ ['\n'])).flatten ∧
      (∀ line ∈ written, '\n' ∉ line) ∧
      written = (if lines.head? = some [] then firsts.tail else firsts) ∧
      (written = firsts ↔ lines.head? ≠ some []) := by
  intro effect lines firsts
  have hcheck : Invocation.check .uniq ⟨some flag?.toList, some file?.toList, true⟩ w =
      .ok (.uniq ⟨flag?.isSome, file?⟩) := by
    cases flag? with
    | none => cases file? <;> rfl
    | some flag =>
        obtain ⟨name, value, help⟩ := flag
        obtain rfl : name = Uniq.ignoreCaseFlag := hflag _ rfl
        cases file? <;> rfl
  obtain ⟨input', heffect⟩ : ∃ input', effect = _ := effect_of_writes hoffers.isConnected
    houtput hcheck (Uniq.writes_run hoffers flag?.isSome)
  rw [heffect]
  refine ⟨rfl, rfl, Uniq.written flag?.isSome lines, ?_, fun line hline => ?_,
    Uniq.written_eq _ _, Uniq.written_eq_firsts _ _⟩
  · exact congrArg output.pour (Uniq.printedAlong_added _ [] _)
  · exact Uniq.feed_not_mem_of_mem_written hline

/-- The first of some lines stands for all that differ from it in case or in the white space
around them. -/
theorem effect_uniq_ignoring_case :
    let text := "b\nB \n\n \n b".toList
    let flag? := some (⟨Uniq.ignoreCaseFlag, .bool true, []⟩ : Flag)
    let effect := (simple (.command .uniq flag?.toList [])).effect (.ofInput text)
    ((Text.lines text).map Text.trim).head? ≠ some [] ∧ effect.result = .ok 0 ∧
      effect.scene.output.held = "b\n\nb\n".toList := by
  intro text flag? effect
  have hstart : ((Text.lines text).map Text.trim).head? ≠ some [] := by decide
  have hoffers : World.Offers ⟨.dir [], [], []⟩ (none : Option Text).toList (.ofText text) text :=
    .input (by decide)
  have hflag : ∀ flag ∈ flag?, flag.name = Uniq.ignoreCaseFlag := by simp [flag?]
  obtain ⟨hresult, -, written, houtput, -, -, hiff⟩ :=
    effect_uniq hoffers (rfl : Stream.empty.isWritable = true) hflag
  obtain rfl : written = [['b'], [], ['b']] := (hiff.2 hstart).trans (by decide)
  have heffect : effect = (simple (.command .uniq flag?.toList (none : Option Text).toList)).effect
      ⟨_, .ofText text, .empty⟩ := rfl
  rw [heffect, houtput]
  exact ⟨hstart, hresult, by decide⟩

/-- Blank lines at the start are lost. -/
theorem effect_uniq_blank_start :
    let text := "\na\n".toList
    ((simple (.command .uniq [] [])).effect (.ofInput text)).scene.output.held = "a\n".toList ∧
      Uniq.firsts false ((Text.lines text).map Text.trim) = [[], ['a']] :=
  ⟨by cbv, by decide⟩

end Plan

end CommandShell

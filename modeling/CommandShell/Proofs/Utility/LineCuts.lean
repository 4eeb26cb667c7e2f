import CommandShell.Proofs.Utility.Counting

/-!
# The first lines and the last ones

`head` and `tail` together write a whole file if `tail` is asked for as many lines as `head` leaves
out. A number below zero says how many lines `head` leaves out; `tail` takes it for the number
without its sign. No number is too large or too small for either.
-/

namespace CommandShell

open CommandShell.Action

private theorem Text.length_lines_le_append (a b : Text) : (lines a).length ≤
    (lines (a ++ b)).length := by
  have happend := length_lines_append a b
  split_ifs at happend with hjoins
  · have hpos : 0 < (lines b).length := List.length_pos_iff.2 fun hnil =>
      hjoins.2 (by rw [← flatten_lines b, hnil]; rfl)
    omega
  · omega

theorem Head.select_append {lines : List Text} {first last : Int}
    (h : min (if first < 0 then lines.length + first else first).toNat lines.length =
      lines.length - last.natAbs) : select first lines ++ Tail.select last lines = lines := by
  rw [select, Tail.select, List.take_eq_take_min, h, List.take_append_drop]

theorem Head.length_lines_select_le (count : Int) (text : Text) :
    (Text.lines (select count (Text.lines text)).flatten).length ≤ (Text.lines text).length := by
  have hprefix : select count (Text.lines text) <+: Text.lines text := List.take_prefix _ _
  obtain ⟨rest, hrest⟩ := hprefix
  have htext : (select count (Text.lines text)).flatten ++ rest.flatten = text := by
    rw [← List.flatten_append, hrest, Text.flatten_lines]
  conv_rhs => rw [← htext]
  exact Text.length_lines_le_append _ _

private theorem Tail.run_neg (count : Int) (files : List Text) :
    run ⟨-count, files⟩ = run ⟨count, files⟩ := by
  simp only [run, select, Int.natAbs_neg]

namespace Plan

/-- What is written if all that is done with the lines of a file is to select some of them. -/
theorem effect_selecting {w : World} {file text : Text} {input output : Stream}
    (hfile : w.read? file = some text) (hinput : input.isConnected = true)
    (houtput : output.isWritable = true) {utility : Utility} {flags : List Flag}
    (invocation : Invocation) {refusal : Complaint} (select : List Text → List Text)
    (hcheck : Invocation.check utility ⟨some flags, some [file], true⟩ w = .ok invocation)
    (hrun : invocation.run = do writeEach (select (← fileOrInputLines [file] refusal))) :
    ∃ input', (simple (.command utility flags [file])).effect ⟨w, input, output⟩ =
      ⟨.ok 0, ⟨w, input', output.pour (select (Text.lines text)).flatten⟩, w⟩ := by
  have hwrites := writes_selected hfile refusal select input
  rw [← hrun] at hwrites
  exact effect_of_writes hinput houtput hcheck hwrites

/-- What `head` leaves out, `tail` writes after it. -/
theorem effect_head_tail {w : World} {file text : Text} {input output : Stream}
    (hfile : w.read? file = some text) (hinput : input.isConnected = true)
    (houtput : output.isWritable = true) (help : Text) :
    let ran utility count output :=
      (simple (.command utility [⟨lineCountFlag, .int count, help⟩] [file])).effect
        ⟨w, input, output⟩
    let Splits count count' :=
      let first := ran .head count output
      let second := ran .tail count' first.scene.output
      first.result = .ok 0 ∧ second.result = .ok 0 ∧ second.scene.output = output.pour text
    let length : Int := (Text.lines text).length
    (∀ k ≥ 1, Splits (-k) k) ∧ (∀ n ≥ 0, Splits n (max (length - n) 0)) ∧
      (∀ k, ran .tail (-k) output = ran .tail k output) ∧
      ∀ count, (ran .head count output).result = .ok 0 ∧ ∃ written,
        (ran .head count output).scene.output = output.pour written ∧
          (Text.lines written).length ≤ length := by
  intro ran Splits length
  have hhead : ∀ count, ∃ input', ran .head count output = _ := fun count =>
    effect_selecting hfile hinput houtput (.head ⟨count, [file]⟩) (Head.select count) rfl rfl
  have hsplits : ∀ first last, Head.select first (Text.lines text) ++
      Tail.select last (Text.lines text) = Text.lines text → Splits first last := by
    intro first last hselect
    obtain ⟨_, hfirst⟩ := hhead first
    obtain ⟨_, hlast⟩ : ∃ input', ran .tail last (output.pour _) = _ :=
      effect_selecting hfile hinput (Stream.isWritable_pour houtput _) (.tail ⟨last, [file]⟩)
        (Tail.select last) rfl rfl
    dsimp only [Splits]
    rw [hfirst, hlast]
    refine ⟨rfl, rfl, ?_⟩
    dsimp only
    rw [Stream.pour_pour houtput, ← List.flatten_append, hselect, Text.flatten_lines]
  refine ⟨fun k hk => ?_, fun n hn => ?_, fun k => ?_, fun count => ?_⟩
  · refine hsplits _ _ (Head.select_append ?_)
    split_ifs <;> omega
  · refine hsplits _ _ (Head.select_append ?_)
    split_ifs <;> omega
  · have htail : ∀ count, ran .tail count output =
        let tail := (Tail.run ⟨count, [file]⟩).on ⟨w, input, output⟩
        ⟨tail.1.map fun _ => 0, tail.2, tail.2.world⟩ :=
      fun count => @effect_of_accepted .tail _ _ w _ _ hinput houtput (.tail ⟨count, [file]⟩) rfl
    rw [htail, htail, Tail.run_neg]
  · obtain ⟨_, hcount⟩ := hhead count
    rw [hcount]
    exact ⟨rfl, _, rfl, Int.ofNat_le.2 (Head.length_lines_select_le count text)⟩

/-- All lines but the last one, which has no line feed, and that line. -/
theorem effect_head_tail_unended :
    let w : World := ⟨.dir [(['f'], .file "a\nb\nc".toUTF8)], [], []⟩
    let ran utility count output :=
      (simple (.command utility [⟨lineCountFlag, .int count, []⟩] [['f']])).effect
        ⟨w, .empty, output⟩
    w.read? ['f'] = some "a\nb\nc".toList ∧
      (ran .tail 1 (ran .head (-1) .empty).scene.output).scene.output.held =
        "a\nb\nc".toList ∧
      (ran .tail 0 (ran .head 7 .empty).scene.output).scene.output.held = "a\nb\nc".toList := by
  intro w ran
  have hfile : w.read? ['f'] = some "a\nb\nc".toList := by cbv
  obtain ⟨hneg, hnat, -⟩ := effect_head_tail hfile (rfl : Stream.empty.isConnected = true)
    (rfl : Stream.empty.isWritable = true) []
  obtain ⟨-, -, hone⟩ := hneg 1 le_rfl
  obtain ⟨-, -, hall⟩ := hnat 7 (by decide)
  exact ⟨hfile, congrArg Stream.held hone, congrArg Stream.held hall⟩

end Plan

end CommandShell

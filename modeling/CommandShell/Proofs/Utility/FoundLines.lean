import CommandShell.Proofs.Utility.Counting

/-!
# Found lines

With several files, `grep` writes every line that it finds after the name of its file. It adds no
line feeds. So a line that lacks one goes on in what is found next, and what is written has one
line for each line found only if no line but the last one found lacks its line feed.
-/

namespace CommandShell

open List

namespace Text

variable {list : List Text} {line name : Text}

theorem IsLine.ne_nil (h : IsLine line) : line ≠ [] := by
  rcases h with ⟨x, -, rfl⟩ | ⟨-, hne⟩
  · simp
  · exact hne

theorem IsLine.isEnded (h : IsLine line) (hunended : ¬ Unended line) : IsEnded line := by
  rcases h with hended | ⟨hfeed, hne⟩
  · exact hended
  · exact absurd ⟨hne, fun hlast => hfeed (mem_of_getLast? hlast)⟩ hunended

theorem IsLine.append (h : IsLine line) (hname : '\n' ∉ name) : IsLine (name ++ line) := by
  rcases h with ⟨x, hx, rfl⟩ | ⟨hfeed, hne⟩
  · exact .inl ⟨name ++ x, by simp [hname, hx], by simp⟩
  · exact .inr ⟨by simp [hname, hfeed], by simp [hne]⟩

theorem unended_append_iff (hne : line ≠ []) : Unended (name ++ line) ↔ Unended line := by
  simp [Unended, hne]

private theorem joints_eq_zero_iff (h : ∀ line ∈ list, line ≠ []) :
    joints JoinsLine list = 0 ↔ ∀ line ∈ list.dropLast, ¬ Unended line := by
  induction list with
  | nil => simp [joints]
  | cons line later ih =>
    obtain ⟨-, hlater⟩ := forall_mem_cons.1 h
    cases later with
    | nil => simp [joints, JoinsLine]
    | cons next rest =>
      have hjoins : JoinsLine line (next :: rest).flatten ↔ Unended line :=
        and_iff_left (by simp [hlater next (by simp)])
      rw [joints, Nat.add_eq_zero_iff, ih hlater, if_congr hjoins rfl rfl, dropLast_cons_cons,
        forall_mem_cons]
      simp

theorem length_lines_flatten_iff (h : ∀ line ∈ list, IsLine line) :
    (lines list.flatten).length = list.length ↔ ∀ line ∈ list.dropLast, ¬ Unended line := by
  have hsum : (list.map fun line => (lines line).length).sum = list.length := by
    rw [map_congr_left fun line hmem => congrArg List.length (h line hmem).lines]
    simp
  have hjoints := add_joints (fun s => (lines s).length) rfl length_lines_append list
  rw [← joints_eq_zero_iff fun line hmem => (h line hmem).ne_nil]
  omega

end Text

namespace Grep

variable {w : World} {files texts : List Text} {pattern : Pattern}

def label (hit : Text × Text) : Text := hit.1 ++ ':' :: hit.2

def found (pattern : Pattern) (files texts : List Text) : List (Text × Text) :=
  (files.zip texts).flatMap fun (file, text) =>
    ((Text.lines text).filter pattern.regex.occursIn).map (Prod.mk file)

theorem isLine_of_mem_found {hit : Text × Text} (h : hit ∈ found pattern files texts) :
    Text.IsLine hit.2 := by
  obtain ⟨⟨file, text⟩, -, hmem⟩ := mem_flatMap.1 h
  obtain ⟨line, hline, rfl⟩ := mem_map.1 hmem
  exact Text.isLine_of_mem_lines (mem_filter.1 hline).1

private theorem writes_search {grep : Grep} (hseveral : 1 < grep.files.length)
    (h : List.Forall₂ (fun file text => w.read? file = some text) files texts) (input : Stream) :
    Action.Writes (files.forM fun file => do
      let lines ← Action.readFileLines file
      Action.writeEach ((lines.filter grep.selects).map (grep.lineOf file))) w input
        (.ok ((found grep.pattern files texts).map label).flatten) := by
  induction h generalizing input with
  | nil => exact (Action.prints_pure ()).writes _ _
  | @cons file text files texts hfile _ ih =>
    have hline : grep.lineOf file = label ∘ Prod.mk file := funext fun line => if_pos hseveral
    have hfound : (found grep.pattern (file :: files) (text :: texts)).map label =
        ((Text.lines text).filter grep.selects).map (grep.lineOf file) ++
          (found grep.pattern files texts).map label := by
      rw [hline, ← map_map, ← map_append]
      rfl
    rw [hfound, flatten_append]
    refine Action.Writes.append ?_ ih
    exact (Action.reads_readFileLines hfile input).writes_bind
      ((Action.prints_writeEach _).writes _ _)

theorem writes_run_files (hseveral : 1 < files.length)
    (h : List.Forall₂ (fun file text => w.read? file = some text) files texts) (input : Stream) :
    (run ⟨pattern, files⟩).Writes w input (.ok ((found pattern files texts).map label).flatten) := by
  rw [run, if_neg (by simpa using ne_nil_of_length_pos (Nat.zero_lt_of_lt hseveral))]
  exact writes_search hseveral h input

section Labels

variable {hits : List (Text × Text)} (hlines : ∀ hit ∈ hits, Text.IsLine hit.2)
  (hnames : ∀ hit ∈ hits, '\n' ∉ hit.1)
include hlines hnames

theorem isLine_of_mem_label : ∀ line ∈ hits.map label, Text.IsLine line := by
  intro line hmem
  obtain ⟨hit, hhit, rfl⟩ := mem_map.1 hmem
  rw [label, append_cons]
  exact (hlines hit hhit).append (by simpa using hnames hit hhit)

theorem length_lines_label_iff : (Text.lines (hits.map label).flatten).length = hits.length ↔
    ∀ hit ∈ hits.dropLast, ¬ Text.Unended hit.2 := by
  rw [← length_map label, Text.length_lines_flatten_iff (isLine_of_mem_label hlines hnames),
    ← map_dropLast, forall_mem_map]
  refine forall₂_congr fun hit hmem => not_congr ?_
  rw [label, append_cons, Text.unended_append_iff]
  exact (hlines hit (mem_of_mem_dropLast hmem)).ne_nil

omit hnames in
/-- What is written shows the lines found one by one exactly if no name holds a line feed and no
line but the last one lacks its own. -/
theorem contents_label_iff :
    Text.contents (hits.map label).flatten =
        hits.map (fun hit => label (hit.1, Text.content hit.2)) ↔
      (∀ hit ∈ hits, '\n' ∉ hit.1) ∧ ∀ hit ∈ hits.dropLast, ¬ Text.Unended hit.2 := by
  constructor
  · intro h
    have hnames : ∀ hit ∈ hits, '\n' ∉ hit.1 := by
      intro hit hmem hfeed
      have hshown : label (hit.1, Text.content hit.2) ∈ Text.contents _ :=
        h ▸ mem_map_of_mem hmem
      obtain ⟨line, -, hline⟩ := mem_map.1 hshown
      exact Text.feed_not_mem_content line (hline ▸ mem_append_left _ hfeed)
    refine ⟨hnames, (length_lines_label_iff hlines hnames).1 ?_⟩
    simpa [Text.contents] using congrArg List.length h
  · rintro ⟨hnames, hended⟩
    have hisLine := isLine_of_mem_label hlines hnames
    have hlength := (length_lines_label_iff hlines hnames).2 hended
    rw [← length_map label, Text.length_lines_flatten_iff hisLine] at hlength
    rw [Text.contents, Text.lines_flatten hisLine fun line hmem =>
      (hisLine line (mem_of_mem_dropLast hmem)).isEnded (hlength line hmem), map_map]
    refine map_congr_left fun hit hmem => ?_
    change Text.content (hit.1 ++ ([':'] ++ hit.2)) = _
    rw [Text.content_append (hnames hit hmem), Text.content_append (by simp)]
    rfl

end Labels

end Grep

namespace Plan

/-- With several files, the lines found can be told apart in what `grep` writes exactly if no name
holds a line feed and no line but the last one found lacks its own. -/
theorem effect_grep_files {w : World} {files texts : List Text} {expression : Text}
    {pattern : Pattern} {flags : List Flag} {input output : Stream}
    (hpattern : Pattern.ofText expression = .ok pattern) (hseveral : 1 < files.length)
    (hfiles : List.Forall₂ (fun file text => w.read? file = some text) files texts)
    (hinput : input.isConnected = true) (houtput : output.isWritable = true) :
    let effect := (simple (.command .grep flags (expression :: files))).effect ⟨w, input, output⟩
    let found := Grep.found pattern files texts
    ∃ written, effect.result = .ok 0 ∧ effect.world = w ∧
      effect.scene.output = output.pour written ∧ written = (found.map Grep.label).flatten ∧
      (Text.contents written = found.map (fun hit => Grep.label (hit.1, Text.content hit.2)) ↔
        (∀ hit ∈ found, '\n' ∉ hit.1) ∧ ∀ hit ∈ found.dropLast, ¬ Text.Unended hit.2) ∧
      ((∀ hit ∈ found, '\n' ∉ hit.1) →
        ((Text.lines written).length = found.length ↔
          ∀ hit ∈ found.dropLast, ¬ Text.Unended hit.2)) := by
  intro effect found
  have hcheck : Invocation.check .grep ⟨some flags, some (expression :: files), true⟩ w =
      .ok (.grep ⟨pattern, files⟩) := by
    change (Invocation.grep <$> Grep.check ⟨some flags, some (expression :: files), true⟩) = _
    dsimp only [Grep.check, Arguments.operands, bind, Except.bind, pure, Except.pure]
    rw [hpattern]
    rfl
  obtain ⟨input', heffect⟩ : ∃ input', effect = _ := effect_of_writes hinput houtput hcheck
    (Grep.writes_run_files hseveral hfiles input)
  have hlines : ∀ hit ∈ found, Text.IsLine hit.2 := fun hit => Grep.isLine_of_mem_found
  rw [heffect]
  exact ⟨_, rfl, rfl, rfl, rfl, Grep.contents_label_iff hlines,
    Grep.length_lines_label_iff hlines⟩

/-- Only the last line found has no line feed. -/
theorem effect_grep_ended :
    let w : World := ⟨.dir [(['f'], .file "ab\nb\na\n".toUTF8), (['g'], .file "b".toUTF8),
      (['h'], .file "a".toUTF8)], [], []⟩
    let effect := (simple (.command .grep [] [['a'], ['f'], ['g'], ['h']])).effect
      ⟨w, .empty, .empty⟩
    ∃ written, effect.result = .ok 0 ∧ effect.scene.output.held = written ∧
      Text.contents written = ["f:ab".toList, "f:a".toList, "h:a".toList] ∧
      (Text.lines written).length = 3 := by
  intro w effect
  have hfiles : List.Forall₂ (fun file text => w.read? file = some text) [['f'], ['g'], ['h']]
      ["ab\nb\na\n".toList, ['b'], ['a']] :=
    .cons (by cbv) (.cons (by cbv) (.cons (by cbv) .nil))
  have hpattern : ∃ pattern, Pattern.ofText ['a'] = .ok pattern ∧
      Grep.found pattern [['f'], ['g'], ['h']] ["ab\nb\na\n".toList, ['b'], ['a']] =
        [(['f'], "ab\n".toList), (['f'], "a\n".toList), (['h'], ['a'])] := ⟨_, rfl, by cbv⟩
  obtain ⟨pattern, hpattern, hfound⟩ := hpattern
  obtain ⟨written, hresult, -, houtput, hwritten, hcontents, hlength⟩ :=
    effect_grep_files hpattern (by decide) hfiles (rfl : Stream.empty.isConnected = true)
      (rfl : Stream.empty.isWritable = true)
  rw [hfound] at hwritten hcontents hlength
  refine ⟨written, hresult, ?_, hcontents.2 (by decide), (hlength (by decide)).2 (by decide)⟩
  rw [houtput, hwritten]
  decide

/-- A line that lacks its line feed and the next line found make one line. -/
theorem effect_grep_merged :
    let w : World := ⟨.dir [(['f'], .file "a".toUTF8), (['g'], .file "a\n".toUTF8)], [], []⟩
    let effect := (simple (.command .grep [] [['a'], ['f'], ['g']])).effect ⟨w, .empty, .empty⟩
    effect.result = .ok 0 ∧ effect.scene.output.held = "f:ag:a\n".toList ∧
      Text.contents effect.scene.output.held = ["f:ag:a".toList] :=
  ⟨by cbv, by cbv, by cbv⟩

end Plan

end CommandShell

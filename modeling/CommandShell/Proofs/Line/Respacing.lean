import CommandShell.Proofs.Chart.BlankTexts
import CommandShell.Proofs.Line.Pipelines
import CommandShell.Proofs.Line.PlainCommands
import CommandShell.Proofs.Substitution.Quoting

/-!
# Lines with other blanks

A run of blanks parts what stands around it if it makes one token by itself. In a line without
quotes and backquotes such runs can be made longer or shorter, and put at the end or left out
there, and the line is planned as before. At the beginning of a line they can be put or left out
before a redirect. Before a word they make the line unreadable, and a run that begins or ends with
a tab may be taken for a part of the word next to it.
-/

namespace CommandShell

open Line List

variable {ts : List Token}

namespace Line

/-! ## Plans do not depend on the texts of blanks -/

section Blur

variable {κ : Type} (catalog : Catalog κ) (w : World)

theorem Word.blur_of_unquoted (word : Word) (h : Unquoted word.tree.tokens) :
    word.blur = word := by
  induction word.plain h.1 with
  | chars text | dash => rfl
  | charsBefore _ _ ih | dashBefore _ ih => rw [blur, ih (Unquoted.tail (by simpa using h))]
  | strings run hrun => exact absurd h (not_unquoted_strings run)
  | stringBefore first _ _ _ | stringAfter _ _ last _ _ =>
    simp [not_unquoted_quoted] at h

theorem Redirect.wrap_blur (r : Redirect) (h : Unquoted r.tree.tokens) (simple : Simple κ) :
    Redirect.wrap simple r.blur = Redirect.wrap simple r := by
  cases r with
  | mk direction gap target =>
    simp only [Redirect.tree, Tree.tokens, Tree.tokensOf, Tree.tokensOf_append, append_nil,
      unquoted_append] at h
    rw [Redirect.blur, target.blur_of_unquoted h.2]
    cases direction <;> rfl

theorem Opening.foldl_wrap_blur (o : Opening) (h : Unquoted (Tree.tokensOf o.trees))
    (simple : Simple κ) :
    o.blur.redirects.foldl Redirect.wrap simple = o.redirects.foldl Redirect.wrap simple := by
  match o with
  | .done => rfl
  | .space t rest =>
    rw [Opening.trees, Tree.tokensOf, unquoted_append] at h
    exact rest.foldl_wrap_blur h.2 simple
  | .redirect first rest =>
    rw [Opening.trees, Tree.tokensOf, unquoted_append] at h
    simp only [Opening.blur, Opening.redirects, foldl_cons, first.wrap_blur h.1]
    exact rest.foldl_wrap_blur h.2 _

theorem Ending.foldl_wrap_blur (e : Ending) (h : Unquoted (Tree.tokensOf e.trees))
    (simple : Simple κ) :
    e.blur.redirects.foldl Redirect.wrap simple = e.redirects.foldl Redirect.wrap simple := by
  match e with
  | .done => rfl
  | .redirect spaces first rest =>
    rw [Ending.trees, Tree.tokensOf_append, Tree.tokensOf, unquoted_append, unquoted_append] at h
    simp only [Ending.blur, Ending.redirects, foldl_cons, first.wrap_blur h.2.1]
    exact rest.foldl_wrap_blur h.2.2 _
  | .modifier t first rest =>
    rw [Ending.trees, Tree.tokensOf, Tree.tokensOf, unquoted_append, unquoted_append] at h
    exact rest.foldl_wrap_blur h.2.2 simple

theorem Modifier.blur_of_unquoted (m : Modifier) (h : Unquoted m.tree.tokens) : m.blur = m := by
  cases m with
  | flag name =>
    simp only [Modifier.tree, Tree.tokens, Tree.tokensOf, append_nil, unquoted_append] at h
    rw [Modifier.blur, name.blur_of_unquoted h.2]
  | arg value =>
    simp only [Modifier.tree, Tree.tokens, Tree.tokensOf, append_nil] at h
    rw [Modifier.blur, value.blur_of_unquoted h]

theorem Ending.modifiers_blur (e : Ending) (h : Unquoted (Tree.tokensOf e.trees)) :
    e.blur.modifiers = e.modifiers := by
  match e with
  | .done => rfl
  | .redirect spaces first rest =>
    rw [Ending.trees, Tree.tokensOf_append, Tree.tokensOf, unquoted_append, unquoted_append] at h
    exact rest.modifiers_blur h.2.2
  | .modifier t first rest =>
    rw [Ending.trees, Tree.tokensOf, Tree.tokensOf, unquoted_append, unquoted_append] at h
    rw [Ending.blur, Ending.modifiers, Ending.modifiers, first.blur_of_unquoted h.2.1,
      rest.modifiers_blur h.2.2]

theorem Command.plan_blur (x : Command) (h : Unquoted x.tree.tokens) :
    x.blur.plan catalog w = x.plan catalog w := by
  cases x with
  | mk opening name ending =>
    simp only [Command.tree, Tree.tokens, Tree.tokensOf, Tree.tokensOf_append, append_nil,
      unquoted_append] at h
    simp only [Command.blur, Command.plan, name.blur_of_unquoted h.2.1, foldl_append,
      opening.foldl_wrap_blur h.1, ending.foldl_wrap_blur h.2.2, ending.modifiers_blur h.2.2]

theorem unquoted_of_joined {rule : Rule} {separator : Token} {before after : Option Text}
    {left right : Tree}
    (h : Unquoted (Tree.node rule (left :: jointLeaves separator before after ++ [right])).tokens) :
    Unquoted left.tokens ∧ Unquoted right.tokens := by
  simp only [Tree.tokens, cons_append, Tree.tokensOf, Tree.tokensOf_append, append_nil,
    unquoted_append] at h
  exact ⟨h.1, h.2.2⟩

theorem Pipe.plan_blur (p : Pipe) (h : Unquoted p.tree.tokens) :
    p.blur.plan catalog w = p.plan catalog w := by
  match p with
  | .pair left before after right =>
    obtain ⟨hleft, hright⟩ := unquoted_of_joined h
    simp only [Pipe.blur, Pipe.plan, left.plan_blur catalog w hleft,
      right.plan_blur catalog w hright]
  | .more left before after right =>
    obtain ⟨hleft, hright⟩ := unquoted_of_joined h
    simp only [Pipe.blur, Pipe.plan, left.plan_blur hleft, right.plan_blur catalog w hright]

theorem Sequence.plan_blur (s : Sequence) (h : Unquoted s.tree.tokens) :
    s.blur.plan catalog w = s.plan catalog w := by
  match s with
  | .commands left before after right
  | .pipeCommand left before after right
  | .pipes left before after right
  | .commandPipe left before after right =>
    obtain ⟨hleft, hright⟩ := unquoted_of_joined h
    simp only [Sequence.blur, Sequence.plan, left.plan_blur catalog w hleft,
      right.plan_blur catalog w hright]
  | .more left before after right =>
    obtain ⟨hleft, hright⟩ := unquoted_of_joined h
    simp only [Sequence.blur, Sequence.plan, left.plan_blur hleft,
      right.plan_blur catalog w hright]

theorem CommandLine.plan_blur (l : CommandLine) (h : Unquoted l.tree.tokens) :
    l.blur.plan catalog w = l.plan catalog w := by
  cases l <;> simp only [CommandLine.tree, Tree.tokens, Tree.tokensOf, append_nil] at h
  case command only => exact only.plan_blur catalog w h
  case pipe all => exact all.plan_blur catalog w h
  case sequence all => exact all.plan_blur catalog w h

def tokensPlan (ts : List Token) : Checked (Plan κ) :=
  match Script.ofTokens? ts with
  | none => Checked.complain .badLine
  | some script => script.plan catalog w

theorem plan_eq_tokensPlan (line : Text) :
    plan catalog w line = tokensPlan catalog w (Token.ofLine line) := by
  unfold plan Script.ofLine tokensPlan Script.ofLine?
  cases Script.ofTokens? (Token.ofLine line) <;> rfl

theorem Script.plan_blur (script : Script) (h : Unquoted script.tree.tokens) :
    script.blur.plan catalog w = script.plan catalog w := by
  obtain ⟨line, trailing⟩ := script
  cases line with
  | none => rfl
  | some line =>
    simp only [Script.tree, Tree.tokens, cons_append, Tree.tokensOf, unquoted_append] at h
    exact line.plan_blur catalog w h.1

theorem tokensPlan_blur (h : Unquoted ts) :
    tokensPlan catalog w (ts.map Token.blur) = tokensPlan catalog w ts := by
  unfold tokensPlan
  rw [Script.ofTokens?_blur]
  rcases hscript : Script.ofTokens? ts with _ | script
  · rfl
  · exact script.plan_blur catalog w (Script.tokens_of_ofTokens? hscript ▸ h)

end Blur

/-! ## Blanks at the end -/

theorem endsSolid_of_mem_commandLine {l : CommandLine} (h : (l, 0) ∈ (Row.ofTokens ts).commandLine) :
    EndsSolid ts :=
  Cut.endsSolid (reads_of_mem_commandLine h) fun _ _ hc => PartReads.endsSolid hc

theorem EndsSolid.append_ne_spaces (h : EndsSolid ts) (rest : List Token) (spaces : List Text) :
    ts ++ rest ≠ spaces.map .space := by
  obtain ⟨front, token, rfl, htoken⟩ := h
  intro heq
  have hspace : token ∈ spaces.map Token.space := heq ▸ by simp
  obtain ⟨text, -, rfl⟩ := mem_map.mp hspace
  cases htoken

theorem Script.line_eq_some_iff (hts : EndsSolid ts) (spaces : List Text) (l : CommandLine) :
    (∃ script, Script.ofTokens? (ts ++ spaces.map .space) = some script ∧ script.line = some l) ↔
      (l, 0) ∈ (Row.ofTokens ts).commandLine := by
  have hread : ∀ {script : Script} {l : CommandLine},
      Script.ofTokens? (ts ++ spaces.map .space) = some script → script.line = some l →
        (l, 0) ∈ (Row.ofTokens ts).commandLine := by
    intro script l hscript hline
    obtain ⟨taken, htaken, hmem⟩ := Script.mem_commandLine hscript hline
    rwa [eq_of_append_spaces hts.trailingBlanks_eq
      (endsSolid_of_mem_commandLine hmem).trailingBlanks_eq htaken]
  constructor
  · rintro ⟨script, hscript, hline⟩
    exact hread hscript hline
  · intro h
    obtain ⟨script, hscript, hsome⟩ := Script.exists_of_covers
      (fun rest => ⟨l, mem_commandLine_append.mpr h⟩ : Covers (·.commandLine) ts) spaces
    obtain ⟨l', hl'⟩ := Option.isSome_iff_exists.mp hsome
    exact ⟨script, hscript, eq_of_mem_commandLine h (hread hscript hl') ▸ hl'⟩

section Trailing

variable {κ : Type} (catalog : Catalog κ) (w : World)

theorem tokensPlan_spaces (spaces : List Text) :
    tokensPlan catalog w (spaces.map .space) = Checked.complain .noCommand := by
  obtain ⟨script, hscript⟩ := Script.exists_of_spaces spaces
  cases hline : script.line with
  | none => simp only [tokensPlan, hscript, Script.plan, hline]
  | some l =>
    obtain ⟨taken, htaken, hmem⟩ := Script.mem_commandLine hscript hline
    exact absurd htaken.symm ((endsSolid_of_mem_commandLine hmem).append_ne_spaces _ spaces)

theorem tokensPlan_of_mem {l : CommandLine} (h : (l, 0) ∈ (Row.ofTokens ts).commandLine)
    (spaces : List Text) : tokensPlan catalog w (ts ++ spaces.map .space) = l.plan catalog w := by
  obtain ⟨script, hscript, hline⟩ :=
    (Script.line_eq_some_iff (endsSolid_of_mem_commandLine h) spaces l).mpr h
  simp only [tokensPlan, hscript, Script.plan, hline]

theorem tokensPlan_of_not_mem (hts : EndsSolid ts) (h : ∀ l, (l, 0) ∉ (Row.ofTokens ts).commandLine)
    (spaces : List Text) :
    tokensPlan catalog w (ts ++ spaces.map .space) = Checked.complain .badLine := by
  rcases hscript : Script.ofTokens? (ts ++ spaces.map .space) with _ | script
  · rw [tokensPlan, hscript]
  · cases hline : script.line with
    | none =>
      exact absurd (Script.eq_spaces_of_ofTokens? hscript hline) (hts.append_ne_spaces _ _)
    | some l =>
      exact absurd ((Script.line_eq_some_iff hts spaces l).mp ⟨script, hscript, hline⟩) (h l)

private theorem tokensPlan_append_of_endsSolid (hts : EndsSolid ts) (spaces : List Text) :
    tokensPlan catalog w (ts ++ spaces.map .space) = tokensPlan catalog w ts := by
  by_cases h : ∃ l, (l, 0) ∈ (Row.ofTokens ts).commandLine
  · obtain ⟨l, hl⟩ := h
    rw [tokensPlan_of_mem catalog w hl, ← tokensPlan_of_mem catalog w hl [], map_nil,
      append_nil]
  · rw [tokensPlan_of_not_mem catalog w hts (not_exists.mp h),
      ← tokensPlan_of_not_mem catalog w hts (not_exists.mp h) [], map_nil, append_nil]

@[simp] theorem tokensPlan_append_spaces (ts : List Token) (spaces : List Text) :
    tokensPlan catalog w (ts ++ spaces.map .space) = tokensPlan catalog w ts := by
  induction ts using List.reverseRecOn generalizing spaces with
  | nil => rw [nil_append, tokensPlan_spaces, ← tokensPlan_spaces catalog w [], map_nil]
  | append_singleton ts token ih =>
    cases token with
    | space text =>
      have hfront := ih [text]
      rw [map_singleton] at hfront
      rw [← append_cons, ← map_cons, ih, hfront]
    | _ => exact tokensPlan_append_of_endsSolid catalog w ⟨ts, _, rfl, rfl⟩ spaces

end Trailing

/-! ## Blanks at the beginning -/

section Indent

variable (text : Text)

def Pipe.indent : Pipe → Pipe
  | .pair left before after right => .pair (left.indent text) before after right
  | .more left before after right => .more left.indent before after right

def Sequence.indent : Sequence → Sequence
  | .commands left before after right => .commands (left.indent text) before after right
  | .pipeCommand left before after right => .pipeCommand (left.indent text) before after right
  | .pipes left before after right => .pipes (left.indent text) before after right
  | .commandPipe left before after right => .commandPipe (left.indent text) before after right
  | .more left before after right => .more left.indent before after right

def CommandLine.indent : CommandLine → CommandLine
  | .command only => .command (only.indent text)
  | .pipe all => .pipe (all.indent text)
  | .sequence all => .sequence (all.indent text)

theorem Pipe.extend_indent (front : Pipe) (joints : List (Joint Command)) :
    (front.indent text).extend joints = (front.extend joints).indent text :=
  foldl_hom (Pipe.indent text) fun _ _ => rfl

theorem Sequence.extend_indent (front : Sequence) (joints : List (Joint Command)) :
    (front.indent text).extend joints = (front.extend joints).indent text :=
  foldl_hom (Sequence.indent text) fun _ _ => rfl

open Readings

theorem readPipe_indent (chart : Chart) (command : Readings Command) :
    readPipe chart (command.as (Command.indent text)) =
      (readPipe chart command).as (Pipe.indent text) := by
  simp only [readPipe, andThen_as, as_andThen, as_as, ← Pipe.extend_indent]
  rfl

theorem readSequence_indent (chart : Chart) (command : Readings Command) (pipe : Readings Pipe) :
    readSequence chart (command.as (Command.indent text)) (pipe.as (Pipe.indent text)) =
      (readSequence chart command pipe).as (Sequence.indent text) := by
  simp only [readSequence, andThen_as, as_andThen, as_append, as_as, ← Sequence.extend_indent]
  rfl

theorem readCommandLine_indent (command : Readings Command) (pipe : Readings Pipe)
    (sequence : Readings Sequence) :
    readCommandLine (command.as (Command.indent text)) (pipe.as (Pipe.indent text))
        (sequence.as (Sequence.indent text)) =
      (readCommandLine command pipe sequence).as (CommandLine.indent text) := by
  simp only [readCommandLine, as_append, as_as]
  rfl

end Indent

section Rows

open Readings

variable {token : Token} {ts : List Token}

private theorem lt_of_mem_row {α : Type} {left left' : Nat} (hleft : left ≤ ts.length)
    (kind : Row → Readings α) (hkind : ∀ rest, (kind (Row.ofTokens rest)).Takes rest) {a : α}
    (h : (a, left') ∈ kind ((Chart.ofTokens ts).row left)) : left' < left := by
  have hlength : (ts.drop (ts.length - left)).length = left := by
    rw [length_drop]
    omega
  rw [← hlength, Chart.row_ofTokens (drop_suffix _ _)] at h
  exact hlength ▸ (hkind _).lt_length h

theorem andThen_joints_cons {α β γ : Type} {xs : Readings α} (hxs : xs.Takes (token :: ts))
    (joints : Row → Readings β) (hjoints : ∀ rest, (joints (Row.ofTokens rest)).Takes rest)
    (next : Row → α → β → Readings γ) :
    (xs.andThen fun a left => (joints ((Chart.ofTokens (token :: ts)).row left)).andThen
        fun b left => next ((Chart.ofTokens (token :: ts)).row left) a b) =
      xs.andThen fun a left => (joints ((Chart.ofTokens ts).row left)).andThen
        fun b left => next ((Chart.ofTokens ts).row left) a b := by
  apply andThen_congr
  intro a left hmem
  have hlt := hxs.lt_length hmem
  rw [Chart.row_ofTokens_cons_of_lt hlt]
  apply andThen_congr
  intro b left' hmem'
  have hlt' := lt_of_mem_row (Nat.le_of_lt_succ hlt) joints hjoints hmem'
  rw [Chart.row_ofTokens_cons_of_lt (hlt'.trans hlt)]

theorem readPipe_cons :
    readPipe (Chart.ofTokens (token :: ts)) (Row.ofTokens (token :: ts)).command =
      readPipe (Chart.ofTokens ts) (Row.ofTokens (token :: ts)).command :=
  andThen_joints_cons (Row.sound_ofTokens _).takes.command (·.barCommand)
    (fun rest => (Row.sound_ofTokens rest).takes.barCommand) fun row first joint =>
      row.bars.as (Pipe.extend (.pair first joint.before joint.after joint.right))

private theorem readSequence_cons :
    readSequence (Chart.ofTokens (token :: ts)) (Row.ofTokens (token :: ts)).command
        (Row.ofTokens (token :: ts)).pipe =
      readSequence (Chart.ofTokens ts) (Row.ofTokens (token :: ts)).command
        (Row.ofTokens (token :: ts)).pipe := by
  have hcommand := (Row.sound_ofTokens (token :: ts)).takes.command
  have hpipe := (Row.sound_ofTokens (token :: ts)).takes.pipe
  have hcommands := fun rest => (Row.sound_ofTokens rest).takes.semicolonCommand
  have hpipes := fun rest => (Row.sound_ofTokens rest).takes.semicolonPipe
  unfold readSequence
  dsimp only
  refine congrArg₂ _ (congrArg₂ _ (congrArg₂ _ ?_ ?_) ?_) ?_
  · exact andThen_joints_cons hcommand _ hcommands fun row first joint =>
      row.semicolons.as (Sequence.extend (.commands first joint.before joint.after joint.right))
  · exact andThen_joints_cons hpipe _ hcommands fun row first joint =>
      row.semicolons.as (Sequence.extend (.pipeCommand first joint.before joint.after joint.right))
  · exact andThen_joints_cons hpipe _ hpipes fun row first joint =>
      row.semicolons.as (Sequence.extend (.pipes first joint.before joint.after joint.right))
  · exact andThen_joints_cons hcommand _ hpipes fun row first joint =>
      row.semicolons.as (Sequence.extend (.commandPipe first joint.before joint.after joint.right))

theorem Row.command_space (text : Text) (token : Token) (ts : List Token) :
    (Row.ofTokens (.space text :: token :: ts)).command =
      ((readCommand (Chart.ofTokens ts)
        (redirectedOpenings (Chart.ofTokens ts) (token :: ts)).distinct).distinct).as
          (Command.indent text) := by
  rw [Row.command_cons, Row.word_space, redirectedOpenings_space]
  change (readCommand _ (distinct (_ ++ []))).distinct = _
  rw [append_nil, distinct_as, readCommand_indent, distinct_as,
    readCommand_redirectedOpenings]

theorem Row.commandLine_space (text : Text) (direction : Direction) (ts : List Token) :
    (Row.ofTokens (.space text :: direction.token :: ts)).commandLine =
      (Row.ofTokens (direction.token :: ts)).commandLine.as (CommandLine.indent text) := by
  have hword : (Row.ofTokens (direction.token :: ts)).word .loose = [] := by
    rw [Row.ofTokens_cons]
    cases direction <;> rfl
  have hcommand : (Row.ofTokens (.space text :: direction.token :: ts)).command =
      (Row.ofTokens (direction.token :: ts)).command.as (Command.indent text) := by
    rw [Row.command_space, Row.command_cons direction.token, hword]
    change _ = as _ (distinct (readCommand _ (distinct (_ ++ []))))
    rw [append_nil]
  have hpipe : (Row.ofTokens (.space text :: direction.token :: ts)).pipe =
      (Row.ofTokens (direction.token :: ts)).pipe.as (Pipe.indent text) := by
    rw [Row.pipe_cons, hcommand, readPipe_indent, distinct_as, readPipe_cons, ← Row.pipe_cons]
  have hsequence : (Row.ofTokens (.space text :: direction.token :: ts)).sequence =
      (Row.ofTokens (direction.token :: ts)).sequence.as (Sequence.indent text) := by
    rw [Row.sequence_cons, hcommand, hpipe, readSequence_indent, distinct_as, readSequence_cons,
      ← Row.sequence_cons]
  rw [Row.commandLine_cons, hcommand, hpipe, hsequence, readCommandLine_indent, distinct_as,
    ← Row.commandLine_cons]

theorem Row.spacedRedirect_eq_nil (htoken : token.isSpace = false)
    (hdirection : Direction.ofToken? token = none) :
    (Row.ofTokens (token :: ts)).spacedRedirect = [] := by
  rw [Row.ofTokens_cons]
  cases token with
  | space => cases htoken
  | less => cases hdirection
  | greater => cases hdirection
  | _ => rfl

theorem Row.commandLine_eq_nil (h : (Row.ofTokens (token :: ts)).command = []) :
    (Row.ofTokens (token :: ts)).commandLine = [] := by
  rw [Row.commandLine_cons, Row.sequence_cons, Row.pipe_cons, h]
  rfl

end Rows

section Leading

variable {κ : Type} (catalog : Catalog κ) (w : World)

@[simp] theorem Pipe.plan_indent (text : Text) (p : Pipe) :
    (p.indent text).plan catalog w = p.plan catalog w := by
  match p with
  | .pair left before after right =>
    simp only [Pipe.indent, Pipe.plan, left.plan_indent]
  | .more left before after right =>
    simp only [Pipe.indent, Pipe.plan, left.plan_indent text]

@[simp] theorem Sequence.plan_indent (text : Text) (s : Sequence) :
    (s.indent text).plan catalog w = s.plan catalog w := by
  match s with
  | .commands left before after right
  | .commandPipe left before after right =>
    simp only [Sequence.indent, Sequence.plan, left.plan_indent]
  | .pipeCommand left before after right
  | .pipes left before after right =>
    simp only [Sequence.indent, Sequence.plan, left.plan_indent]
  | .more left before after right =>
    simp only [Sequence.indent, Sequence.plan, left.plan_indent text]

@[simp] theorem CommandLine.plan_indent (text : Text) (l : CommandLine) :
    (l.indent text).plan catalog w = l.plan catalog w := by
  cases l with
  | command only => exact only.plan_indent catalog w text
  | pipe all | sequence all => exact all.plan_indent catalog w text

variable {token : Token}

theorem exists_endsSolid (htoken : token.isSpace = false) (ts : List Token) :
    ∃ (front : List Token) (spaces : List Text),
      ts = front ++ spaces.map .space ∧ EndsSolid (token :: front) := by
  induction ts using List.reverseRecOn with
  | nil => exact ⟨[], [], rfl, .one htoken⟩
  | append_singleton ts last ih =>
    cases last with
    | space text =>
      obtain ⟨front, spaces, rfl, hsolid⟩ := ih
      exact ⟨front, spaces ++ [text], by simp, hsolid⟩
    | _ => exact ⟨ts ++ [_], [], (append_nil _).symm, token :: ts, _, rfl, rfl⟩

theorem tokensPlan_space_direction (text : Text) (direction : Direction) (ts : List Token) :
    tokensPlan catalog w (.space text :: direction.token :: ts) =
      tokensPlan catalog w (direction.token :: ts) := by
  obtain ⟨front, spaces, rfl, hsolid⟩ :=
    exists_endsSolid (by cases direction <;> rfl : direction.token.isSpace = false) ts
  have hmem : ∀ l, (l, 0) ∈ (Row.ofTokens (.space text :: direction.token :: front)).commandLine ↔
      ∃ l', (l', 0) ∈ (Row.ofTokens (direction.token :: front)).commandLine ∧
        l'.indent text = l := by
    intro l
    rw [Row.commandLine_space, Readings.mem_as]
  by_cases h : ∃ l, (l, 0) ∈ (Row.ofTokens (direction.token :: front)).commandLine
  · obtain ⟨l, hl⟩ := h
    have hindent := (hmem (l.indent text)).mpr ⟨l, hl, rfl⟩
    rw [← cons_append, ← cons_append, tokensPlan_of_mem catalog w hindent,
      tokensPlan_of_mem catalog w hl, l.plan_indent]
  · have hnone : ∀ l, (l, 0) ∉
        (Row.ofTokens (.space text :: direction.token :: front)).commandLine := by
      intro l hl
      obtain ⟨l', hl', -⟩ := (hmem l).mp hl
      exact h ⟨l', hl'⟩
    have hsolid' : EndsSolid (.space text :: direction.token :: front) :=
      hsolid.append_left [.space text]
    rw [← cons_append, ← cons_append, tokensPlan_of_not_mem catalog w hsolid' hnone,
      tokensPlan_of_not_mem catalog w hsolid (not_exists.mp h)]

theorem tokensPlan_of_command_eq_nil (hsolid : EndsSolid (token :: ts))
    (h : (Row.ofTokens (token :: ts)).command = []) (spaces : List Text) :
    tokensPlan catalog w (token :: (ts ++ spaces.map .space)) = Checked.complain .badLine := by
  rw [← cons_append]
  refine tokensPlan_of_not_mem catalog w hsolid (fun l hl => ?_) spaces
  rw [Row.commandLine_eq_nil h] at hl
  cases hl

theorem tokensPlan_space_of_ne (htoken : token.isSpace = false)
    (hdirection : Direction.ofToken? token = none) (text : Text) (ts : List Token) :
    tokensPlan catalog w (.space text :: token :: ts) = Checked.complain .badLine := by
  obtain ⟨front, spaces, rfl, hsolid⟩ := exists_endsSolid htoken ts
  have hcommand : (Row.ofTokens (.space text :: token :: front)).command = [] := by
    rw [Row.command_space, redirectedOpenings, Row.spacedRedirect_eq_nil htoken hdirection]
    rfl
  exact tokensPlan_of_command_eq_nil catalog w (hsolid.append_left [.space text]) hcommand spaces

theorem tokensPlan_separator {separator : Token} (hseparator : separator.Separates)
    (ts : List Token) :
    tokensPlan catalog w (separator :: ts) = Checked.complain .badLine := by
  obtain ⟨front, spaces, rfl, hsolid⟩ :=
    exists_endsSolid (by rcases hseparator with rfl | rfl <;> rfl : separator.isSpace = false) ts
  have hspaced : (Row.ofTokens (separator :: front)).spacedRedirect = [] :=
    Row.spacedRedirect_eq_nil (by rcases hseparator with rfl | rfl <;> rfl)
      (by rcases hseparator with rfl | rfl <;> rfl)
  have hword : (Row.ofTokens (separator :: front)).word .loose = [] := by
    rw [Row.ofTokens_cons]
    rcases hseparator with rfl | rfl <;> rfl
  have hcommand : (Row.ofTokens (separator :: front)).command = [] := by
    rw [Row.command_cons, redirectedOpenings, hspaced, hword]
    rfl
  exact tokensPlan_of_command_eq_nil catalog w hsolid hcommand spaces

end Leading

end Line

/-! ## Runs of blanks -/

namespace Token

/-- A text without quotes, backquotes and line breaks. -/
def Straight (s : Text) : Prop :=
  ∀ c ∈ s, isQuote c = false ∧ c ≠ '\x60' ∧ isLineBreak c = false

instance (s : Text) : Decidable (Straight s) := List.decidableBAll _ s

variable {s line line' : Text}

@[simp] theorem straight_append {t : Text} : Straight (s ++ t) ↔ Straight s ∧ Straight t :=
  forall_mem_append

theorem straight_of_blank (h : ∀ c ∈ s, isBlank c = true) : Straight s := by
  intro c hc
  have hblank := h c hc
  simp only [isBlank, Bool.or_eq_true, decide_eq_true_eq] at hblank
  rcases hblank with rfl | rfl <;> decide

theorem Straight.unquoted (h : Straight s) : Unquoted (ofLine s) := by
  refine ⟨fun hmem => ?_, fun hmem => ?_, fun hmem => ?_⟩
  · exact (h _ (mem_of_special_mem_ofLine (c := '\x60') rfl hmem)).2.1 rfl
  · exact absurd (h _ (mem_of_special_mem_ofLine (c := '"') rfl hmem)).1 (by decide)
  · exact absurd (h _ (mem_of_special_mem_ofLine (c := '\'') rfl hmem)).1 (by decide)

theorem Straight.ofLine_ne_append_space (h : Straight s) {c : Char} (hlast : s.getLast? = some c)
    (hc : isBlank c = false) {t : Text} (ht : ∀ c ∈ t, isBlank c = true) (hne : t ≠ []) :
    ofLine s ≠ ts ++ [space t] := by
  intro heq
  have htext := Unbroken.text_ofLine (fun c hc => (h c hc).2.2 : Unbroken s)
  rw [heq, flatMap_append, flatMap_singleton, text] at htext
  rw [← htext, List.getLast?_append_of_ne_nil _ hne] at hlast
  rw [ht c (mem_of_getLast? hlast)] at hc
  cases hc

/-- A run of blanks, as long as it can be, that parts what stands around it. After a plain
character it begins with a space, and before a plain character it has a space in it. -/
structure Parts (before run after : Text) : Prop where
  ne_nil : run ≠ []
  blank : ∀ c ∈ run, isBlank c = true
  left : ∀ c ∈ before.getLast?, isBlank c = false ∧ (isPlain c = true → run.head? = some ' ')
  right : ∀ c ∈ after.head?, isBlank c = false ∧ (isPlain c = true → ' ' ∈ run)

namespace Parts

variable {before run after : Text}

instance : Decidable (Parts before run after) :=
  haveI : Decidable (∀ c ∈ run, isBlank c = true) := List.decidableBAll _ run
  haveI := Option.decidableForallMem
    (p := fun c => isBlank c = false ∧ (isPlain c = true → run.head? = some ' ')) before.getLast?
  haveI := Option.decidableForallMem
    (p := fun c => isBlank c = false ∧ (isPlain c = true → ' ' ∈ run)) after.head?
  decidable_of_iff
    (run ≠ [] ∧ (∀ c ∈ run, isBlank c = true) ∧
      (∀ c ∈ before.getLast?, isBlank c = false ∧ (isPlain c = true → run.head? = some ' ')) ∧
      ∀ c ∈ after.head?, isBlank c = false ∧ (isPlain c = true → ' ' ∈ run))
    ⟨fun ⟨ne_nil, blank, left, right⟩ => ⟨ne_nil, blank, left, right⟩,
      fun h => ⟨h.ne_nil, h.blank, h.left, h.right⟩⟩

variable (h : Parts before run after)
include h

theorem charsLength_le : charsLength (run ++ after) ≤ run.length := by
  rcases charsLength_blanks h.blank after with hle | heq
  · exact hle
  · cases after with
    | nil => rw [heq, charsLength, Nat.add_zero]
    | cons c rest =>
      by_cases hplain : isPlain c = true
      · obtain ⟨front, back, hrun⟩ := append_of_mem ((h.right c rfl).2 hplain)
        have hfront := charsLength_le front
        rw [hrun, append_assoc, cons_append, charsLength_append_space,
          length_append]
        omega
      · have hne : c ≠ '\\' := by
          rintro rfl
          exact hplain rfl
        rw [heq, charsLength_cons_of_ne hne, if_neg hplain, Nat.add_zero]

theorem ofLine_run : ofLine (run ++ after) = space run :: ofLine after := by
  have htake : (run ++ after).takeWhile isBlank = run :=
    takeWhile_append_of_head? h.blank fun c hc => (h.right c hc).1
  have hdrop : (run ++ after).dropWhile isBlank = after := by
    have happend := takeWhile_append_dropWhile (p := isBlank) (l := run ++ after)
    rw [htake] at happend
    exact append_cancel_left happend
  have hle : charsLength (run ++ after) ≤ spaceLength (run ++ after) := by
    rw [spaceLength, htake]
    exact h.charsLength_le
  rw [ofLine_of_blank (by rw [htake]; exact h.ne_nil) hle, htake, hdrop]

theorem ofLine_eq (hbefore : Straight before) :
    ofLine (before ++ run ++ after) = ofLine before ++ space run :: ofLine after := by
  rw [← h.ofLine_run, append_assoc]
  rcases eq_nil_or_concat' before with rfl | ⟨front, c, rfl⟩
  · rw [nil_append, ofLine_nil, nil_append]
  · obtain ⟨hblank, hspace⟩ := h.left c (by simp)
    obtain ⟨hquote, -, hbreak⟩ := hbefore c (by simp)
    rcases hspecial : ofSpecial? c with _ | token
    · -- the run begins with a space
      have hplain := (isBlank_or_isPlain hbreak hspecial).resolve_left (by simp [hblank])
      obtain ⟨rest, hrun⟩ := List.head?_eq_some_iff.mp (hspace hplain)
      obtain ⟨ts, t, ht, hts, hline⟩ := ofLine_append_space (front ++ [c])
      rcases hts with ⟨rfl, hts⟩ | ⟨hne, hts⟩
      · rw [hrun, cons_append, hline, hts, nil_append]
      · exact absurd hts (hbefore.ofLine_ne_append_space (by simp) hblank ht hne)
    · rw [append_assoc, singleton_append,
        ofLine_append_special hspecial front _ (fun _ => hquote),
        ofLine_append_special hspecial front [] (fun _ => hquote), ofLine_nil, append_assoc,
        singleton_append]

end Parts

/-- Two lines that have the same texts between some runs of blanks, all of which part them. At the
end of either line the last run may be missing. -/
inductive Respaced : Text → Text → Prop where
  | last (kept : Text) {run run' : Text} (hrun : run = [] ∨ Parts kept run [])
      (hrun' : run' = [] ∨ Parts kept run' []) : Respaced (kept ++ run) (kept ++ run')
  | more (kept : Text) {run run' line line' : Text} (hrun : Parts kept run line)
      (hrun' : Parts kept run' line') (h : Respaced line line') :
      Respaced (kept ++ run ++ line) (kept ++ run' ++ line')

theorem ofLine_append_last {kept run : Text} (hkept : Straight kept)
    (h : run = [] ∨ Parts kept run []) :
    ∃ spaces : List Text, ofLine (kept ++ run) = ofLine kept ++ spaces.map .space := by
  rcases h with rfl | h
  · exact ⟨[], by simp⟩
  · refine ⟨[run], ?_⟩
    have hline := h.ofLine_eq hkept
    rwa [append_nil, ofLine_nil] at hline

theorem Respaced.tokens (h : Respaced line line') (hline : Straight line) :
    ∃ (ts ts' : List Token) (spaces spaces' : List Text),
      ofLine line = ts ++ spaces.map .space ∧ ofLine line' = ts' ++ spaces'.map .space ∧
        ts.map blur = ts'.map blur := by
  induction h with
  | last kept hrun hrun' =>
    rw [straight_append] at hline
    obtain ⟨spaces, hspaces⟩ := ofLine_append_last hline.1 hrun
    obtain ⟨spaces', hspaces'⟩ := ofLine_append_last hline.1 hrun'
    exact ⟨ofLine kept, ofLine kept, spaces, spaces', hspaces, hspaces', rfl⟩
  | @more kept run run' line line' hrun hrun' h ih =>
    rw [straight_append, straight_append] at hline
    obtain ⟨ts, ts', spaces, spaces', hts, hts', hblur⟩ := ih hline.2
    refine ⟨ofLine kept ++ space run :: ts, ofLine kept ++ space run' :: ts', spaces, spaces',
      ?_, ?_, ?_⟩
    · rw [hrun.ofLine_eq hline.1.1, hts, append_assoc, cons_append]
    · rw [hrun'.ofLine_eq hline.1.1, hts', append_assoc, cons_append]
    · rw [map_append, map_append, map_cons, map_cons, hblur]
      rfl

theorem Respaced.straight (h : Respaced line line') (hline : Straight line) : Straight line' := by
  induction h with
  | last kept hrun hrun' =>
    rw [straight_append] at hline ⊢
    refine ⟨hline.1, straight_of_blank fun c hc => ?_⟩
    rcases hrun' with rfl | hrun'
    · cases hc
    · exact hrun'.blank c hc
  | more kept hrun hrun' h ih =>
    rw [straight_append, straight_append] at hline ⊢
    exact ⟨⟨hline.1.1, straight_of_blank hrun'.blank⟩, ih hline.2⟩

def startsWord (line : Text) : Bool := line.head?.any fun c => isPlain c || c = '-'

private theorem Straight.ofLine_cases (h : Straight line)
    (hblank : ∀ c, line.head? = some c → isBlank c = false) :
    line = [] ∨ ∃ token ts, ofLine line = token :: ts ∧ token.isSpace = false ∧
      ((∃ direction : Direction, token = direction.token ∧ startsWord line = false) ∨
        token.Separates ∧ startsWord line = false ∨
        Direction.ofToken? token = none ∧ startsWord line = true) := by
  cases line with
  | nil => exact .inl rfl
  | cons c rest =>
    have hc := hblank c rfl
    obtain ⟨hquote, hback, hbreak⟩ := h c mem_cons_self
    right
    rcases hspecial : ofSpecial? c with _ | token
    · have hplain := (isBlank_or_isPlain hbreak hspecial).resolve_left (by simp [hc])
      have hlt : spaceLength (c :: rest) < charsLength (c :: rest) := by
        rw [spaceLength, takeWhile_cons_of_neg (by simp [hc])]
        exact charsLength_pos rest hplain
      rw [ofLine_cons, munch_chars hbreak hspecial hlt]
      exact ⟨_, _, rfl, rfl, .inr (.inr ⟨rfl, by simp [startsWord, hplain]⟩)⟩
    · rw [ofLine_cons, munch_special rest hbreak hspecial]
      refine ⟨token, _, rfl, ?_⟩
      have hmem := mem_specials hspecial
      simp only [specials, mem_cons, not_mem_nil, or_false, Prod.mk.injEq] at hmem
      rcases hmem with ⟨rfl, rfl⟩ | ⟨rfl, rfl⟩ | ⟨rfl, rfl⟩ | ⟨rfl, rfl⟩ | ⟨rfl, rfl⟩ | ⟨rfl, -⟩ |
        ⟨rfl, -⟩ | ⟨rfl, -⟩
      · exact ⟨rfl, .inr (.inl ⟨.inl rfl, rfl⟩)⟩
      · exact ⟨rfl, .inr (.inl ⟨.inr rfl, rfl⟩)⟩
      · exact ⟨rfl, .inr (.inr ⟨rfl, rfl⟩)⟩
      · exact ⟨rfl, .inl ⟨.input, rfl, rfl⟩⟩
      · exact ⟨rfl, .inl ⟨.output, rfl, rfl⟩⟩
      · exact absurd rfl hback
      · cases hquote
      · cases hquote

section Plans

variable {κ : Type} (catalog : Catalog κ) (w : World)

theorem Respaced.plan_eq (h : Respaced line line') (hline : Straight line) :
    plan catalog w line = plan catalog w line' := by
  obtain ⟨ts, ts', spaces, spaces', hts, hts', hblur⟩ := h.tokens hline
  have hplain := hline.unquoted
  have hplain' := (h.straight hline).unquoted
  rw [hts, unquoted_append] at hplain
  rw [hts', unquoted_append] at hplain'
  rw [plan_eq_tokensPlan, plan_eq_tokensPlan, hts, hts', tokensPlan_append_spaces,
    tokensPlan_append_spaces, ← tokensPlan_blur catalog w hplain.1, hblur,
    tokensPlan_blur catalog w hplain'.1]

theorem Parts.plan_run {run : Text} (h : Parts [] run line) (hline : Straight line) :
    plan catalog w (run ++ line) =
      if startsWord line then Checked.complain .badLine else plan catalog w line := by
  rw [plan_eq_tokensPlan, plan_eq_tokensPlan, h.ofLine_run]
  rcases hline.ofLine_cases fun c hc => (h.right c hc).1 with
    rfl | ⟨token, ts, hts, hsolid, ⟨direction, rfl, hword⟩ | ⟨hsep, hword⟩ | ⟨hnone, hword⟩⟩
  · rw [ofLine_nil, if_neg (by decide)]
    exact tokensPlan_append_spaces catalog w [] [run]
  · rw [hts, hword, if_neg Bool.false_ne_true, tokensPlan_space_direction]
  · have hnone : Direction.ofToken? token = none := by rcases hsep with rfl | rfl <;> rfl
    rw [hts, hword, if_neg Bool.false_ne_true, tokensPlan_space_of_ne catalog w hsolid hnone,
      tokensPlan_separator catalog w hsep]
  · rw [hts, hword, if_pos rfl, tokensPlan_space_of_ne catalog w hsolid hnone]

end Plans

end Token

namespace Line

open Token

/-- Runs of blanks that part a line can be replaced by others, and the last one can be put or left
out, without a change in the plan of the line or in the complaint about it. The same is true of a
run at the beginning, unless a word follows: such a line cannot be read. -/
theorem plan_respaced {κ : Type} (catalog : Catalog κ) (w : World) {line line' : Text}
    (hline : Straight line) (h : Respaced line line') :
    plan catalog w line = plan catalog w line' ∧
      ∀ run, Parts [] run line → plan catalog w (run ++ line) =
        if startsWord line then Checked.complain .badLine else plan catalog w line' := by
  have hplan := h.plan_eq catalog w hline
  refine ⟨hplan, fun run hrun => ?_⟩
  rw [hrun.plan_run catalog w hline, hplan]

/-- Tabs and spaces at the beginning and the end, around a bar, and between a redirect and a
name. -/
theorem plan_respaced_tabs :
    (∀ line ∈ ["< f cat | ls".toList, "< \tf  cat \t|\t ls \t".toList, "\t < f cat | ls".toList],
      plan utilities ⟨.dir [], [], []⟩ line = .ok (.pipe
        (.simple (.redirect (some ['f']) none (.command .cat [] [])))
        (.simple (.command .ls [] [])))) ∧
      plan utilities ⟨.dir [], [], []⟩ " echo".toList = .error (.complaint .badLine) := by
  have hls := @Respaced.last ['l', 's'] [] [' ', '\t'] (.inl rfl) (.inr (by decide))
  have hbar := @Respaced.more ['|'] [' '] ['\t', ' '] _ _ (by decide) (by decide) hls
  have hcat := @Respaced.more ['c', 'a', 't'] [' '] [' ', '\t'] _ _ (by decide) (by decide) hbar
  have hfile := @Respaced.more ['f'] [' '] [' ', ' '] _ _ (by decide) (by decide) hcat
  have hline : Respaced "< f cat | ls".toList "< \tf  cat \t|\t ls \t".toList :=
    @Respaced.more ['<'] [' '] [' ', '\t'] _ _ (by decide) (by decide) hfile
  obtain ⟨hplan, hstart⟩ := plan_respaced utilities ⟨.dir [], [], []⟩ (by decide) hline
  have hname := (plan_respaced utilities ⟨.dir [], [], []⟩ (by decide)
    (@Respaced.last "echo".toList [] [] (.inl rfl) (.inl rfl))).2 [' '] (by decide)
  have hread : Script.ofLine? "< f cat | ls".toList = some ⟨some (.pipe (.pair
      (.mk (.redirect (.mk .input (some [' ']) (.chars ['f'])) (.space [' '] .done))
        (.chars "cat".toList) .done) (some [' ']) (some [' '])
      (.mk .done (.chars "ls".toList) .done))), []⟩ := by
    decide +kernel
  have hvalue : plan utilities ⟨.dir [], [], []⟩ "< f cat | ls".toList = .ok (.pipe
      (.simple (.redirect (some ['f']) none (.command .cat [] [])))
      (.simple (.command .ls [] []))) := by
    rw [plan_of_ofLine? _ _ hread]
    rfl
  simp only [forall_mem_cons, not_mem_nil, false_implies, implies_true, and_true]
  refine ⟨⟨hvalue, hplan.symm.trans hvalue, ?_⟩, hname⟩
  exact (hstart ['\t', ' '] (by decide)).trans (hplan.symm.trans hvalue)

/-- A tab between two words makes them one, and a blank cannot come before a name. -/
theorem plan_tab_between :
    plan utilities ⟨.dir [], [], []⟩ "echo hi".toList =
        .ok (.simple (.command .echo [] ["hi".toList])) ∧
      plan utilities ⟨.dir [], [], []⟩ "echo\thi".toList =
        .error (.complaint (.unknownCommand "echo\thi".toList)) ∧
      plan utilities ⟨.dir [], [], []⟩ " echo hi".toList = .error (.complaint .badLine) := by
  have hspace : Script.ofLine? "echo hi".toList = some ⟨some (.command (.mk .done
      (.chars "echo".toList) (.modifier [' '] (.arg (.chars "hi".toList)) .done))), []⟩ := by
    decide +kernel
  have htab : Script.ofLine? "echo\thi".toList = some ⟨some (.command (.mk .done
      (.chars "echo\thi".toList) .done)), []⟩ := by decide +kernel
  refine ⟨?_, ?_, ?_⟩
  · rw [plan_of_command _ _ hspace, Command.plan_utility .echo rfl]
    cbv
  · rw [plan_of_command _ _ htab]
    rfl
  · have hrun : Parts [] [' '] "echo hi".toList := by decide
    rw [show " echo hi".toList = [' '] ++ "echo hi".toList from rfl,
      hrun.plan_run _ _ (by decide), if_pos (by decide)]
    rfl

end Line

end CommandShell

import CommandShell.Proofs.Line.Pieces

/-!
# Readings do not look at the texts of blanks

How a line is read depends on where it has blanks, but not on what the blanks are. If the texts of
all blanks are taken away, every row of the chart has the same readings as before, in the same
order and ending at the same places, with the texts of their blanks taken away. So the same holds
of the reading that is chosen for the line.
-/

namespace CommandShell

/-- A token without the text of a blank. -/
def Token.blur : Token → Token
  | .space _ => .space []
  | token => token

namespace Line

open Readings

/-! ## Phrases without the texts of their blanks -/

def blurGap (gap : Option Text) : Option Text := gap.map fun _ => []

mutual

def Word.blur : Word → Word
  | .chars t => .chars t
  | .dash => .dash
  | .voidBefore gap rest => .voidBefore (blurGap gap) rest.blur
  | .substitutionBefore inner rest => .substitutionBefore inner.blur rest.blur
  | .substitution inner => .substitution inner.blur
  | .strings run => .strings run.blur
  | .stringBefore first rest => .stringBefore first.blur rest.blur
  | .charsBefore t rest => .charsBefore t rest.blur
  | .dashBefore rest => .dashBefore rest.blur
  | .stringAfter front last => .stringAfter front.blur last.blur
  | .voidAfter front gap => .voidAfter front.blur (blurGap gap)
  | .substitutionAfter front inner => .substitutionAfter front.blur inner.blur

def Strings.blur : Strings → Strings
  | .one first => .one first.blur
  | .more first rest => .more first.blur rest.blur

def Quoted.blur : Quoted → Quoted
  | .mk quote body => .mk quote body.blur

def Body.blur : Body → Body
  | .done => .done
  | .mark rest => .mark rest.blur
  | .literal token rest => .literal token rest.blur
  | .space _ rest => .space [] rest.blur
  | .substitution inner rest => .substitution inner.blur rest.blur

def Substitution.blur : Substitution → Substitution
  | .void before after => .void (blurGap before) (blurGap after)
  | .run before line after => .run (blurGap before) line.blur (blurGap after)

def Redirect.blur : Redirect → Redirect
  | .mk direction gap target => .mk direction (blurGap gap) target.blur

def Opening.blur : Opening → Opening
  | .done => .done
  | .space _ rest => .space [] rest.blur
  | .redirect first rest => .redirect first.blur rest.blur

def Modifier.blur : Modifier → Modifier
  | .flag name => .flag name.blur
  | .arg value => .arg value.blur

def Ending.blur : Ending → Ending
  | .done => .done
  | .redirect spaces first rest => .redirect (spaces.map fun _ => []) first.blur rest.blur
  | .modifier _ first rest => .modifier [] first.blur rest.blur

def Command.blur : Command → Command
  | .mk opening name ending => .mk opening.blur name.blur ending.blur

def Pipe.blur : Pipe → Pipe
  | .pair left before after right => .pair left.blur (blurGap before) (blurGap after) right.blur
  | .more left before after right => .more left.blur (blurGap before) (blurGap after) right.blur

def Sequence.blur : Sequence → Sequence
  | .commands left before after right =>
    .commands left.blur (blurGap before) (blurGap after) right.blur
  | .pipeCommand left before after right =>
    .pipeCommand left.blur (blurGap before) (blurGap after) right.blur
  | .pipes left before after right => .pipes left.blur (blurGap before) (blurGap after) right.blur
  | .commandPipe left before after right =>
    .commandPipe left.blur (blurGap before) (blurGap after) right.blur
  | .more left before after right => .more left.blur (blurGap before) (blurGap after) right.blur

def CommandLine.blur : CommandLine → CommandLine
  | .command only => .command only.blur
  | .pipe all => .pipe all.blur
  | .sequence all => .sequence all.blur

end

def Suffix.blur : Suffix → Suffix
  | .string last => .string last.blur
  | .void gap => .void (blurGap gap)
  | .substitution inner => .substitution inner.blur

def Joint.blur {α : Type} (f : α → α) (joint : Joint α) : Joint α :=
  ⟨blurGap joint.before, blurGap joint.after, f joint.right⟩

def Script.blur (script : Script) : Script :=
  ⟨script.line.map CommandLine.blur, script.trailing.map fun _ => []⟩

def Row.blur (row : Row) : Row where
  token? := row.token?.map Token.blur
  body quote := (row.body quote).as Body.blur
  quoted := row.quoted.as Quoted.blur
  strings := row.strings.as Strings.blur
  substitution := row.substitution.as Substitution.blur
  void := row.void.as blurGap
  suffixes grip := (row.suffixes grip).as (List.map Suffix.blur)
  word grip := (row.word grip).as Word.blur
  redirect := row.redirect.as Redirect.blur
  spacedRedirect := row.spacedRedirect.as fun r => (r.1.map fun _ => [], r.2.blur)
  modifier := row.modifier.as Modifier.blur
  ending := row.ending.as Ending.blur
  opened := row.opened.as fun o => (o.1.blur, o.2.blur)
  command := row.command.as Command.blur
  barCommand := row.barCommand.as (Joint.blur Command.blur)
  bars := row.bars.as (List.map (Joint.blur Command.blur))
  pipe := row.pipe.as Pipe.blur
  semicolonCommand := row.semicolonCommand.as (Joint.blur Command.blur)
  semicolonPipe := row.semicolonPipe.as (Joint.blur Pipe.blur)
  semicolons := row.semicolons.as (List.map (Joint.blur Command.blur))
  sequence := row.sequence.as Sequence.blur
  commandLine := row.commandLine.as CommandLine.blur
  blanks? := row.blanks?.map (List.map fun _ => [])

def Chart.blur (chart : Chart) : Chart := chart.map Row.blur

/-! ## The steps of the chart -/

@[simp] theorem Readings.as_append {α β : Type} (f : α → β) (xs ys : Readings α) :
    as f (xs ++ ys) = as f xs ++ as f ys := List.map_append

@[simp] theorem Readings.as_cons {α β : Type} (f : α → β) (x : α) (left : Nat) (xs : Readings α) :
    as f ((x, left) :: xs) = (f x, left) :: as f xs := rfl

@[simp] theorem Row.blur_atEnd : Row.atEnd.blur = Row.atEnd := rfl

namespace Chart

variable (chart : Chart) (left : Nat)

@[simp] theorem size_blur : chart.blur.size = chart.size := Array.size_map

@[simp] theorem row_blur : chart.blur.row left = (chart.row left).blur := by
  unfold row blur
  rw [Array.getElem?_map]
  cases chart[left]? <;> rfl

theorem push_blur (row : Row) : blur (chart.push row) = chart.blur.push row.blur :=
  Array.map_push

theorem token?_blur : (chart.blur.row left).token? = (chart.row left).token?.map Token.blur := by
  rw [row_blur]
  rfl

theorem gap_blur : chart.blur.gap left = (blurGap (chart.gap left).1, (chart.gap left).2) := by
  unfold gap
  rw [token?_blur]
  rcases (chart.row left).token? with _ | token
  · rfl
  · cases token <;> rfl

theorem gaps_blur : chart.blur.gaps left = (chart.gaps left).as blurGap := by
  unfold gaps
  rw [token?_blur]
  rcases (chart.row left).token? with _ | token
  · rfl
  · cases token <;> rfl

private theorem expect_blur {token : Token} (h : ∀ t, token ≠ .space t) :
    chart.blur.expect token left = chart.expect token left := by
  unfold expect holds
  rw [token?_blur]
  rcases (chart.row left).token? with _ | other
  · rfl
  · cases other with
    | space t => simp [Token.blur, (h []).symm, (h t).symm]
    | _ => rfl

theorem gapThen_blur {token : Token} (h : ∀ t, token ≠ .space t) :
    chart.blur.gapThen token left = (chart.gapThen token left).as blurGap := by
  unfold gapThen
  rw [gap_blur]
  dsimp only
  rw [expect_blur chart _ h, as_as]

theorem joint_blur {α : Type} (f : α → α) {separator : Token} (h : ∀ t, separator ≠ .space t)
    {right : Row → Readings α} (hright : ∀ row, right row.blur = (right row).as f) :
    chart.blur.joint separator right left = (chart.joint separator right left).as (Joint.blur f) := by
  unfold joint
  simp only [gapThen_blur chart _ h, andThen_as, gaps_blur, row_blur, hright, as_andThen, as_as]
  rfl

end Chart

section Rows

variable (chart : Chart) (token : Token) (left : Nat)

theorem readSubstitution_blur : readSubstitution chart.blur token.blur left =
    (readSubstitution chart token left).as Substitution.blur := by
  cases token with
  | backquote =>
    have h : ∀ t, Token.backquote ≠ .space t := nofun
    simp only [readSubstitution, Token.blur, if_true, chart.gaps_blur, andThen_as, as_andThen,
      chart.row_blur, Row.blur, as_append, chart.gapThen_blur _ h, as_as]
    rfl
  | _ => rfl

theorem readVoid_blur : readVoid chart.blur token.blur left =
    (readVoid chart token left).as blurGap := by
  cases token with
  | backquote => exact chart.gapThen_blur left nofun
  | _ => rfl

theorem readBody_blur (substitution : Readings Substitution) (quote : Quote) :
    readBody chart.blur token.blur left (substitution.as Substitution.blur) quote =
      (readBody chart token left substitution quote).as Body.blur := by
  cases quote <;> cases token <;>
    simp only [readBody, Token.blur, Quote.token, Quote.other, Literal.ofToken?, reduceCtorEq,
      if_true, if_false, andThen_as, as_andThen, chart.row_blur, Row.blur, as_as] <;> rfl

theorem readQuoted_blur : readQuoted chart.blur token.blur left =
    (readQuoted chart token left).as Quoted.blur := by
  cases token <;>
    simp only [readQuoted, Token.blur, Quote.ofToken?, chart.row_blur, Row.blur, as_as] <;> rfl

theorem readStrings_blur (quoted : Readings Quoted) :
    readStrings chart.blur (quoted.as Quoted.blur) =
      (readStrings chart quoted).as Strings.blur := by
  simp only [readStrings, andThen_as, as_andThen, chart.row_blur, Row.blur, as_append, as_as]
  rfl

theorem readPrimary_blur (substitution : Readings Substitution) (void : Readings (Option Text))
    (quoted : Readings Quoted) (strings : Readings Strings) :
    readPrimary chart.blur token.blur left (substitution.as Substitution.blur) (void.as blurGap)
        (quoted.as Quoted.blur) (strings.as Strings.blur) =
      (readPrimary chart token left substitution void quoted strings).as Word.blur := by
  cases token <;>
    simp only [readPrimary, Token.blur, andThen_as, as_andThen, chart.row_blur, Row.blur, as_append,
      as_cons, as_as] <;> rfl

theorem readSuffixes_blur (substitution : Readings Substitution) (void : Readings (Option Text))
    (quoted : Readings Quoted) (grip : Grip) :
    readSuffixes chart.blur left (substitution.as Substitution.blur) (void.as blurGap)
        (quoted.as Quoted.blur) grip =
      (readSuffixes chart left substitution void quoted grip).as (List.map Suffix.blur) := by
  cases grip <;>
    simp only [readSuffixes, andThen_as, as_andThen, chart.row_blur, Row.blur, as_append,
      as_as, ne_eq, reduceCtorEq, not_true_eq_false, not_false_eq_true, if_true, if_false] <;> rfl

private theorem foldl_append_blur (suffixes : List Suffix) (front : Word) :
    (suffixes.map Suffix.blur).foldl Word.append front.blur =
      (suffixes.foldl Word.append front).blur := by
  rw [List.foldl_map]
  refine List.foldl_hom Word.blur fun front suffix => ?_
  cases suffix <;> rfl

theorem readWord_blur (primary : Readings Word) (grip : Grip) :
    readWord chart.blur (primary.as Word.blur) grip =
      (readWord chart primary grip).as Word.blur := by
  simp only [readWord, andThen_as, as_andThen, chart.row_blur, Row.blur, as_as, foldl_append_blur]

theorem readRedirect_blur : readRedirect chart.blur token.blur left =
    (readRedirect chart token left).as Redirect.blur := by
  cases token <;>
    simp only [readRedirect, Token.blur, Direction.ofToken?, chart.gap_blur, chart.row_blur,
      Row.blur, as_as] <;> rfl

theorem readSpacedRedirect_blur (redirect : Readings Redirect) :
    readSpacedRedirect chart.blur token.blur left (redirect.as Redirect.blur) =
      (readSpacedRedirect chart token left redirect).as
        fun r => (r.1.map fun _ => [], r.2.blur) := by
  cases token <;>
    simp only [readSpacedRedirect, Token.blur, chart.row_blur, Row.blur, as_as] <;> rfl

theorem readModifier_blur (word : Readings Word) :
    readModifier chart.blur token.blur left (word.as Word.blur) =
      (readModifier chart token left word).as Modifier.blur := by
  cases token <;>
    simp only [readModifier, Token.blur, reduceCtorEq, if_true, if_false, chart.row_blur, Row.blur,
      as_append, as_as] <;> rfl

theorem readEnding_blur (spaced : Readings (List Text × Redirect)) :
    readEnding chart.blur token.blur left
        (spaced.as fun r => (r.1.map fun _ => [], r.2.blur)) =
      (readEnding chart token left spaced).as Ending.blur := by
  cases token <;>
    simp only [readEnding, Token.blur, andThen_as, as_andThen, chart.row_blur, Row.blur, as_append,
      as_as] <;> rfl

theorem readOpened_blur (redirect : Readings Redirect) (word : Readings Word) :
    readOpened chart.blur token.blur left (redirect.as Redirect.blur) (word.as Word.blur) =
      (readOpened chart token left redirect word).as fun o => (o.1.blur, o.2.blur) := by
  cases token <;>
    simp only [readOpened, Token.blur, Direction.ofToken?, andThen_as, as_andThen, chart.row_blur,
      Row.blur, as_as] <;> rfl

private theorem Opening.ofSpaces_blur (spaces : List Text) (rest : Opening) :
    Opening.ofSpaces (spaces.map fun _ => []) rest.blur = (Opening.ofSpaces spaces rest).blur := by
  induction spaces with
  | nil => rfl
  | cons text spaces ih => exact congrArg (Opening.space []) ih

theorem readOpening_blur (spaced : Readings (List Text × Redirect)) (word : Readings Word) :
    readOpening chart.blur (spaced.as fun r => (r.1.map fun _ => [], r.2.blur))
        (word.as Word.blur) =
      (readOpening chart spaced word).as fun o => (o.1.blur, o.2.blur) := by
  have hopening : ∀ (spaces : List Text) (first : Redirect) (opening : Opening),
      Opening.ofSpaces (spaces.map fun _ => []) (.redirect first.blur opening.blur) =
        (Opening.ofSpaces spaces (.redirect first opening)).blur :=
    fun spaces first opening => Opening.ofSpaces_blur spaces (.redirect first opening)
  simp only [readOpening, andThen_as, as_andThen, chart.row_blur, Row.blur, as_append, as_as,
    hopening]
  rfl

theorem readCommand_blur (opening : Readings (Opening × Word)) :
    readCommand chart.blur (opening.as fun o => (o.1.blur, o.2.blur)) =
      (readCommand chart opening).as Command.blur := by
  simp only [readCommand, andThen_as, as_andThen, chart.row_blur, Row.blur, as_as]
  rfl

theorem Pipe.extend_blur (front : Pipe) (joints : List (Joint Command)) :
    front.blur.extend (joints.map (Joint.blur Command.blur)) = (front.extend joints).blur := by
  unfold Pipe.extend
  rw [List.foldl_map]
  exact List.foldl_hom Pipe.blur fun _ _ => rfl

theorem Sequence.extend_blur (front : Sequence) (joints : List (Joint Command)) :
    front.blur.extend (joints.map (Joint.blur Command.blur)) = (front.extend joints).blur := by
  unfold Sequence.extend
  rw [List.foldl_map]
  exact List.foldl_hom Sequence.blur fun _ _ => rfl

theorem readPipe_blur (command : Readings Command) :
    readPipe chart.blur (command.as Command.blur) = (readPipe chart command).as Pipe.blur := by
  simp only [readPipe, andThen_as, as_andThen, chart.row_blur, Row.blur, as_as, ← Pipe.extend_blur]
  rfl

theorem readSequence_blur (command : Readings Command) (pipe : Readings Pipe) :
    readSequence chart.blur (command.as Command.blur) (pipe.as Pipe.blur) =
      (readSequence chart command pipe).as Sequence.blur := by
  simp only [readSequence, andThen_as, as_andThen, chart.row_blur, Row.blur, as_append, as_as,
    ← Sequence.extend_blur]
  rfl

theorem readJoints_blur (joint : Readings (Joint Command))
    (more : Row → Readings (List (Joint Command)))
    (hmore : ∀ row, more row.blur = (more row).as (List.map (Joint.blur Command.blur))) :
    readJoints chart.blur (joint.as (Joint.blur Command.blur)) more left =
      (readJoints chart joint more left).as (List.map (Joint.blur Command.blur)) := by
  simp only [readJoints, andThen_as, as_andThen, chart.row_blur, hmore, as_append, as_as]
  rfl

private theorem readCommandLine_blur (command : Readings Command) (pipe : Readings Pipe)
    (sequence : Readings Sequence) :
    readCommandLine (command.as Command.blur) (pipe.as Pipe.blur) (sequence.as Sequence.blur) =
      (readCommandLine command pipe sequence).as CommandLine.blur := by
  simp only [readCommandLine, as_append, as_as]
  rfl

end Rows

/-! ## The whole line -/

private theorem Row.ofToken_blur (chart : Chart) (token : Token) :
    Row.ofToken chart.blur token.blur = (Row.ofToken chart token).blur := by
  have here : ∀ command : Readings Command,
      chart.blur.push { Row.atEnd with
          token? := some token.blur, command := command.as Command.blur } =
        Chart.blur (chart.push { Row.atEnd with token? := some token, command }) := fun command =>
    (chart.push_blur { Row.atEnd with token? := some token, command }).symm
  have bar : ∀ t, Token.bar ≠ .space t := nofun
  have semicolon : ∀ t, Token.semicolon ≠ .space t := nofun
  -- the joints are read with the row's command pushed, and then with the joints after them
  have barCommands : ∀ (chart : Chart) (left : Nat), chart.blur.joint .bar (·.command) left =
      (chart.joint .bar (·.command) left).as (Joint.blur Command.blur) :=
    fun chart left => chart.joint_blur left _ bar fun _ => rfl
  have semicolonCommands : ∀ (chart : Chart) (left : Nat),
      chart.blur.joint .semicolon (·.command) left =
        (chart.joint .semicolon (·.command) left).as (Joint.blur Command.blur) :=
    fun chart left => chart.joint_blur left _ semicolon fun _ => rfl
  have semicolonPipes : ∀ (chart : Chart) (left : Nat),
      chart.blur.joint .semicolon (·.pipe) left =
        (chart.joint .semicolon (·.pipe) left).as (Joint.blur Pipe.blur) :=
    fun chart left => chart.joint_blur left _ semicolon fun _ => rfl
  have bars := fun left joint => readJoints_blur chart left joint (·.bars) fun _ => rfl
  have semicolons := fun left joint =>
    readJoints_blur chart left joint (·.semicolons) fun _ => rfl
  simp only [Row.ofToken, chart.size_blur, readSubstitution_blur, readVoid_blur, readQuoted_blur,
    distinct_as, readStrings_blur, readPrimary_blur, readWord_blur, readSuffixes_blur,
    readBody_blur, readRedirect_blur, readSpacedRedirect_blur, readModifier_blur, readEnding_blur,
    readOpened_blur, readOpening_blur, readCommand_blur, readPipe_blur, readSequence_blur,
    readCommandLine_blur, here, barCommands, bars, semicolonCommands,
    semicolonPipes, semicolons]
  simp only [Row.blur, Row.mk.injEq, Option.map_some, true_and]
  refine ⟨funext fun quote => ?_, funext fun grip => ?_, funext fun grip => ?_, ?_⟩
  · cases quote <;> rfl
  · cases grip <;> rfl
  · cases grip <;> rfl
  · cases token with
    | space t =>
      simp only [Token.blur, chart.row_blur, Row.blur, Option.map_map]
      rfl
    | _ => rfl

namespace Chart

private theorem ofTokens_blur (ts : List Token) :
    ofTokens (ts.map Token.blur) = (ofTokens ts).blur := by
  induction ts with
  | nil => simp [ofTokens, blur]
  | cons token ts ih =>
    calc ofTokens ((token :: ts).map Token.blur)
        = (ofTokens ts).blur.push (Row.ofToken (ofTokens ts).blur token.blur) := by
          rw [← ih]
          rfl
      _ = (ofTokens (token :: ts)).blur := by
          rw [Row.ofToken_blur, ← push_blur]
          rfl

end Chart

/-- The reading of a line without the texts of its blanks is the reading of the line, without
them. -/
theorem Script.ofTokens?_blur (ts : List Token) :
    Script.ofTokens? (ts.map Token.blur) = (Script.ofTokens? ts).map Script.blur := by
  unfold Script.ofTokens?
  -- the scripts of the line, before one of them is chosen
  have hscripts : ∀ readings : Readings CommandLine,
      ((readings.as CommandLine.blur).filterMap fun reading =>
        ((Chart.ofTokens ts).row reading.2).blur.blanks?.map fun trailing =>
          (⟨some reading.1, trailing⟩ : Script)) =
      (readings.filterMap fun reading =>
        ((Chart.ofTokens ts).row reading.2).blanks?.map fun trailing =>
          (⟨some reading.1, trailing⟩ : Script)).map Script.blur := by
    intro readings
    unfold Readings.as
    rw [List.filterMap_map, List.map_filterMap]
    refine List.filterMap_congr fun reading _ => ?_
    simp only [Function.comp_apply, Row.blur, Option.map_map]
    rfl
  simp only [Chart.ofTokens_blur, List.length_map, Chart.row_blur]
  generalize (Chart.ofTokens ts).row ts.length = whole
  rw [show whole.blur.commandLine = whole.commandLine.as CommandLine.blur from rfl, hscripts]
  generalize whole.commandLine.filterMap _ = scripts
  cases scripts with
  | nil =>
    simp only [List.map_nil, Row.blur, Option.map_map]
    rfl
  | cons script scripts => rfl

end Line

end CommandShell

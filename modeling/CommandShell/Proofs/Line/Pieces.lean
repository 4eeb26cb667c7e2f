import CommandShell.Line.Planning
import CommandShell.Proofs.Chart.Locality
import CommandShell.Proofs.Line.Splitting
import CommandShell.Proofs.Token.Lexing

/-!
# A line is its pieces

Without backquotes, the commands of a line are the readings of the pieces between its separators,
each read by itself. So the plan of a line is put together from the plans of its pieces, and
blanks around the pieces do not count.
-/

namespace CommandShell

open List

variable {α β : Type}

theorem Checked.bind_eq_ok {x : Checked α} {f : α → Checked β} {b : β} :
    x >>= f = .ok b ↔ ∃ a, x = .ok a ∧ f a = .ok b := by
  cases x with
  | error failure => exact ⟨nofun, fun ⟨_, h, _⟩ => nomatch h⟩
  | ok a => exact ⟨fun h => ⟨a, rfl, h⟩, fun ⟨_, h, h'⟩ => by cases h; exact h'⟩

theorem Checked.map_eq_ok {x : Checked α} {f : α → β} {b : β} :
    f <$> x = .ok b ↔ ∃ a, x = .ok a ∧ f a = b := by
  cases x with
  | error failure => exact ⟨nofun, fun ⟨_, h, _⟩ => nomatch h⟩
  | ok a => exact ⟨fun h => ⟨a, rfl, by cases h; rfl⟩, fun ⟨_, h, h'⟩ => by cases h; rw [← h']; rfl⟩

/-- One plan and then another. Sequences lean to the left, so that of the second plan is taken
apart. -/
def Plan.sequence {κ : Type} (p : Plan κ) : Plan κ → Plan κ
  | .seq q r => .seq (p.sequence q) r
  | q => .seq p q

namespace Line

/-! ## Preferred readings -/

namespace Readings

variable {α β : Type}

theorem eq_of_mem_distinct {xs : Readings α} {a b : α} {left : Nat}
    (ha : (a, left) ∈ xs.distinct) (hb : (b, left) ∈ xs.distinct) : a = b := by
  induction xs with
  | nil => cases ha
  | cons x xs ih =>
    obtain ⟨c, k⟩ := x
    rw [distinct_cons] at ha hb
    simp only [mem_cons, Prod.mk.injEq, mem_filter, ne_eq, decide_not,
      Bool.not_eq_true', decide_eq_false_iff_not] at ha hb
    rcases ha with ⟨rfl, hleft⟩ | ⟨ha, hleft⟩
    · rcases hb with ⟨rfl, -⟩ | ⟨-, hne⟩
      · rfl
      · exact absurd hleft hne
    · rcases hb with ⟨-, hleft'⟩ | ⟨hb, -⟩
      · exact absurd hleft' hleft
      · exact ih ha hb

private theorem filter_as (f : α → β) (left : Nat) (xs : Readings α) :
    (xs.as f).filter (·.2 ≠ left) = as f (xs.filter (·.2 ≠ left)) :=
  filter_map

@[simp] theorem distinct_as (f : α → β) (xs : Readings α) :
    (xs.as f).distinct = xs.distinct.as f := by
  induction xs with
  | nil => rfl
  | cons x xs ih =>
    obtain ⟨a, left⟩ := x
    change distinct ((f a, left) :: as f xs) = _
    rw [distinct_cons, ih, filter_as, distinct_cons]
    rfl

private theorem distinct_filter (left : Nat) (xs : Readings α) :
    distinct (xs.filter (·.2 ≠ left)) = xs.distinct.filter (·.2 ≠ left) := by
  induction xs with
  | nil => rfl
  | cons x xs ih =>
    obtain ⟨a, k⟩ := x
    rw [distinct_cons]
    by_cases h : k = left
    · subst h
      rw [filter_cons_of_neg (by simp), filter_cons_of_neg (by simp), ih,
        filter_filter]
      simp
    · rw [filter_cons_of_pos (by simpa using h), filter_cons_of_pos (by simpa using h),
        distinct_cons, ih, filter_filter, filter_filter]
      simp only [Bool.and_comm]

@[simp] theorem distinct_distinct (xs : Readings α) : xs.distinct.distinct = xs.distinct := by
  induction xs with
  | nil => rfl
  | cons x xs ih =>
    obtain ⟨a, left⟩ := x
    rw [distinct_cons, distinct_cons, distinct_filter, ih, filter_filter]
    simp

theorem distinct_append (xs ys : Readings α) : ∃ zs, distinct (xs ++ ys) = xs.distinct ++ zs := by
  induction xs with
  | nil => exact ⟨ys.distinct, rfl⟩
  | cons x xs ih =>
    obtain ⟨a, left⟩ := x
    obtain ⟨zs, hzs⟩ := ih
    refine ⟨zs.filter (·.2 ≠ left), ?_⟩
    rw [cons_append, distinct_cons, hzs, filter_append, distinct_cons,
      cons_append]

end Readings

/-! ## Commands read by themselves -/

/-- What can be read of a token list from its beginning. -/
def Row.ofTokens (ts : List Token) : Row := (Chart.ofTokens ts).row ts.length

variable {γ κ : Type} {ts taken : List Token} {x : Command} {separator : Token}
  {R : α → List Token → Prop} {script : Script} {line : Text} {catalog : Catalog κ} {p : Plan κ}
  {w : World}

theorem Chart.row_ofTokens {rest : List Token} (h : rest <:+ ts) :
    (Chart.ofTokens ts).row rest.length = Row.ofTokens rest := by
  induction ts with
  | nil => rw [suffix_nil.mp h]; rfl
  | cons token ts ih =>
    rcases suffix_cons_iff.mp h with rfl | h
    · rfl
    · have hle := h.length_le
      have hsize := (Chart.sound_ofTokens ts).size_eq
      have hlt : rest.length < (Chart.ofTokens ts).size := by omega
      rw [← ih h]
      exact Chart.row_push_of_lt _ _ hlt

/-! The phrases that begin with a token, each by those of the tokens after it. -/

theorem Row.ofTokens_cons (token : Token) (ts : List Token) :
    Row.ofTokens (token :: ts) = Row.ofToken (Chart.ofTokens ts) token :=
  Chart.row_ofTokens_cons token ts

theorem Chart.size_ofTokens (ts : List Token) : (Chart.ofTokens ts).size - 1 = ts.length := by
  rw [(Chart.sound_ofTokens ts).size_eq]
  omega

section Phrases

-- One equation for each phrase: the later phrases of a row hold the earlier ones many times over.
variable (token : Token) (ts : List Token)

theorem Row.substitution_cons :
    (Row.ofTokens (token :: ts)).substitution =
      (readSubstitution (Chart.ofTokens ts) token ts.length).distinct := by
  rw [Row.ofTokens_cons, ← Chart.size_ofTokens ts]
  dsimp only [Row.ofToken]

theorem Row.void_cons :
    (Row.ofTokens (token :: ts)).void = readVoid (Chart.ofTokens ts) token ts.length := by
  rw [Row.ofTokens_cons, ← Chart.size_ofTokens ts]
  dsimp only [Row.ofToken]

theorem Row.body_cons (quote : Quote) :
    (Row.ofTokens (token :: ts)).body quote = (readBody (Chart.ofTokens ts) token ts.length
      (Row.ofTokens (token :: ts)).substitution quote).distinct := by
  rw [Row.ofTokens_cons, ← Chart.size_ofTokens ts]
  cases quote <;> dsimp only [Row.ofToken]

theorem Row.quoted_cons :
    (Row.ofTokens (token :: ts)).quoted =
      (readQuoted (Chart.ofTokens ts) token ts.length).distinct := by
  rw [Row.ofTokens_cons, ← Chart.size_ofTokens ts]
  dsimp only [Row.ofToken]

theorem Row.strings_cons :
    (Row.ofTokens (token :: ts)).strings =
      (readStrings (Chart.ofTokens ts) (Row.ofTokens (token :: ts)).quoted).distinct := by
  rw [Row.ofTokens_cons]
  dsimp only [Row.ofToken]

theorem Row.suffixes_cons (grip : Grip) :
    (Row.ofTokens (token :: ts)).suffixes grip =
      (readSuffixes (Chart.ofTokens ts) ts.length (Row.ofTokens (token :: ts)).substitution
        (Row.ofTokens (token :: ts)).void (Row.ofTokens (token :: ts)).quoted grip).distinct := by
  rw [Row.ofTokens_cons, ← Chart.size_ofTokens ts]
  cases grip <;> dsimp only [Row.ofToken]

/-- What a word that begins with `token` can begin with. -/
def primaries : Readings Word :=
  readPrimary (Chart.ofTokens ts) token ts.length (Row.ofTokens (token :: ts)).substitution
    (Row.ofTokens (token :: ts)).void (Row.ofTokens (token :: ts)).quoted
    (Row.ofTokens (token :: ts)).strings

theorem Row.word_cons (grip : Grip) :
    (Row.ofTokens (token :: ts)).word grip =
      (readWord (Chart.ofTokens ts) (primaries token ts).distinct grip).distinct := by
  unfold primaries
  rw [Row.ofTokens_cons, ← Chart.size_ofTokens ts]
  cases grip <;> dsimp only [Row.ofToken]

theorem Row.redirect_cons :
    (Row.ofTokens (token :: ts)).redirect =
      (readRedirect (Chart.ofTokens ts) token ts.length).distinct := by
  rw [Row.ofTokens_cons, ← Chart.size_ofTokens ts]
  dsimp only [Row.ofToken]

theorem Row.spacedRedirect_cons :
    (Row.ofTokens (token :: ts)).spacedRedirect =
      (readSpacedRedirect (Chart.ofTokens ts) token ts.length
        (Row.ofTokens (token :: ts)).redirect).distinct := by
  rw [Row.ofTokens_cons, ← Chart.size_ofTokens ts]
  dsimp only [Row.ofToken]

theorem Row.modifier_cons :
    (Row.ofTokens (token :: ts)).modifier =
      (readModifier (Chart.ofTokens ts) token ts.length
        ((Row.ofTokens (token :: ts)).word .loose)).distinct := by
  rw [Row.ofTokens_cons, ← Chart.size_ofTokens ts]
  dsimp only [Row.ofToken]

theorem Row.ending_cons :
    (Row.ofTokens (token :: ts)).ending =
      (readEnding (Chart.ofTokens ts) token ts.length
        (Row.ofTokens (token :: ts)).spacedRedirect).distinct := by
  rw [Row.ofTokens_cons, ← Chart.size_ofTokens ts]
  dsimp only [Row.ofToken]

theorem Row.opened_cons :
    (Row.ofTokens (token :: ts)).opened =
      (readOpened (Chart.ofTokens ts) token ts.length (Row.ofTokens (token :: ts)).redirect
        ((Row.ofTokens (token :: ts)).word .loose)).distinct := by
  rw [Row.ofTokens_cons, ← Chart.size_ofTokens ts]
  dsimp only [Row.ofToken]

theorem Row.barCommand_cons :
    (Row.ofTokens (token :: ts)).barCommand =
      (Chart.joint ((Chart.ofTokens ts).push { Row.atEnd with
        token? := some token, command := (Row.ofTokens (token :: ts)).command }) .bar (·.command)
        (ts.length + 1)).distinct := by
  rw [Row.ofTokens_cons, ← Chart.size_ofTokens ts]
  dsimp only [Row.ofToken]

theorem Row.bars_cons :
    (Row.ofTokens (token :: ts)).bars =
      (readJoints (Chart.ofTokens ts) (Row.ofTokens (token :: ts)).barCommand (·.bars)
        (ts.length + 1)).distinct := by
  rw [Row.ofTokens_cons, ← Chart.size_ofTokens ts]
  dsimp only [Row.ofToken]

theorem Row.pipe_cons : (Row.ofTokens (token :: ts)).pipe =
    (readPipe (Chart.ofTokens ts) (Row.ofTokens (token :: ts)).command).distinct := by
  rw [Row.ofTokens_cons]
  dsimp only [Row.ofToken]

theorem Row.semicolonCommand_cons :
    (Row.ofTokens (token :: ts)).semicolonCommand =
      (Chart.joint ((Chart.ofTokens ts).push { Row.atEnd with
        token? := some token, command := (Row.ofTokens (token :: ts)).command }) .semicolon
        (·.command) (ts.length + 1)).distinct := by
  rw [Row.ofTokens_cons, ← Chart.size_ofTokens ts]
  dsimp only [Row.ofToken]

theorem Row.semicolonPipe_cons :
    (Row.ofTokens (token :: ts)).semicolonPipe =
      (Chart.joint ((Chart.ofTokens ts).push { Row.atEnd with
        token? := some token, command := (Row.ofTokens (token :: ts)).command }) .semicolon
        (·.pipe) (ts.length + 1)).distinct := by
  rw [Row.ofTokens_cons, ← Chart.size_ofTokens ts]
  dsimp only [Row.ofToken]

theorem Row.semicolons_cons :
    (Row.ofTokens (token :: ts)).semicolons =
      (readJoints (Chart.ofTokens ts) (Row.ofTokens (token :: ts)).semicolonCommand (·.semicolons)
        (ts.length + 1)).distinct := by
  rw [Row.ofTokens_cons, ← Chart.size_ofTokens ts]
  dsimp only [Row.ofToken]

theorem Row.sequence_cons : (Row.ofTokens (token :: ts)).sequence =
    (readSequence (Chart.ofTokens ts) (Row.ofTokens (token :: ts)).command
      (Row.ofTokens (token :: ts)).pipe).distinct := by
  rw [Row.ofTokens_cons]
  dsimp only [Row.ofToken]

theorem Row.commandLine_cons : (Row.ofTokens (token :: ts)).commandLine =
    (readCommandLine (Row.ofTokens (token :: ts)).command (Row.ofTokens (token :: ts)).pipe
      (Row.ofTokens (token :: ts)).sequence).distinct := by
  rw [Row.ofTokens_cons]
  dsimp only [Row.ofToken]

end Phrases

/-- A command is the preferred reading of all the tokens. -/
def Command.Reads (x : Command) (ts : List Token) : Prop := (x, 0) ∈ (Row.ofTokens ts).command

theorem Row.sound_ofTokens (ts : List Token) : (Row.ofTokens ts).Sound ts :=
  (Chart.sound_ofTokens ts).row ts (suffix_refl ts)

theorem Row.reads_command (ts : List Token) :
    (Row.ofTokens ts).command.Sound Command.Reads ts := by
  intro x left hmem
  obtain ⟨taken, later, rfl, rfl, -⟩ := (Row.sound_ofTokens ts).command x left hmem
  refine ⟨taken, later, rfl, rfl, ?_⟩
  have hwithin := ((Chart.within_ofTokens taken later).row taken (suffix_refl _)).command
  unfold Command.Reads Row.ofTokens
  rw [← hwithin, Readings.mem_within, Nat.zero_add]
  exact hmem

theorem Command.Reads.tokens_eq (h : x.Reads ts) : x.tree.tokens = ts := by
  obtain ⟨taken, later, rfl, hleft, hforms⟩ := (Row.sound_ofTokens ts).command x 0 h
  rw [length_eq_zero_iff.mp hleft.symm, append_nil, ← hforms.tokensOf_eq]
  simp

theorem Command.Reads.eq {y : Command} (hx : x.Reads ts) (hy : y.Reads ts) : x = y := by
  cases ts with
  | nil => cases hx
  | cons token ts =>
    unfold Command.Reads Row.ofTokens at hx hy
    rw [Chart.row_ofTokens_cons] at hx hy
    exact Readings.eq_of_mem_distinct hx hy

/-! ## A blank before a command -/

theorem Readings.andThen_congr {xs : Readings α} {next next' : α → Nat → Readings β}
    (h : ∀ a left, (a, left) ∈ xs → next a left = next' a left) :
    xs.andThen next = xs.andThen next' := by
  unfold Readings.andThen
  apply flatMap_congr
  rintro ⟨a, left⟩ hmem
  exact h a left hmem

@[simp] theorem Readings.andThen_as (f : α → β) (xs : Readings α) (next : β → Nat → Readings γ) :
    andThen (xs.as f) next = xs.andThen fun a left => next (f a) left :=
  flatMap_map ..

@[simp] theorem Readings.as_andThen (f : β → γ) (xs : Readings α) (next : α → Nat → Readings β) :
    as f (xs.andThen next) = xs.andThen fun a left => (next a left).as f :=
  map_flatMap ..

@[simp] theorem Readings.as_as (f : α → β) (g : β → γ) (xs : Readings α) :
    as g (xs.as f) = xs.as fun a => g (f a) := by
  simp [as]

@[simp] theorem Row.word_space (text : Text) (ts : List Token) (grip : Grip) :
    (Row.ofTokens (.space text :: ts)).word grip = [] := by
  have hprimaries : primaries (.space text) ts = [] := by
    unfold primaries
    rw [Row.strings_cons, Row.quoted_cons, Row.void_cons, Row.substitution_cons]
    rfl
  rw [Row.word_cons, hprimaries]
  rfl

private theorem Row.distinct_spacedRedirect (ts : List Token) :
    (Row.ofTokens ts).spacedRedirect.distinct = (Row.ofTokens ts).spacedRedirect := by
  cases ts with
  | nil => rfl
  | cons token ts =>
    rw [Row.spacedRedirect_cons]
    exact Readings.distinct_distinct _

theorem Row.spacedRedirect_space (text : Text) (ts : List Token) :
    (Row.ofTokens (.space text :: ts)).spacedRedirect =
      (Row.ofTokens ts).spacedRedirect.as fun r => (text :: r.1, r.2) := by
  have hrow : (Row.ofTokens (.space text :: ts)).spacedRedirect =
      (((Chart.ofTokens ts).row ts.length).spacedRedirect.as
        fun r => (text :: r.1, r.2)).distinct := by
    rw [Row.spacedRedirect_cons]
    rfl
  rw [hrow, Readings.distinct_as]
  exact congrArg _ (Row.distinct_spacedRedirect ts)

def redirectedOpenings (chart : Chart) (ts : List Token) : Readings (Opening × Word) :=
  (Row.ofTokens ts).spacedRedirect.andThen fun r left =>
    (chart.row left).opened.as fun o => (.ofSpaces r.1 (.redirect r.2 o.1), o.2)

theorem Row.command_cons (token : Token) (ts : List Token) :
    (Row.ofTokens (token :: ts)).command =
      (readCommand (Chart.ofTokens ts) (redirectedOpenings (Chart.ofTokens ts) (token :: ts) ++
        ((Row.ofTokens (token :: ts)).word .loose).as
          fun name => (Opening.done, name)).distinct).distinct := by
  unfold redirectedOpenings
  rw [Row.ofTokens_cons]
  dsimp only [Row.ofToken]
  rfl

theorem redirectedOpenings_space (chart : Chart) (text : Text) (ts : List Token) :
    redirectedOpenings chart (.space text :: ts) =
      (redirectedOpenings chart ts).as fun o => (.space text o.1, o.2) := by
  unfold redirectedOpenings
  rw [Row.spacedRedirect_space, Readings.andThen_as, Readings.as_andThen]
  simp only [Readings.as_as]
  rfl

/-- A command with a blank before it. -/
def Command.indent (text : Text) : Command → Command
  | .mk opening name ending => .mk (.space text opening) name ending

theorem readCommand_indent (chart : Chart) (text : Text) (openings : Readings (Opening × Word)) :
    readCommand chart (openings.as fun o => (.space text o.1, o.2)) =
      (readCommand chart openings).as (Command.indent text) := by
  unfold readCommand
  rw [Readings.andThen_as, Readings.as_andThen]
  simp only [Readings.as_as]
  rfl

theorem Chart.row_ofTokens_cons_of_lt {token : Token} {left : Nat} (h : left < (token :: ts).length) :
    (Chart.ofTokens (token :: ts)).row left = (Chart.ofTokens ts).row left := by
  have hlt : left < (Chart.ofTokens ts).size := by
    rw [(Chart.sound_ofTokens ts).size_eq]
    exact h
  exact Chart.row_push_of_lt _ _ hlt

/-- Openings and what follows them take a token, so it does not matter whether the chart has a
row for the first token. -/
theorem readCommand_redirectedOpenings (token : Token) (ts : List Token) :
    readCommand (Chart.ofTokens (token :: ts))
        (redirectedOpenings (Chart.ofTokens (token :: ts)) (token :: ts)).distinct =
      readCommand (Chart.ofTokens ts)
        (redirectedOpenings (Chart.ofTokens ts) (token :: ts)).distinct := by
  have hsound := Chart.sound_ofTokens ts
  have hspaced := (Row.sound_ofTokens (token :: ts)).takes.spacedRedirect
  have hopenings : (redirectedOpenings (Chart.ofTokens ts) (token :: ts)).Takes (token :: ts) :=
    takes_andThen_row hsound token hspaced .opened _
  have hsame : redirectedOpenings (Chart.ofTokens (token :: ts)) (token :: ts) =
      redirectedOpenings (Chart.ofTokens ts) (token :: ts) := by
    apply Readings.andThen_congr
    intro r left hmem
    rw [Chart.row_ofTokens_cons_of_lt (hspaced.lt_length hmem)]
  rw [hsame]
  apply Readings.andThen_congr
  intro o left hmem
  have hlt := hopenings.lt_length (Readings.mem_of_mem_distinct hmem)
  rw [Chart.row_ofTokens_cons_of_lt hlt]

theorem Command.Reads.of_space {text : Text} (h : x.Reads (.space text :: ts)) :
    ∃ y : Command, x = y.indent text ∧ y.Reads ts := by
  unfold Command.Reads at h
  rw [Row.command_cons, Row.word_space, redirectedOpenings_space] at h
  change _ ∈ Readings.distinct (readCommand _ (Readings.distinct (_ ++ []))) at h
  rw [append_nil, Readings.distinct_as, readCommand_indent, Readings.distinct_as,
    Readings.mem_as] at h
  obtain ⟨y, hy, rfl⟩ := h
  refine ⟨y, rfl, ?_⟩
  cases ts with
  | nil => cases hy
  | cons token ts =>
    rw [readCommand_redirectedOpenings] at hy
    unfold Command.Reads
    rw [Row.command_cons]
    -- openings without a redirect come later, so they are not preferred to this one
    obtain ⟨openings, hopenings⟩ := Readings.distinct_append
      (redirectedOpenings (Chart.ofTokens ts) (token :: ts))
      (((Row.ofTokens (token :: ts)).word .loose).as fun name => (Opening.done, name))
    have happend : readCommand (Chart.ofTokens ts)
        ((redirectedOpenings (Chart.ofTokens ts) (token :: ts)).distinct ++ openings) =
        readCommand (Chart.ofTokens ts)
          (redirectedOpenings (Chart.ofTokens ts) (token :: ts)).distinct ++
        readCommand (Chart.ofTokens ts) openings := flatMap_append
    obtain ⟨commands, hcommands⟩ := Readings.distinct_append
      (readCommand (Chart.ofTokens ts)
        (redirectedOpenings (Chart.ofTokens ts) (token :: ts)).distinct)
      (readCommand (Chart.ofTokens ts) openings)
    rw [hopenings, happend, hcommands]
    exact mem_append_left _ hy

@[simp] theorem Command.plan_indent (catalog : Catalog κ) (w : World) (text : Text) (x : Command) :
    (x.indent text).plan catalog w = x.plan catalog w := by
  cases x
  rfl

theorem Command.Reads.dropWhile (h : x.Reads ts) :
    ∃ y : Command, y.Reads (ts.dropWhile Token.isSpace) ∧
      ∀ {κ : Type} (catalog : Catalog κ) (w : World), x.plan catalog w = y.plan catalog w := by
  induction ts generalizing x with
  | nil => exact ⟨x, h, fun _ _ => rfl⟩
  | cons token ts ih =>
    cases token with
    | space text =>
      obtain ⟨y, rfl, hy⟩ := h.of_space
      obtain ⟨z, hz, hplan⟩ := ih hy
      exact ⟨z, hz, fun catalog w => (y.plan_indent catalog w text).trans (hplan catalog w)⟩
    | _ => exact ⟨x, h, fun _ _ => rfl⟩

theorem Command.Reads.plan_eq (catalog : Catalog κ) (w : World) {y : Command} {us : List Token}
    (hx : x.Reads ts) (hy : y.Reads us) (h : trim ts = trim us) :
    x.plan catalog w = y.plan catalog w := by
  have hts : EndsSolid ts := hx.tokens_eq ▸ x.endsSolid
  have hus : EndsSolid us := hy.tokens_eq ▸ y.endsSolid
  rw [hts.trim_eq, hus.trim_eq] at h
  obtain ⟨x', hx', hplan⟩ := hx.dropWhile
  obtain ⟨y', hy', hplan'⟩ := hy.dropWhile
  rw [h] at hx'
  rw [hplan, hplan', hx'.eq hy']

/-! ## Lines cut at their separators -/

/-- Phrases with joints between them make up a token list. -/
inductive Cut {α : Type} (separator : Token) (R : α → List Token → Prop) :
    List α → List Token → Prop where
  | one {x : α} {ts : List Token} (hx : R x ts) : Cut separator R [x] ts
  | snoc {xs : List α} {ts us : List Token} {joint : Joint α} (hxs : Cut separator R xs ts)
    (hjoint : joint.Joins separator R us) : Cut separator R (xs ++ [joint.right]) (ts ++ us)

@[simp] def Pipe.commands : Pipe → List Command
  | .pair left _ _ right => [left, right]
  | .more left _ _ right => left.commands ++ [right]

/-- The parts of a sequence, each with its commands. -/
@[simp] def Sequence.parts : Sequence → List (List Command)
  | .commands left _ _ right => [[left], [right]]
  | .pipeCommand left _ _ right => [left.commands, [right]]
  | .pipes left _ _ right => [left.commands, right.commands]
  | .commandPipe left _ _ right => [[left], right.commands]
  | .more left _ _ right => left.parts ++ [[right]]

/-- The parts of a command line, each with its commands. -/
def CommandLine.parts : CommandLine → List (List Command)
  | .command only => [[only]]
  | .pipe all => [all.commands]
  | .sequence all => all.parts

/-- A line that is two others with a separator between them. -/
structure CommandLine.Joined (l left right : CommandLine) : Prop where
  tree : ∃ rule separator before after a b, left.tree = .node .commandLine [a] ∧
    right.tree = .node .commandLine [b] ∧
    (rule = .pipe ∧ separator = .bar ∨ rule = .sequence ∧ separator = .semicolon) ∧
    l.tree = .node .commandLine [.node rule (a :: jointLeaves separator before after ++ [b])]
  commands : l.parts.flatten = left.parts.flatten ++ right.parts.flatten
  plan : ∀ {κ : Type} (catalog : Catalog κ) (w : World), ∃ join : Plan κ → Plan κ → Plan κ,
    l.plan catalog w = do return join (← left.plan catalog w) (← right.plan catalog w)

theorem CommandLine.Joined.tokens {l left right : CommandLine} (h : l.Joined left right) :
    ∃ joint, l.tree.tokens = left.tree.tokens ++ (joint ++ right.tree.tokens) := by
  obtain ⟨rule, separator, before, after, a, b, hleft, hright, -, htree⟩ := h.tree
  exact ⟨Tree.tokensOf (jointLeaves separator before after), by simp [hleft, hright, htree]⟩

section Induction

variable {motive : CommandLine → Prop} (command : ∀ x, motive (.command x))
  (joined : ∀ l left right, l.Joined left right → motive left → motive right → motive l)
include command joined

theorem Pipe.induction : (p : Pipe) → motive (.pipe p)
  | .pair left _ _ right =>
    joined _ (.command left) (.command right)
      ⟨⟨_, _, _, _, _, _, rfl, rfl, .inl ⟨rfl, rfl⟩, rfl⟩, rfl, fun _ _ => ⟨_, rfl⟩⟩
      (command left) (command right)
  | .more left _ _ right =>
    joined _ (.pipe left) (.command right)
      ⟨⟨_, _, _, _, _, _, rfl, rfl, .inl ⟨rfl, rfl⟩, rfl⟩, by simp [CommandLine.parts],
        fun _ _ => ⟨_, rfl⟩⟩ (Pipe.induction left) (command right)

theorem Sequence.induction : (s : Sequence) → motive (.sequence s)
  | .commands left _ _ right =>
    joined _ (.command left) (.command right)
      ⟨⟨_, _, _, _, _, _, rfl, rfl, .inr ⟨rfl, rfl⟩, rfl⟩, rfl, fun _ _ => ⟨_, rfl⟩⟩
      (command left) (command right)
  | .pipeCommand left _ _ right =>
    joined _ (.pipe left) (.command right)
      ⟨⟨_, _, _, _, _, _, rfl, rfl, .inr ⟨rfl, rfl⟩, rfl⟩, by simp [CommandLine.parts],
        fun _ _ => ⟨_, rfl⟩⟩ (left.induction command joined) (command right)
  | .pipes left _ _ right =>
    joined _ (.pipe left) (.pipe right)
      ⟨⟨_, _, _, _, _, _, rfl, rfl, .inr ⟨rfl, rfl⟩, rfl⟩, by simp [CommandLine.parts],
        fun _ _ => ⟨_, rfl⟩⟩ (left.induction command joined) (right.induction command joined)
  | .commandPipe left _ _ right =>
    joined _ (.command left) (.pipe right)
      ⟨⟨_, _, _, _, _, _, rfl, rfl, .inr ⟨rfl, rfl⟩, rfl⟩, by simp [CommandLine.parts],
        fun _ _ => ⟨_, rfl⟩⟩ (command left) (right.induction command joined)
  | .more left _ _ right =>
    joined _ (.sequence left) (.command right)
      ⟨⟨_, _, _, _, _, _, rfl, rfl, .inr ⟨rfl, rfl⟩, rfl⟩, by simp [CommandLine.parts],
        fun _ _ => ⟨_, rfl⟩⟩ (Sequence.induction left) (command right)

/-- What is true of all commands and passes over joints is true of all lines. -/
theorem CommandLine.induction (l : CommandLine) : motive l := by
  cases l with
  | command only => exact command only
  | pipe all | sequence all => exact all.induction command joined

end Induction

@[simp] theorem Pipe.commands_extend (front : Pipe) (joints : List (Joint Command)) :
    (front.extend joints).commands = front.commands ++ joints.map (·.right) := by
  induction joints generalizing front with
  | nil => simp [Pipe.extend]
  | cons joint joints ih =>
    change (Pipe.extend (.more front joint.before joint.after joint.right) joints).commands = _
    rw [ih]
    simp

@[simp] theorem Sequence.parts_extend (front : Sequence) (joints : List (Joint Command)) :
    (front.extend joints).parts = front.parts ++ joints.map fun joint => [joint.right] := by
  induction joints generalizing front with
  | nil => simp [Sequence.extend]
  | cons joint joints ih =>
    change (Sequence.extend (.more front joint.before joint.after joint.right) joints).parts = _
    rw [ih]
    simp

/-- A part of a line is one command or several with bars between them. -/
def PartReads : List Command → List Token → Prop := Cut .bar Command.Reads

theorem Joint.Joins.part {joint : Joint Command} (h : joint.Joins separator Command.Reads taken) :
    joint.Joins separator (fun x => PartReads [x]) taken := by
  obtain ⟨c, hc, rfl⟩ := h
  exact ⟨c, .one hc, rfl⟩

theorem Joint.Joins.ne_nil {joint : Joint α} (h : joint.Joins separator R taken) : taken ≠ [] := by
  obtain ⟨c, -, rfl⟩ := h
  simp

/-- Joints go on from whatever is cut before them. -/
def JoinAll {α : Type} (separator : Token) (R : α → List Token → Prop) (right : Command → α)
    (joints : List (Joint Command)) (taken : List Token) : Prop :=
  ∀ xs ts, Cut separator R xs ts →
    Cut separator R (xs ++ joints.map fun joint => right joint.right) (ts ++ taken)

theorem Row.joins (right : Row → Readings α)
    (hright : ∀ rest, rest <:+ ts → (right (Row.ofTokens rest)).Sound R rest) (separator : Token)
    {token : Token} {row : Row} (hrow : row.token? = some token) :
    (Chart.joint ((Chart.ofTokens ts).push row) separator right (ts.length + 1)).Sound
      (Joint.Joins separator R) (token :: ts) := by
  have hsound := Chart.sound_ofTokens ts
  have htracks := hsound.tracks.push hsound.size_eq hrow
  apply Chart.sound_joint htracks (suffix_refl _) separator
  intro later hlater hlength
  have hsuffix := suffix_of_length_lt hlater hlength
  rw [Chart.row_push_of_lt _ row (by have := hsuffix.length_le; have := hsound.size_eq; omega),
    Chart.row_ofTokens hsuffix]
  exact hright later hsuffix

/-- The phrases of a row that hold several commands are cut into them. -/
structure Row.Cuts (ts : List Token) (row : Row) : Prop where
  barCommand : row.barCommand.Sound (Joint.Joins .bar Command.Reads) ts
  bars : row.bars.Sound (JoinAll .bar Command.Reads id) ts
  pipe : row.pipe.Sound (fun p => PartReads p.commands) ts
  semicolonCommand : row.semicolonCommand.Sound (Joint.Joins .semicolon Command.Reads) ts
  semicolonPipe : row.semicolonPipe.Sound
    (Joint.Joins .semicolon fun p => PartReads p.commands) ts
  semicolons : row.semicolons.Sound (JoinAll .semicolon PartReads ([·])) ts
  sequence : row.sequence.Sound (fun s => Cut .semicolon PartReads s.parts) ts
  commandLine : row.commandLine.Sound (fun l => Cut .semicolon PartReads l.parts) ts

theorem JoinAll.nil {right : Command → α} : JoinAll separator R right [] [] := by
  intro xs ts hxs
  simpa using hxs

theorem JoinAll.cons {right : Command → α} {first : Joint Command} {joints : List (Joint Command)}
    {more : List Token} (hfirst : first.Joins separator (fun x => R (right x)) taken)
    (hjoints : JoinAll separator R right joints more) :
    JoinAll separator R right (first :: joints) (taken ++ more) := by
  intro xs ts hxs
  have hone : (Joint.mk first.before first.after (right first.right)).Joins separator R taken :=
    hfirst
  simpa using hjoints _ _ (hxs.snoc hone)

theorem Command.Reads.ne_nil (h : x.Reads ts) : ts ≠ [] := by
  rw [← h.tokens_eq]
  exact x.tokens_ne_nil

theorem PartReads.ne_nil {xs : List Command} {ts : List Token} (h : PartReads xs ts) :
    ts ≠ [] := by
  induction h with
  | one hx => exact hx.ne_nil
  | snoc _ hjoint ih => exact append_ne_nil_of_left_ne_nil ih _

section Step

variable {chart : Chart} {ts : List Token} (h : ∀ rest, rest <:+ ts →
  (chart.row rest.length).Cuts rest) (token : Token)
include h

theorem cut_readPipe {command : Readings Command}
    (hcommand : command.Sound Command.Reads (token :: ts)) :
    (readPipe chart command).Sound (fun p => PartReads p.commands) (token :: ts) := by
  unfold readPipe
  apply hcommand.andThen
  intro first taken rest hts hfirst
  have hsuffix := suffix_of_taken hts hfirst.ne_nil
  apply (h rest hsuffix).barCommand.andThen
  intro joint taken' later hrest hjoint
  have hlater : later <:+ rest := hrest ▸ suffix_append _ _
  apply (h later (hlater.trans hsuffix)).bars.as
  intro joints more hjoints
  have hall := hjoints _ _ ((Cut.one hfirst).snoc hjoint)
  rw [Pipe.commands_extend]
  simpa [PartReads] using hall

theorem cut_sequencePair {left : Readings α} {joints : Row → Readings (Joint β)}
    {front : α → Joint β → Sequence} (leftPart : α → List Command) (rightPart : β → List Command)
    (hleft : left.Sound (fun a => PartReads (leftPart a)) (token :: ts))
    (hjoints : ∀ rest, rest <:+ ts → (joints (chart.row rest.length)).Sound
      (Joint.Joins .semicolon fun b => PartReads (rightPart b)) rest)
    (hfront : ∀ a joint, (front a joint).parts = [leftPart a, rightPart joint.right]) :
    (left.andThen fun first left => (joints (chart.row left)).andThen fun joint left =>
      (chart.row left).semicolons.as (front first joint).extend).Sound
      (fun s => Cut .semicolon PartReads s.parts) (token :: ts) := by
  apply hleft.andThen
  intro first taken rest hts hfirst
  have hsuffix := suffix_of_taken hts hfirst.ne_nil
  apply (hjoints rest hsuffix).andThen
  intro joint taken' later hrest hjoint
  have hlater : later <:+ rest := hrest ▸ suffix_append _ _
  apply (h later (hlater.trans hsuffix)).semicolons.as
  intro further more hfurther
  have hparts : (Joint.mk joint.before joint.after (rightPart joint.right)).Joins .semicolon
      PartReads taken' := hjoint
  have hall := hfurther _ _ ((Cut.one hfirst).snoc hparts)
  rw [Sequence.parts_extend, hfront]
  simpa using hall

private theorem cut_readSequence {command : Readings Command} {pipe : Readings Pipe}
    (hcommand : command.Sound Command.Reads (token :: ts))
    (hpipe : pipe.Sound (fun p => PartReads p.commands) (token :: ts)) :
    (readSequence chart command pipe).Sound (fun s => Cut .semicolon PartReads s.parts)
      (token :: ts) := by
  have hone : command.Sound (fun x => PartReads [x]) (token :: ts) :=
    hcommand.mono fun x taken hx => .one hx
  have hcommands : ∀ rest, rest <:+ ts → (chart.row rest.length).semicolonCommand.Sound
      (Joint.Joins .semicolon fun x => PartReads [x]) rest :=
    fun rest hrest => (h rest hrest).semicolonCommand.mono fun _ _ hjoint => hjoint.part
  have hpipes := fun rest hrest => (h rest hrest).semicolonPipe
  refine .append (.append (.append ?_ ?_) ?_) ?_
  · exact cut_sequencePair h token ([·]) ([·]) hone hcommands fun _ _ => rfl
  · exact cut_sequencePair h token Pipe.commands ([·]) hpipe hcommands fun _ _ => rfl
  · exact cut_sequencePair h token Pipe.commands Pipe.commands hpipe hpipes fun _ _ => rfl
  · exact cut_sequencePair h token ([·]) Pipe.commands hone hpipes fun _ _ => rfl

end Step

theorem Row.cuts_ofTokens (ts : List Token) : (Row.ofTokens ts).Cuts ts := by
  induction hn : ts.length using Nat.strongRecOn generalizing ts with
  | _ n ih =>
    cases ts with
    | nil =>
      exact ⟨.nil _, .none_taken rfl JoinAll.nil, .nil _, .nil _, .nil _,
        .none_taken rfl JoinAll.nil, .nil _, .nil _⟩
    | cons token ts =>
      have hlater : ∀ rest, rest <:+ ts → (Row.ofTokens rest).Cuts rest := by
        intro rest hrest
        apply ih rest.length _ rest rfl
        have := hrest.length_le
        rw [length_cons] at hn
        omega
      have hrows : ∀ rest, rest <:+ ts → ((Chart.ofTokens ts).row rest.length).Cuts rest := by
        intro rest hrest
        rw [Chart.row_ofTokens hrest]
        exact hlater rest hrest
      have hreads : ∀ rest, rest <:+ ts →
          (Row.ofTokens rest).command.Sound Command.Reads rest :=
        fun rest _ => Row.reads_command rest
      have hcommand := Row.reads_command (token :: ts)
      have hbar : (Row.ofTokens (token :: ts)).barCommand.Sound
          (Joint.Joins .bar Command.Reads) (token :: ts) := by
        rw [Row.barCommand_cons]
        exact (Row.joins (·.command) hreads .bar rfl).distinct
      have hpipe : (Row.ofTokens (token :: ts)).pipe.Sound (fun p => PartReads p.commands)
          (token :: ts) := by
        rw [Row.pipe_cons]
        exact (cut_readPipe hrows token hcommand).distinct
      have hsemicolon : (Row.ofTokens (token :: ts)).semicolonCommand.Sound
          (Joint.Joins .semicolon Command.Reads) (token :: ts) := by
        rw [Row.semicolonCommand_cons]
        exact (Row.joins (·.command) hreads .semicolon rfl).distinct
      have hsequence : (Row.ofTokens (token :: ts)).sequence.Sound
          (fun s => Cut .semicolon PartReads s.parts) (token :: ts) := by
        rw [Row.sequence_cons]
        exact (cut_readSequence hrows token hcommand hpipe).distinct
      exact
        { barCommand := hbar
          bars := by
            rw [Row.bars_cons]
            exact (sound_readJoints token hbar (fun _ _ => Joint.Joins.ne_nil)
              (fun rest hrest => (hrows rest hrest).bars) JoinAll.nil
              fun _ _ _ _ => JoinAll.cons).distinct
          pipe := hpipe
          semicolonCommand := hsemicolon
          semicolonPipe := by
            rw [Row.semicolonPipe_cons]
            exact (Row.joins (·.pipe) (fun rest hrest => (hlater rest hrest).pipe)
              .semicolon rfl).distinct
          semicolons := by
            rw [Row.semicolons_cons]
            exact (sound_readJoints token hsemicolon (fun _ _ => Joint.Joins.ne_nil)
              (fun rest hrest => (hrows rest hrest).semicolons) JoinAll.nil
              fun _ _ _ _ hfirst => JoinAll.cons hfirst.part).distinct
          sequence := hsequence
          commandLine := by
            rw [Row.commandLine_cons]
            apply Readings.Sound.distinct
            refine .append (.append ?_ ?_) ?_
            · exact hcommand.as fun x taken hx => .one (.one hx)
            · exact hpipe.as fun p taken hp => .one hp
            · exact hsequence.as fun s taken hs => hs }

/-! ## Plans of cut lines -/

section Plans

variable {κ α : Type}

/-- The plan of several parts, each joined to those before it. -/
def planAll (join : Plan κ → Plan κ → Plan κ) (plan : α → Checked (Plan κ)) :
    List α → Checked (Plan κ)
  | [] => Checked.complain .noCommand
  | first :: later => do
    later.foldlM (fun before x => do return join before (← plan x)) (← plan first)

theorem planAll_snoc (join : Plan κ → Plan κ → Plan κ) (plan : α → Checked (Plan κ))
    {xs : List α} (h : xs ≠ []) (x : α) :
    planAll join plan (xs ++ [x]) = do return join (← planAll join plan xs) (← plan x) := by
  obtain ⟨first, later, rfl⟩ := exists_cons_of_ne_nil h
  simp [planAll, foldlM_append]

theorem planAll_congr (join : Plan κ → Plan κ → Plan κ) {plan : α → Checked (Plan κ)}
    {plan' : β → Checked (Plan κ)} {xs : List α} {ys : List β}
    (h : List.Forall₂ (fun x y => plan x = plan' y) xs ys) :
    planAll join plan xs = planAll join plan' ys := by
  cases h with
  | nil => rfl
  | cons hfirst hlater =>
    rw [planAll, planAll, hfirst]
    congr 1
    funext before
    induction hlater generalizing before with
    | nil => rfl
    | cons hx _ ih =>
      rw [foldlM_cons, foldlM_cons, hx]
      simp only [bind_assoc, pure_bind, ih]

variable (catalog : Catalog κ) (w : World)

theorem Pipe.commands_ne_nil (p : Pipe) : p.commands ≠ [] := by
  cases p <;> simp

theorem Sequence.parts_ne_nil (s : Sequence) : s.parts ≠ [] := by
  cases s <;> simp

/-- The plan of a part: of a command, or of commands with bars between them. -/
def partPlan : List Command → Checked (Plan κ) := planAll .pipe (Command.plan catalog w)

@[simp] theorem partPlan_one (x : Command) : partPlan catalog w [x] = x.plan catalog w := by
  simp [partPlan, planAll]

theorem Pipe.plan_eq (p : Pipe) : p.plan catalog w = partPlan catalog w p.commands := by
  cases p with
  | pair left before after right => simp [Pipe.plan, partPlan, planAll]
  | more left before after right =>
    rw [Pipe.plan, Pipe.plan_eq left, Pipe.commands, partPlan,
      planAll_snoc _ _ left.commands_ne_nil]

theorem Sequence.plan_eq (s : Sequence) :
    s.plan catalog w = planAll .seq (partPlan catalog w) s.parts := by
  cases s with
  | more left before after right =>
    rw [Sequence.plan, Sequence.plan_eq left, Sequence.parts,
      planAll_snoc _ _ left.parts_ne_nil, partPlan_one]
  | _ => simp [Sequence.plan, planAll, Pipe.plan_eq]

theorem CommandLine.plan_eq (l : CommandLine) :
    l.plan catalog w = planAll .seq (partPlan catalog w) l.parts := by
  cases l with
  | command only => simp [CommandLine.plan, CommandLine.parts, planAll]
  | pipe all => simp [CommandLine.plan, CommandLine.parts, planAll, Pipe.plan_eq]
  | sequence all => exact all.plan_eq catalog w

end Plans

/-! ## Lines joined by a semicolon -/

theorem gapTokens_eq (gap : Option Text) : gapTokens gap = gap.toList.map .space := by
  cases gap <;> rfl

section Cuts

variable {α : Type} {separator : Token} {R : α → List Token → Prop}

/-- A property that the parts of a token list have if the whole has it, the later part only where
no quote is open. -/
def Inherited (P : List Token → Prop) : Prop :=
  ∀ ts us, P (ts ++ us) → P ts ∧ (openAfter none ts = none → P us)

theorem inherited_backquote_not_mem : Inherited (.backquote ∉ ·) := by
  intro ts us h
  rw [mem_append, not_or] at h
  exact ⟨h.1, fun _ => h.2⟩

section Inherited

variable {P : List Token → Prop} (hP : Inherited P)
include hP

theorem Inherited.joint {us : List Token} {joint : Joint α} (hsep : separator.Separates)
    (hstate : openAfter none ts = none)
    (h : P (ts ++ (gapTokens joint.before ++ separator :: (gapTokens joint.after ++ us)))) :
    P us := by
  have hspaces : ∀ gap, openAfter none (gapTokens gap) = none := by
    intro gap
    rw [gapTokens_eq, openAfter_spaces]
  have hjoint := (hP _ _ ((hP _ _ h).2 hstate)).2 (hspaces _)
  have hafter := (hP [separator] _ hjoint).2 (after_separator hsep)
  exact (hP _ _ hafter).2 (hspaces _)

theorem Cut.balanced_of {other : Token} (hother : other.Separates) (hne : separator ≠ other)
    (hsep : separator.Separates) (hR : ∀ x c, R x c → P c → Balanced other none c) {xs : List α}
    (h : Cut separator R xs ts) (hts : P ts) : Balanced other none ts := by
  have hspaces : ∀ spaces : List Text, Balanced other none (spaces.map .space) := by
    intro spaces
    induction spaces with
    | nil => exact .nil
    | cons text spaces ih => exact (balanced_space hother none text).append ih
  induction h with
  | one hx => exact hR _ _ hx hts
  | snoc hxs hjoint ih =>
    obtain ⟨c, hc, rfl⟩ := hjoint
    have hfront := ih (hP _ _ hts).1
    have hlast := hP.joint hsep hfront.state hts
    rw [gapTokens_eq, gapTokens_eq]
    refine hfront.append ((hspaces _).append ?_)
    exact .cons (fun _ => hne) (after_separator hsep) ((hspaces _).append (hR _ _ hc hlast))

/-- The phrases of a cut list are the readings of its pieces. -/
theorem Cut.pieces_of (hsep : separator.Separates)
    (hR : ∀ x c, R x c → P c → Balanced separator none c) {xs : List α} (h : Cut separator R xs ts)
    (hts : P ts) :
    openAfter none ts = none ∧
      List.Forall₂ (fun x piece => ∃ c, R x c ∧ P c ∧ trim c = piece) xs
        (pieces separator ts) := by
  induction h with
  | one hx =>
    have hbalanced := hR _ _ hx hts
    refine ⟨hbalanced.state, ?_⟩
    rw [hbalanced.pieces_eq]
    exact .cons ⟨_, hx, hts, rfl⟩ .nil
  | @snoc xs ts us joint hxs hjoint ih =>
    obtain ⟨c, hc, rfl⟩ := hjoint
    obtain ⟨hstate, hpieces⟩ := ih (hP _ _ hts).1
    have hlast := hP.joint hsep hstate hts
    have hbalanced := hR _ _ hc hlast
    have hfront : openAfter none (ts ++ gapTokens joint.before) = none := by
      rw [openAfter_append, hstate, gapTokens_eq, openAfter_spaces]
    constructor
    · rw [← append_assoc, openAfter_append, hfront, openAfter_cons, after_separator hsep,
        openAfter_append, gapTokens_eq, openAfter_spaces, hbalanced.state]
    · rw [← append_assoc, pieces_append_separator hsep hfront, gapTokens_eq, gapTokens_eq,
        pieces_append_spaces hsep, pieces_spaces_append hsep, hbalanced.pieces_eq]
      exact rel_append hpieces (.cons ⟨c, hc, hlast, rfl⟩ .nil)

end Inherited

theorem Cut.pieces (hsep : separator.Separates)
    (hR : ∀ x c, R x c → .backquote ∉ c → Balanced separator none c) {xs : List α}
    (h : Cut separator R xs ts) (hts : .backquote ∉ ts) :
    openAfter none ts = none ∧
      List.Forall₂ (fun x piece => ∃ c, R x c ∧ .backquote ∉ c ∧ trim c = piece) xs
        (pieces separator ts) :=
  h.pieces_of inherited_backquote_not_mem hsep hR hts

end Cuts

theorem Command.Reads.balanced {separator : Token} (hsep : separator.Separates) {x : Command}
    {ts : List Token} (h : x.Reads ts) (hts : .backquote ∉ ts) : Balanced separator none ts := by
  rw [← h.tokens_eq] at hts ⊢
  exact x.balanced hsep hts

theorem PartReads.balanced {xs : List Command} {ts : List Token} (h : PartReads xs ts)
    (hts : .backquote ∉ ts) : Balanced .semicolon none ts :=
  Cut.balanced_of inherited_backquote_not_mem (.inr rfl) (by simp) (.inl rfl)
    (fun _ _ hx hc => hx.balanced (.inr rfl) hc) h hts

theorem forall₂_of_pieces {γ : Type} {P : α → γ → Prop} {Q : β → γ → Prop} {xs : List α}
    {ys : List β} {pieces : List γ} (hxs : List.Forall₂ P xs pieces)
    (hys : List.Forall₂ Q ys pieces) :
    List.Forall₂ (fun x y => ∃ piece, P x piece ∧ Q y piece) xs ys := by
  induction hxs generalizing ys with
  | nil =>
    cases hys
    exact .nil
  | cons hx _ ih =>
    cases hys with
    | cons hy hys => exact .cons ⟨_, hx, hy⟩ (ih hys)

theorem PartReads.plan_eq {κ : Type} (catalog : Catalog κ) (w : World) {xs ys : List Command}
    {ts us : List Token} (hxs : PartReads xs ts) (hys : PartReads ys us) (hts : .backquote ∉ ts)
    (hus : .backquote ∉ us) (h : trim ts = trim us) :
    partPlan catalog w xs = partPlan catalog w ys := by
  have hbalanced : ∀ (x : Command) c, x.Reads c → .backquote ∉ c → Balanced .bar none c :=
    fun _ _ hx hc => hx.balanced (.inl rfl) hc
  have hpieces : pieces .bar ts = pieces .bar us := by
    rw [← pieces_trim (.inl rfl) ts, h, pieces_trim (.inl rfl)]
  have hxs := (Cut.pieces (.inl rfl) hbalanced hxs hts).2
  have hys := (Cut.pieces (.inl rfl) hbalanced hys hus).2
  rw [hpieces] at hxs
  apply planAll_congr
  apply (forall₂_of_pieces hxs hys).imp
  rintro x y ⟨piece, ⟨c, hx, -, hc⟩, d, hy, -, hd⟩
  exact hx.plan_eq catalog w hy (hc.trans hd.symm)

/-! ## Lines joined by a semicolon -/

def CommandLine.Reads (l : CommandLine) (ts : List Token) : Prop :=
  Cut .semicolon PartReads l.parts ts

theorem CommandLine.Reads.pieces {l : CommandLine} {ts : List Token} (h : l.Reads ts)
    (hts : .backquote ∉ ts) : openAfter none ts = none ∧
      List.Forall₂ (fun x piece => ∃ c, PartReads x c ∧ .backquote ∉ c ∧ trim c = piece) l.parts
        (pieces .semicolon ts) :=
  Cut.pieces (.inr rfl) (fun _ _ hx hc => PartReads.balanced hx hc) h hts

private theorem foldlM_sequence {κ α : Type} (plan : α → Checked (Plan κ)) (p : Plan κ)
    (xs : List α) (q : Plan κ) :
    xs.foldlM (fun before x => do return .seq before (← plan x)) (p.sequence q) =
      p.sequence <$> xs.foldlM (fun before x => do return .seq before (← plan x)) q := by
  induction xs generalizing q with
  | nil => rfl
  | cons x xs ih =>
    rw [foldlM_cons, foldlM_cons]
    cases plan x with
    | error failure => rfl
    | ok r => exact ih (.seq q r)

theorem planAll_append {κ α : Type} {plan : α → Checked (Plan κ)}
    (hplan : ∀ x p, plan x = .ok p → ∀ q r, p ≠ .seq q r) {xs ys : List α} (hxs : xs ≠ [])
    (hys : ys ≠ []) :
    planAll .seq plan (xs ++ ys) =
      do return (← planAll .seq plan xs).sequence (← planAll .seq plan ys) := by
  obtain ⟨x, xs, rfl⟩ := exists_cons_of_ne_nil hxs
  obtain ⟨y, ys, rfl⟩ := exists_cons_of_ne_nil hys
  simp only [cons_append, planAll, foldlM_append, bind_assoc, foldlM_cons,
    pure_bind]
  congr 1
  funext a
  congr 1
  funext p
  cases hy : plan y with
  | error failure => rfl
  | ok q =>
    have hseq : Plan.seq p q = p.sequence q := by
      cases q with
      | seq q r => exact absurd rfl (hplan y _ hy q r)
      | _ => rfl
    change List.foldlM _ (Plan.seq p q) ys = _
    rw [hseq, foldlM_sequence]
    rfl

theorem Command.plan_named {κ : Type} {catalog : Catalog κ} {w : World} {opening : Opening}
    {name : Word} {ending : Ending} {c : Char} {rest : Text} {command : κ}
    (hname : name.value = .ok (c :: rest))
    (hcommand : catalog.find? (if c = '_' then rest else c :: rest) = some command) :
    (Command.mk opening name ending).plan catalog w = (do
      let progress ← ending.modifiers.foldlM (Progress.read w (catalog.specification command))
        ⟨(opening.redirects ++ ending.redirects).foldl Redirect.wrap (.command command [] []), none⟩
      let plan := Plan.simple (← progress.finish)
      return if c = '_' then .tolerant plan else plan) := by
  rw [Command.plan, hname]
  dsimp only [orComplain, bind, Except.bind, pure, Except.pure]
  rw [hcommand]

private theorem Command.plan_ne_seq (catalog : Catalog κ) (w : World) (x : Command) (p : Plan κ)
    (h : x.plan catalog w = .ok p) (q r : Plan κ) : p ≠ .seq q r := by
  rintro rfl
  cases x with
  | mk opening name ending =>
    rw [Command.plan] at h
    obtain ⟨value, -, h⟩ := Checked.bind_eq_ok.mp h
    cases value with
    | nil => cases h
    | cons first rest =>
      dsimp only at h
      generalize catalog.find? (if first = '_' then rest else first :: rest) = command? at h
      cases command? with
      | none => cases h
      | some command =>
        obtain ⟨progress, -, h⟩ := Checked.bind_eq_ok.mp h
        obtain ⟨simple, -, h⟩ := Checked.bind_eq_ok.mp h
        by_cases hfirst : first = '_' <;> simp [hfirst, pure, Except.pure] at h

private theorem partPlan_ne_seq (catalog : Catalog κ) (w : World) (xs : List Command) (p : Plan κ)
    (h : partPlan catalog w xs = .ok p) (q r : Plan κ) : p ≠ .seq q r := by
  rcases eq_nil_or_concat xs with rfl | ⟨front, x, rfl⟩
  · cases h
  · cases front with
    | nil => exact x.plan_ne_seq catalog w p (by rwa [concat_eq_append, nil_append, partPlan_one] at h) q r
    | cons y front =>
      rw [concat_eq_append, partPlan, planAll_snoc _ _ (cons_ne_nil y front)] at h
      obtain ⟨a, -, h⟩ := Checked.bind_eq_ok.mp h
      obtain ⟨b, -, h⟩ := Checked.bind_eq_ok.mp h
      cases h
      simp

theorem CommandLine.parts_ne_nil (l : CommandLine) : l.parts ≠ [] := by
  cases l with
  | sequence all => exact all.parts_ne_nil
  | _ => simp [CommandLine.parts]

theorem CommandLine.plan_sequence {κ : Type} (catalog : Catalog κ) (w : World)
    {line left right : CommandLine} {ts us vs : List Token} (hline : line.Reads ts)
    (hleft : left.Reads us) (hright : right.Reads vs) (hts : .backquote ∉ ts)
    (hus : .backquote ∉ us) (hvs : .backquote ∉ vs)
    (h : pieces .semicolon ts = pieces .semicolon us ++ pieces .semicolon vs) :
    line.plan catalog w =
      do return (← left.plan catalog w).sequence (← right.plan catalog w) := by
  have hparts : List.Forall₂ _ (left.parts ++ right.parts)
      (pieces .semicolon us ++ pieces .semicolon vs) :=
    rel_append (hleft.pieces hus).2 (hright.pieces hvs).2
  rw [← h] at hparts
  have hsame : List.Forall₂ (fun xs ys => partPlan catalog w xs = partPlan catalog w ys)
      line.parts (left.parts ++ right.parts) := by
    apply (forall₂_of_pieces (hline.pieces hts).2 hparts).imp
    rintro xs ys ⟨piece, ⟨c, hxs, hc, htrim⟩, d, hys, hd, htrim'⟩
    exact hxs.plan_eq catalog w hys hc hd (htrim.trans htrim'.symm)
  rw [line.plan_eq, planAll_congr .seq hsame,
    planAll_append (partPlan_ne_seq catalog w) left.parts_ne_nil right.parts_ne_nil,
    left.plan_eq, right.plan_eq]

theorem mem_commandLine_append {l : CommandLine} {rest : List Token} :
    (l, rest.length) ∈ (Row.ofTokens (ts ++ rest)).commandLine ↔
      (l, 0) ∈ (Row.ofTokens ts).commandLine := by
  have hwithin := ((Chart.within_ofTokens ts rest).row ts (suffix_refl ts)).commandLine
  unfold Row.ofTokens
  rw [← hwithin, Readings.mem_within, Nat.zero_add]

theorem reads_of_mem_commandLine {l : CommandLine} (h : (l, 0) ∈ (Row.ofTokens ts).commandLine) :
    l.Reads ts := by
  obtain ⟨taken, rest, rfl, hrest, hreads⟩ := (Row.cuts_ofTokens ts).commandLine l 0 h
  rw [length_eq_zero_iff.mp hrest.symm, append_nil]
  exact hreads

theorem Script.mem_commandLine (h : Script.ofTokens? ts = some script) {line : CommandLine}
    (hline : script.line = some line) :
    ∃ taken, ts = taken ++ script.trailing.map .space ∧
      (line, 0) ∈ (Row.ofTokens taken).commandLine := by
  rcases Script.of_ofTokens? h with ⟨spaces, rfl, -⟩ | ⟨line', taken, spaces, rfl, rfl, hmem, -⟩
  · cases hline
  · cases hline
    exact ⟨taken, rfl, mem_commandLine_append.mp hmem⟩

theorem Script.reads_of_ofTokens? (h : Script.ofTokens? ts = some script) {line : CommandLine}
    (hline : script.line = some line) :
    ∃ taken, ts = taken ++ script.trailing.map .space ∧ line.Reads taken := by
  obtain ⟨taken, hts, hmem⟩ := Script.mem_commandLine h hline
  exact ⟨taken, hts, reads_of_mem_commandLine hmem⟩

theorem Script.eq_spaces_of_ofTokens? (h : Script.ofTokens? ts = some script)
    (hline : script.line = none) : ts = script.trailing.map .space := by
  rcases Script.of_ofTokens? h with ⟨spaces, rfl, rfl⟩ | ⟨line, taken, spaces, rfl, -⟩
  · rfl
  · cases hline

theorem plan_of_ofLine? (catalog : Catalog κ) (w : World) (h : Script.ofLine? line = some script) :
    plan catalog w line = script.plan catalog w := by
  unfold plan Script.ofLine
  rw [h]
  rfl

theorem plan_of_command (catalog : Catalog κ) (w : World) {spaces : List Text}
    (h : Script.ofLine? line = some ⟨some (.command x), spaces⟩) :
    plan catalog w line = x.plan catalog w :=
  plan_of_ofLine? catalog w h

theorem script_of_plan (h : plan catalog w line = .ok p) :
    ∃ script l, Script.ofLine? line = some script ∧
      script.line = some l ∧ l.plan catalog w = .ok p := by
  obtain ⟨script, hscript, h⟩ := Checked.bind_eq_ok.mp h
  unfold Script.ofLine at hscript
  cases hread : Script.ofLine? line with
  | none => rw [hread] at hscript; cases hscript
  | some script' =>
    rw [hread] at hscript
    cases hscript
    unfold Script.plan at h
    cases hline : script.line with
    | none => rw [hline] at h; cases h
    | some l =>
      rw [hline] at h
      exact ⟨script, l, rfl, hline, h⟩

theorem reads_of_plan (h : plan catalog w line = .ok p) : ∃ (l : CommandLine) (taken : List Token)
      (spaces : List Text), Token.ofLine line = taken ++ spaces.map .space ∧ l.Reads taken ∧
      l.plan catalog w = .ok p := by
  obtain ⟨script, l, hread, hline, hp⟩ := script_of_plan h
  obtain ⟨taken, htaken, hreads⟩ := Script.reads_of_ofTokens? hread hline
  exact ⟨l, taken, script.trailing, htaken, hreads, hp⟩

theorem backquote_not_mem_ofLine (h : '\x60' ∉ line) : .backquote ∉ Token.ofLine line := by
  intro hmem
  have htext : '\x60' ∈ (Token.ofLine line).flatMap Token.text :=
    mem_flatMap.mpr ⟨.backquote, hmem, mem_singleton.mpr rfl⟩
  rw [Token.text_ofLine] at htext
  exact h (mem_of_mem_filter htext)

private theorem pieces_joined {l r : Text} (hl : openAfter none (Token.ofLine l) = none)
    (hr : ∀ t ts, Token.ofLine r ≠ .chars ('\t' :: t) :: ts) :
    pieces .semicolon (Token.ofLine (l ++ " ; ".toList ++ r)) =
      pieces .semicolon (Token.ofLine l) ++ pieces .semicolon (Token.ofLine r) ∧
    .semicolon ∈ Token.ofLine (l ++ " ; ".toList ++ r) := by
  have hsep : Token.semicolon.Separates := .inr rfl
  obtain ⟨ts, us, t, u, hts, hus, hjoined⟩ := Token.ofLine_joined l r hr
  have hleft : pieces .semicolon (Token.ofLine l) = pieces .semicolon ts ∧
      openAfter none ts = none := by
    rcases hts with hts | ⟨t', hts⟩
    · exact ⟨by rw [hts], hts ▸ hl⟩
    · rw [hts, openAfter_append] at hl
      refine ⟨by rw [hts, pieces_append_space hsep], ?_⟩
      exact (after_space _ t').symm.trans hl
  have hright : pieces .semicolon (Token.ofLine r) = pieces .semicolon us := by
    rcases hus with hus | ⟨u', hus⟩
    · rw [hus]
    · rw [hus, pieces_space_cons hsep]
  have hstate : openAfter none (ts ++ [Token.space t]) = none := by
    rw [openAfter_append, hleft.2]
    rfl
  rw [hjoined]
  constructor
  · rw [append_cons, pieces_append_separator hsep hstate, pieces_append_space hsep,
      pieces_space_cons hsep, hleft.1, hright]
  · simp

theorem plan_joined {l r : Text} {q : Plan κ} (hl : plan catalog w l = .ok p)
    (hr : plan catalog w r = .ok q) (hjoined : (Script.ofLine? (l ++ " ; ".toList ++ r)).isSome)
    (hlq : '\x60' ∉ l) (hrq : '\x60' ∉ r) (htab : ∀ t ts, Token.ofLine r ≠ .chars ('\t' :: t) :: ts) :
    plan catalog w (l ++ " ; ".toList ++ r) = .ok (p.sequence q) := by
  have hsep : Token.semicolon.Separates := .inr rfl
  obtain ⟨left, us, lspaces, hus, hleft, hp⟩ := reads_of_plan hl
  obtain ⟨right, vs, rspaces, hvs, hright, hq⟩ := reads_of_plan hr
  obtain ⟨script, hscript⟩ := Option.isSome_iff_exists.mp hjoined
  have hchar : '\x60' ∉ l ++ " ; ".toList ++ r := by simp [hlq, hrq]
  have hjq := backquote_not_mem_ofLine hchar
  have hlq := backquote_not_mem_ofLine hlq
  have hrq := backquote_not_mem_ofLine hrq
  rw [hus, mem_append, not_or] at hlq
  rw [hvs, mem_append, not_or] at hrq
  have hstate : openAfter none (Token.ofLine l) = none := by
    rw [hus, openAfter_append, (hleft.pieces hlq.1).1, openAfter_spaces]
  obtain ⟨hpieces, hsemicolon⟩ := pieces_joined hstate htab
  cases hline : script.line with
  | none =>
    rw [Script.eq_spaces_of_ofTokens? hscript hline] at hsemicolon
    simp at hsemicolon
  | some line =>
    obtain ⟨ts, hts, hreads⟩ := Script.reads_of_ofTokens? hscript hline
    rw [hts, pieces_append_spaces hsep, hus, pieces_append_spaces hsep, hvs,
      pieces_append_spaces hsep] at hpieces
    rw [hts, mem_append, not_or] at hjq
    have hplan := CommandLine.plan_sequence catalog w hreads hleft hright hjq.1 hlq.1 hrq.1
      hpieces
    rw [hp, hq] at hplan
    unfold plan Script.ofLine
    rw [hscript]
    change Script.plan catalog w script = _
    unfold Script.plan
    rw [hline]
    exact hplan

end Line

end CommandShell

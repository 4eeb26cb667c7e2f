import CommandShell.Proofs.Session.Listening
import CommandShell.Proofs.Substitution.Splicing

/-!
# The outermost substitutions of a line

A line falls into texts that stand for themselves and the substitutions that are not inside
others. These are run from left to right, each in the world that the one before it left, and what
they write takes their place; the first that fails is the last that is run. A substitution runs on
an empty input, unless it is a sequence whose first command listens.
-/

namespace CommandShell

open List

/-! ## Runs of spaces -/

namespace Text

def collapseSpaces : Text → Text
  | [] => []
  | c :: rest =>
    if c = ' ' ∧ rest.head? = some ' ' then collapseSpaces rest else c :: collapseSpaces rest

theorem join_singleton_append (a : Text) {pieces : List Text} (h : pieces ≠ []) :
    join [' '] (a :: pieces) = a ++ ' ' :: join [' '] pieces := by
  obtain ⟨b, pieces, rfl⟩ := exists_cons_of_ne_nil h
  rw [join_cons_cons, append_assoc, singleton_append]

theorem collapseSpaces_append {a : Text} (ha : ' ' ∉ a) (b : Text) :
    collapseSpaces (a ++ b) = a ++ collapseSpaces b := by
  induction a with
  | nil => rfl
  | cons c a ih =>
    have hc : c ≠ ' ' := fun hc => ha (hc ▸ mem_cons_self)
    rw [cons_append, collapseSpaces, if_neg (fun h => hc h.1),
      ih fun hmem => ha (mem_cons_of_mem c hmem), cons_append]

private theorem fields_ne_nil {s : Text} (hs : s ≠ []) (hlast : s.getLast? ≠ some ' ') :
    fields (· = ' ') s ≠ [] := by
  intro hfields
  have hflatten := flatten_fields (· = ' ') s
  rw [hfields, flatten_nil] at hflatten
  have hmem : s.getLast hs ∈ s.filter fun c => !decide (c = ' ') := by
    rw [mem_filter]
    refine ⟨getLast_mem hs, ?_⟩
    rw [List.getLast?_eq_some_getLast hs] at hlast
    simpa using hlast
  rw [← hflatten] at hmem
  cases hmem

/-- Squeezing drops the space that collapsing leaves at the beginning. -/
theorem collapseSpaces_eq {s : Text} (h : s.getLast? ≠ some ' ') :
    collapseSpaces s = (if s.head? = some ' ' then [' '] else []) ++ squeeze s := by
  induction s using cut_induction (· = ' ') with
  | solid s hs =>
    have hspace : ' ' ∉ s := fun hmem => by simpa using hs ' ' hmem
    have hhead : s.head? ≠ some ' ' := fun hhead => hspace (mem_of_head? hhead)
    have hcollapse := collapseSpaces_append hspace []
    rw [append_nil, collapseSpaces, append_nil] at hcollapse
    rw [hcollapse, if_neg hhead, nil_append]
    by_cases hnil : s = []
    · rw [hnil]
      rfl
    · rw [squeeze, fields_of_neg hnil hs]
      rfl
  | cut a c b ha hc ih =>
    obtain rfl : c = ' ' := by simpa using hc
    have hspace : ' ' ∉ a := fun hmem => by simpa using ha ' ' hmem
    have hb : b ≠ [] := by
      rintro rfl
      simp at h
    have hlast : b.getLast? ≠ some ' ' := by
      rwa [List.getLast?_append_of_ne_nil _ (cons_ne_nil _ _),
        List.getLast?_cons_of_ne_nil hb] at h
    have hcollapse : collapseSpaces (' ' :: b) = ' ' :: squeeze b := by
      rw [collapseSpaces, ih hlast]
      by_cases hhead : b.head? = some ' '
      · rw [if_pos ⟨rfl, hhead⟩, if_pos hhead, singleton_append]
      · rw [if_neg (fun h => hhead h.2), if_neg hhead, nil_append]
    have hsqueeze : squeeze (a ++ ' ' :: b) =
        join [' '] (fields (· = ' ') a ++ fields (· = ' ') b) :=
      congrArg (join [' ']) (fields_append_cons (decide_eq_true rfl) a b)
    rw [collapseSpaces_append hspace, hcollapse, hsqueeze]
    by_cases hnil : a = []
    · rw [hnil]
      rfl
    · have hhead : (a ++ ' ' :: b).head? ≠ some ' ' := by
        obtain ⟨d, a, rfl⟩ := exists_cons_of_ne_nil hnil
        have hd : d ≠ ' ' := fun hd => hspace (hd ▸ mem_cons_self)
        simpa using hd
      rw [if_neg hhead, fields_of_neg hnil ha, singleton_append,
        join_singleton_append a (fields_ne_nil hb hlast), nil_append]
      rfl

theorem squeeze_trim (s : Text) : squeeze (trim s) = collapseSpaces (trim s) := by
  by_cases hnil : trim s = []
  · rw [hnil]
    rfl
  · obtain ⟨⟨c, hhead, hc⟩, d, hlast, hd⟩ := trimmed_trim hnil
    have hne : ∀ x, isSpace x = false → some x ≠ some ' ' := by
      rintro x hx hspace
      cases hspace
      cases hx
    rw [collapseSpaces_eq (hlast ▸ hne d hd), if_neg (hhead ▸ hne c hc), nil_append]

end Text

/-! ## Pieces -/

/-- A text that stands for itself, or an outermost substitution as it stands in the line, with the
command line inside it. -/
inductive Piece where
  | plain (text : Text)
  | substitution (source : Text) (line? : Option Text)
deriving DecidableEq

/-- A piece as it stands in the line. -/
def Piece.source : Piece → Text
  | plain text => text
  | substitution source _ => source

namespace Tree

mutual

def pieces : Tree → List Piece
  | leaf token => [.plain token.text]
  | endOfLine => []
  | node .subcommand children =>
    [.substitution (node .subcommand children).text (innerLine? children)]
  | node _ children => piecesOf children

def piecesOf : List Tree → List Piece
  | [] => []
  | tree :: later => tree.pieces ++ piecesOf later

end

mutual

theorem flatMap_pieces (t : Tree) : t.pieces.flatMap Piece.source = t.text := by
  cases t with
  | leaf token => simp [pieces, Piece.source, text, tokens]
  | endOfLine => rfl
  | node rule children =>
    have hall := flatMap_piecesOf children
    cases rule with
    | subcommand => simp [pieces, Piece.source]
    | _ => exact hall

theorem flatMap_piecesOf (ts : List Tree) :
    (piecesOf ts).flatMap Piece.source = (tokensOf ts).flatMap Token.text := by
  cases ts with
  | nil => rfl
  | cons t ts =>
    rw [piecesOf, flatMap_append, flatMap_pieces t, flatMap_piecesOf ts, tokensOf,
      flatMap_append, text]

end

end Tree

namespace Line

open Shell

/-- What a command line writes, with the input that its plan is given. -/
def outputOn (input : Plan Utility → Stream) (line : Text) : Shell Text := do
  let plan ← Shell.ofChecked (plan utilities (← get) line)
  let job ← plan.build .both
  job.outputWith (input plan)

/-- An output as it is put into a line: in one line, with a backslash before every quote, trimmed
and with single spaces. -/
def settled (out : Text) : Text := Text.collapseSpaces (Text.trim (escape (out.map unbreak)))

theorem splice_eq_settled (out : Text) : splice out = settled out := by
  unfold splice
  dsimp only
  rw [replaceChar_newline, replaceChar_quotes]
  exact Text.squeeze_trim _

/-- Replacing pieces from left to right in a world, where `run` tells what a command line does:
how it ends, and the world it leaves. -/
inductive Replaces (run : Text → Shell Text) :
    List Piece → World → Except Failure Text → World → Prop
  | done (w : World) : Replaces run [] w (.ok []) w
  | plain {text : Text} {later : List Piece} {w w' : World} {result : Except Failure Text} :
      Replaces run later w result w' →
      Replaces run (.plain text :: later) w (result.map (text ++ ·)) w'
  | void {source : Text} {later : List Piece} {w w' : World} {result : Except Failure Text} :
      Replaces run later w result w' →
      Replaces run (.substitution source none :: later) w result w'
  | ran {source line out : Text} {later : List Piece} {w w₁ w' : World}
      {result : Except Failure Text} :
      (run line).on w = (.ok out, w₁) → Replaces run later w₁ result w' →
      Replaces run (.substitution source (some line) :: later) w (result.map (settled out ++ ·)) w'
  | failed {source line : Text} {later : List Piece} {w w' : World} {failure : Failure} :
      (run line).on w = (.error failure, w') →
      Replaces run (.substitution source (some line) :: later) w (.error failure) w'

def replaceAll : List Piece → Shell Text
  | [] => return []
  | .plain text :: later => return text ++ (← replaceAll later)
  | .substitution _ none :: later => replaceAll later
  | .substitution _ (some line) :: later => return (← substitute line) ++ (← replaceAll later)

private theorem replaceAll_append (pieces later : List Piece) :
    replaceAll (pieces ++ later) = do return (← replaceAll pieces) ++ (← replaceAll later) := by
  fun_induction replaceAll pieces with
  | case1 => simp
  | case2 text pieces ih =>
    simp only [replaceAll, cons_append, ih, bind_assoc, pure_bind, append_assoc]
  | case3 source pieces ih => exact ih
  | case4 source line pieces ih =>
    simp only [replaceAll, cons_append, ih, bind_assoc, pure_bind, append_assoc]

end Line

namespace Tree

open Line

mutual

theorem substituted_eq_replaceAll (t : Tree) : t.substituted = replaceAll t.pieces := by
  cases t with
  | leaf token => simp [substituted, pieces, replaceAll]
  | endOfLine => rfl
  | node rule children =>
    have hall := substitutedAll_eq_replaceAll children
    cases rule with
    | subcommand =>
      rw [substituted, pieces]
      cases innerLine? children <;> simp [replaceAll]
    | _ => exact hall

theorem substitutedAll_eq_replaceAll (ts : List Tree) :
    substitutedAll ts = replaceAll (piecesOf ts) := by
  cases ts with
  | nil => rfl
  | cons t ts =>
    rw [substitutedAll, piecesOf, replaceAll_append, substituted_eq_replaceAll t,
      substitutedAll_eq_replaceAll ts]

end

end Tree

namespace Line

open Shell

theorem on_substitute_eq (line : Text) (w : World) :
    (substitute line).on w =
      (((outputOn Plan.usualInput line).on w).1.map splice,
        ((outputOn Plan.usualInput line).on w).2) := by
  have h : substitute line = outputOn Plan.usualInput line >>= fun out => pure (splice out) := by
    simp [substitute, outputOn]
  rw [h, on_bind]
  rcases (outputOn Plan.usualInput line).on w with ⟨failure | out, w'⟩ <;> rfl

variable {pieces : List Piece} {result : Except Failure Text} {w w' : World}
  {run : Text → Shell Text} {line : Text}

theorem Replaces.on_replaceAll (h : Replaces (outputOn Plan.usualInput) pieces w result w') :
    (replaceAll pieces).on w = (result, w') := by
  induction h with
  | done w => rfl
  | @plain text later w w' result _ ih =>
    rw [replaceAll, on_bind, ih]
    cases result <;> rfl
  | void _ ih => exact ih
  | @ran source line out later w w₁ w' result hrun _ ih =>
    rw [replaceAll, on_bind, on_substitute_eq, hrun]
    dsimp only [Except.map]
    rw [on_bind, ih, splice_eq_settled]
    cases result <;> rfl
  | failed hrun =>
    rw [replaceAll, on_bind, on_substitute_eq, hrun]
    rfl

theorem exists_replaces (run : Text → Shell Text) (pieces : List Piece) (w : World) :
    ∃ result w', Replaces run pieces w result w' := by
  induction pieces generalizing w with
  | nil => exact ⟨.ok [], w, .done w⟩
  | cons piece later ih =>
    match piece with
    | .plain text =>
      obtain ⟨result, w', h⟩ := ih w
      exact ⟨_, w', h.plain⟩
    | .substitution source none =>
      obtain ⟨result, w', h⟩ := ih w
      exact ⟨result, w', h.void⟩
    | .substitution source (some line) =>
      rcases hrun : (run line).on w with ⟨failure | out, w₁⟩
      · exact ⟨.error failure, w₁, .failed hrun⟩
      · obtain ⟨result, w', h⟩ := ih w₁
        exact ⟨_, w', .ran hrun h⟩

theorem Replaces.unique {w₁ w₂ : World} {result₁ result₂ : Except Failure Text}
    (h₁ : Replaces run pieces w result₁ w₁) (h₂ : Replaces run pieces w result₂ w₂) :
    result₁ = result₂ ∧ w₁ = w₂ := by
  induction h₁ generalizing result₂ w₂ with
  | done w =>
    cases h₂
    exact ⟨rfl, rfl⟩
  | plain _ ih =>
    cases h₂ with
    | plain h =>
      obtain ⟨rfl, rfl⟩ := ih h
      exact ⟨rfl, rfl⟩
  | void _ ih =>
    cases h₂ with
    | void h => exact ih h
  | ran hrun _ ih =>
    cases h₂ with
    | ran hrun' h =>
      cases hrun.symm.trans hrun'
      obtain ⟨rfl, rfl⟩ := ih h
      exact ⟨rfl, rfl⟩
    | failed hrun' => cases hrun.symm.trans hrun'
  | failed hrun =>
    cases h₂ with
    | ran hrun' h => cases hrun.symm.trans hrun'
    | failed hrun' =>
      cases hrun.symm.trans hrun'
      exact ⟨rfl, rfl⟩

theorem on_replaceAll_iff :
    (replaceAll pieces).on w = (result, w') ↔
      Replaces (outputOn Plan.usualInput) pieces w result w' := by
  refine ⟨fun h => ?_, Replaces.on_replaceAll⟩
  obtain ⟨result', w'', hreplaces⟩ := exists_replaces (outputOn Plan.usualInput) pieces w
  cases h.symm.trans hreplaces.on_replaceAll
  exact hreplaces

theorem on_substituted {script : Script} (h : Script.ofLine? line = some script) (w : World) :
    (substituted line).on w = (replaceAll script.tree.pieces).on w := by
  unfold substituted
  rw [Script.ofLine, h, on_bind, on_ofChecked]
  exact congrArg (·.on w) script.tree.substituted_eq_replaceAll

/-! ## The input of a substitution -/

/-- That a substitution among some pieces is reached, and in which world. -/
inductive Starts (run : Text → Shell Text) : List Piece → World → Text → World → Prop
  | here {source line : Text} {later : List Piece} {w : World} :
      Starts run (.substitution source (some line) :: later) w line w
  | plain {text line : Text} {later : List Piece} {w v : World} :
      Starts run later w line v → Starts run (.plain text :: later) w line v
  | void {source line : Text} {later : List Piece} {w v : World} :
      Starts run later w line v → Starts run (.substitution source none :: later) w line v
  | after {source first out line : Text} {later : List Piece} {w w₁ v : World} :
      (run first).on w = (.ok out, w₁) → Starts run later w₁ line v →
      Starts run (.substitution source (some first) :: later) w line v

theorem starts_plain {text : Text} {later : List Piece} {v : World} :
    Starts run (.plain text :: later) w line v ↔ Starts run later w line v :=
  ⟨fun h => by cases h; assumption, .plain⟩

theorem starts_substitution {source first : Text} {later : List Piece} {v : World} :
    Starts run (.substitution source (some first) :: later) w line v ↔
      line = first ∧ v = w ∨
        ∃ out w₁, (run first).on w = (.ok out, w₁) ∧ Starts run later w₁ line v := by
  constructor
  · intro h
    cases h with
    | here => exact .inl ⟨rfl, rfl⟩
    | after hrun h => exact .inr ⟨_, _, hrun, h⟩
  · rintro (⟨rfl, rfl⟩ | ⟨out, w₁, hrun, h⟩)
    · exact .here
    · exact .after hrun h

/-- Two ways to run command lines replace pieces in the same way if they agree on every one that
is reached. -/
theorem Replaces.congr {run' : Text → Shell Text} (h : Replaces run pieces w result w')
    (hrun : ∀ line v, Starts run pieces w line v → (run line).on v = (run' line).on v) :
    Replaces run' pieces w result w' := by
  induction h with
  | done w => exact .done w
  | plain _ ih => exact (ih fun line v hstarts => hrun line v hstarts.plain).plain
  | void _ ih => exact (ih fun line v hstarts => hrun line v hstarts.void).void
  | ran hran _ ih =>
    exact .ran ((hrun _ _ .here).symm.trans hran)
      (ih fun line v hstarts => hrun line v (.after hran hstarts))
  | failed hran => exact .failed ((hrun _ _ .here).symm.trans hran)

/-- A command line whose plan does not strain writes on its usual input what it writes on an empty
one. -/
theorem on_outputOn_usualInput
    (h : ∀ plan, Line.plan utilities w line = .ok plan → plan.strains = false) :
    (outputOn Plan.usualInput line).on w = (outputOn (fun _ => .empty) line).on w := by
  unfold outputOn
  rw [on_bind, on_bind, on_get]
  dsimp only
  rw [on_bind, on_bind, on_ofChecked]
  cases hplan : Line.plan utilities w line with
  | error failure => rfl
  | ok plan =>
    dsimp only
    rw [on_bind, on_bind]
    rcases hbuild : (plan.build .both).on w with ⟨failure | job, w'⟩
    · rfl
    · exact plan.on_outputWith_usualInput (h plan hplan) hbuild

/-- A line that can be read falls into pieces, and running its substitutions replaces exactly
these, in order and as long as none fails. Each runs on the input that its plan usually has. That
is an empty one, unless a sequence is reached whose first command listens. -/
theorem substituted_replaces (line : Text) (script : Script) (w : World)
    (hread : Script.ofLine? line = some script) :
    script.tree.pieces.flatMap Piece.source = unbroken line ∧
    (∀ result w', (substituted line).on w = (result, w') ↔
      Replaces (outputOn Plan.usualInput) script.tree.pieces w result w') ∧
    ((∀ inner v, Starts (outputOn Plan.usualInput) script.tree.pieces w inner v →
        ∀ plan, Line.plan utilities v inner = .ok plan → plan.strains = false) →
      ∀ result w', (substituted line).on w = (result, w') ↔
        Replaces (outputOn fun _ => .empty) script.tree.pieces w result w') := by
  refine ⟨?_, fun result w' => ?_, fun hstrains result w' => ?_⟩
  · rw [Tree.flatMap_pieces, Tree.text, Script.tokens_of_ofLine? hread, Token.text_ofLine]
    rfl
  · rw [on_substituted hread]
    exact on_replaceAll_iff
  · have hagree : ∀ inner v, Starts (outputOn Plan.usualInput) script.tree.pieces w inner v →
        (outputOn Plan.usualInput inner).on v = (outputOn (fun _ => .empty) inner).on v :=
      fun inner v hstarts => on_outputOn_usualInput (hstrains inner v hstarts)
    obtain ⟨result', w'', husual⟩ :=
      exists_replaces (outputOn Plan.usualInput) script.tree.pieces w
    have hempty := husual.congr hagree
    rw [on_substituted hread, husual.on_replaceAll]
    constructor
    · intro h
      cases h
      exact hempty
    · intro h
      obtain ⟨rfl, rfl⟩ := hempty.unique h
      rfl

/-! ## A sequence in a substitution -/

section Sequences

open Evaluation

theorem on_outputOn_of_plan {p : Plan Utility} (h : plan utilities w line = .ok p)
    (input : Plan Utility → Stream) :
    (outputOn input line).on w = (p.build .both >>= fun job => job.outputWith (input p)).on w := by
  unfold outputOn
  rw [on_bind, on_get]
  dsimp only
  rw [on_bind, on_ofChecked, h]

/-- Two substitutions, one of them a sequence between quotes that begins with `echo`. -/
theorem substituted_replaces_quoted : ∃ script,
    Script.ofLine? "echo \"\x60echo hi ; cat f\x60\"\x60cat f\x60".toList = some script ∧
      (substituted "echo \"\x60echo hi ; cat f\x60\"\x60cat f\x60".toList).on filedWorld =
        (.ok "echo \"hi hi\"hi".toList, filedWorld) := by
  have hread : ∃ script,
      Script.ofLine? "echo \"\x60echo hi ; cat f\x60\"\x60cat f\x60".toList = some script ∧
        script.tree.pieces = [.plain "echo".toList, .plain [' '], .plain ['"'],
          .substitution "\x60echo hi ; cat f\x60".toList (some "echo hi ; cat f".toList),
          .plain ['"'], .substitution "\x60cat f\x60".toList (some "cat f".toList)] :=
    Option.map_eq_some_iff.mp (by decide +kernel)
  have hboth : plan utilities filedWorld "echo hi ; cat f".toList = _ :=
    plan_of_sequence (some [' ']) (some [' ']) (by decide +kernel) plan_echoing
      (plan_showing (.inr rfl))
  have hshow : plan utilities filedWorld "cat f".toList = .ok (.simple (.command .cat [] [['f']])) :=
    (plan_of_planOf (by decide) (congrArg Prod.fst (on_planOf_showing (.inr rfl)))).2
  obtain ⟨script, hread, hpieces⟩ := hread
  refine ⟨script, hread, ((substituted_replaces _ script filedWorld hread).2.2 ?_ _ _).mpr ?_⟩
  · rw [hpieces]
    intro inner v hstarts p hplan
    rw [starts_plain, starts_plain, starts_plain, starts_substitution] at hstarts
    rcases hstarts with ⟨rfl, rfl⟩ | ⟨out, w, hrun, hstarts⟩
    · rw [hboth] at hplan
      cases hplan
      rfl
    · rw [on_outputOn_of_plan hboth] at hrun
      rw [starts_plain, starts_substitution] at hstarts
      rcases hstarts with ⟨rfl, rfl⟩ | ⟨_, _, _, hstarts⟩
      · have hworld : v = filedWorld := by
          cbv at hrun
          cases hrun
          rfl
        rw [hworld, hshow] at hplan
        cases hplan
        rfl
      · cases hstarts
  · rw [hpieces]
    have hfirst : (outputOn (fun _ => .empty) "echo hi ; cat f".toList).on filedWorld =
        (.ok "hi\nhi\n".toList, filedWorld) := by
      rw [on_outputOn_of_plan hboth]
      cbv
    have hsecond : (outputOn (fun _ => .empty) "cat f".toList).on filedWorld =
        (.ok "hi\n".toList, filedWorld) := by
      rw [on_outputOn_of_plan hshow]
      cbv
    exact .plain (.plain (.plain (.ran hfirst (.plain (.ran hsecond (.done _))))))

/-- A sequence that begins with `cat` fails, where on an empty input it would write two lines. -/
theorem substituted_strained : ∃ script,
    Script.ofLine? "echo \x60cat f ; echo hi\x60".toList = some script ∧
      Replaces (outputOn fun _ => .empty) script.tree.pieces filedWorld
        (.ok "echo hi hi".toList) filedWorld ∧
      (substituted "echo \x60cat f ; echo hi\x60".toList).on filedWorld =
        (.error (.crash .unsupported), filedWorld) := by
  have hread : ∃ script, Script.ofLine? "echo \x60cat f ; echo hi\x60".toList = some script ∧
      script.tree.pieces = [.plain "echo".toList, .plain [' '],
        .substitution "\x60cat f ; echo hi\x60".toList (some "cat f ; echo hi".toList)] :=
    Option.map_eq_some_iff.mp (by decide +kernel)
  have hboth : plan utilities filedWorld "cat f ; echo hi".toList = _ :=
    plan_of_sequence (some [' ']) (some [' ']) (by decide +kernel) (plan_showing (.inr rfl))
      plan_echoing
  obtain ⟨script, hread, hpieces⟩ := hread
  refine ⟨script, hread, ?_, ?_⟩
  · have hrun : (outputOn (fun _ => .empty) "cat f ; echo hi".toList).on filedWorld =
        (.ok "hi\nhi\n".toList, filedWorld) := by
      rw [on_outputOn_of_plan hboth]
      cbv
    rw [hpieces]
    exact .plain (.plain (.ran hrun (.done _)))
  · have hrun : (outputOn Plan.usualInput "cat f ; echo hi".toList).on filedWorld =
        (.error (.crash .unsupported), filedWorld) := by
      rw [on_outputOn_of_plan hboth]
      cbv
    rw [on_substituted hread, hpieces, on_replaceAll_iff]
    exact .plain (.plain (.failed hrun))

end Sequences

end Line

end CommandShell

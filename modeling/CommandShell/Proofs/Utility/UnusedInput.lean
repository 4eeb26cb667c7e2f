import CommandShell.Proofs.Utility.Filters

/-!
# An input that is not asked for

A command that is given its files does not look at its input, whatever is on it. The one exception
is `cat`, which copies an input that is not empty and leaves its files alone.
-/

namespace CommandShell

open CommandShell.Action

namespace Cat

/-- The text that `cat` copies: its input if there is any, and else that of its files, if they can
be read. -/
def copied? (w : World) (files : List Text) (input : Text) : Option Text :=
  if input = [] then w.joined? files else some input

theorem eq_nil_of_copied? {w : World} {files : List Text} {input : Text}
    (h : copied? w files input = none) : input = [] := by
  unfold copied? at h
  split_ifs at h with hinput
  exact hinput

theorem copied?_eq_iff {w : World} {files : List Text} {s t : Text} :
    copied? w files s = copied? w files t ↔
      s = t ∨ s = [] ∧ w.joined? files = some t ∨ t = [] ∧ w.joined? files = some s := by
  unfold copied?
  by_cases hs : s = [] <;> by_cases ht : t = [] <;> simp [hs, ht, eq_comm]

end Cat

/-- What is seen of an effect, the input apart. -/
def Effect.seen (effect : Effect) : Except Failure Int × Stream × World :=
  (effect.result, effect.scene.output, effect.world)

/-- Whether operands name files for a command that turns a text into another one. More than one
file for `head` or `tail` makes it look at its input. -/
def Utility.namesFiles : Utility → List Text → Bool
  | cat, files | cut, files | sort, files | uniq, files | wc, files => !files.isEmpty
  | head, files | tail, files => files.length = 1
  | grep, operands | sed, operands => !operands.tail.isEmpty
  | _, _ => false

theorem Utility.not_listens_of_namesFiles {utility : Utility} {operands : List Text}
    (h : utility.namesFiles operands = true) (hcat : utility ≠ .cat) :
    utility.listens operands = false := by
  cases utility <;> simp_all [namesFiles, listens]

namespace Plan

section Seen

variable {utility : Utility} {flags : List Flag} {operands : List Text} {w : World}
  {output : Stream} (houtput : output.isWritable = true)
include houtput

theorem seen_effect_of_not_listens (h : utility.listens operands = false) {input input' : Stream}
    (hinput : input.isConnected = true) (hinput' : input'.isConnected = true) :
    ((simple (.command utility flags operands)).effect ⟨w, input, output⟩).seen =
      ((simple (.command utility flags operands)).effect ⟨w, input', output⟩).seen := by
  cases hcheck : Invocation.check utility ⟨some flags, some operands, true⟩ w with
  | error failure =>
    rw [effect_of_refused hinput houtput hcheck, effect_of_refused hinput' houtput hcheck]
    rfl
  | ok invocation =>
    have hdeaf := Invocation.deaf_run ((Invocation.listens_of_check hcheck).trans h)
      ⟨w, input', output⟩ input
    rw [effect_of_accepted hinput houtput hcheck, effect_of_accepted hinput' houtput hcheck]
    dsimp only at hdeaf ⊢
    rw [hdeaf]
    rfl

theorem seen_effect_cat (hfiles : operands ≠ []) (w : World) (input : Text) :
    match Cat.copied? w operands input with
    | some text => ((simple (.command .cat [] operands)).effect ⟨w, .ofText input, output⟩).seen =
        (.ok 0, output.pour text, w)
    | none => ∃ failure,
        ((simple (.command .cat [] operands)).effect ⟨w, .ofText input, output⟩).result =
          .error failure := by
  have hcheck : Invocation.check .cat ⟨some [], some operands, true⟩ w =
    .ok (.cat ⟨operands⟩) := rfl
  have hcopied : ∀ text, (Cat.run ⟨operands⟩).Writes w (.ofText input) (.ok text) →
      ((simple (.command .cat [] operands)).effect ⟨w, .ofText input, output⟩).seen =
        (.ok 0, output.pour text, w) := by
    intro text hwrites
    obtain ⟨input', heffect⟩ := effect_of_writes rfl houtput hcheck hwrites
    rw [heffect]
    rfl
  unfold Cat.copied?
  by_cases hinput : input = []
  · subst hinput
    rw [if_pos rfl]
    cases hjoined : w.joined? operands with
    | some text => exact hcopied text ((Cat.writes_copy hjoined .empty).congr
        (Cat.on_run_files hfiles w))
    | none =>
      obtain ⟨failure, after, hon⟩ := Cat.exists_error_copy hjoined .empty houtput
      refine ⟨failure, ?_⟩
      rw [effect_of_accepted rfl houtput hcheck]
      change ((Cat.run ⟨operands⟩).on ⟨w, .empty, output⟩).1.map _ = _
      rw [Cat.on_run_files hfiles, hon]
      rfl
  · rw [if_neg hinput]
    exact hcopied input (Cat.writes_run_input operands hinput)

private theorem seen_effect_cat_eq_iff (hfiles : operands ≠ []) (s t : Text) :
    ((simple (.command .cat [] operands)).effect ⟨w, .ofText s, output⟩).seen =
        ((simple (.command .cat [] operands)).effect ⟨w, .ofText t, output⟩).seen ↔
      Cat.copied? w operands s = Cat.copied? w operands t := by
  have hs := seen_effect_cat houtput hfiles w s
  have ht := seen_effect_cat houtput hfiles w t
  cases hfirst : Cat.copied? w operands s with
  | none =>
    rw [hfirst] at hs
    obtain ⟨failure, hs⟩ := hs
    cases hsecond : Cat.copied? w operands t with
    | none =>
      rw [Cat.eq_nil_of_copied? hfirst, Cat.eq_nil_of_copied? hsecond]
      exact iff_of_true rfl rfl
    | some text =>
      rw [hsecond] at ht
      refine iff_of_false (fun heq => ?_) nofun
      cases hs.symm.trans (congrArg Prod.fst (heq.trans ht))
  | some text =>
    rw [hfirst] at hs
    cases hsecond : Cat.copied? w operands t with
    | none =>
      rw [hsecond] at ht
      obtain ⟨failure, ht⟩ := ht
      refine iff_of_false (fun heq => ?_) nofun
      cases ht.symm.trans (congrArg Prod.fst (heq.symm.trans hs))
    | some text' =>
      rw [hsecond] at ht
      rw [hs, ht, Option.some.injEq]
      refine ⟨fun heq => Stream.pour_injective houtput ?_, fun heq => by rw [heq]⟩
      exact congrArg (fun seen => seen.2.1) heq

/-- The input of a command that is given its files makes no difference, unless the command is
`cat`: it copies the input if there is any, so two inputs make none only if they are the same or
one is empty and the other is what the files hold. -/
theorem seen_effect_eq_iff (hfiles : utility.namesFiles operands = true) (s t : Text) :
    ((simple (.command utility flags operands)).effect ⟨w, .ofText s, output⟩).seen =
        ((simple (.command utility flags operands)).effect ⟨w, .ofText t, output⟩).seen ↔
      (utility = .cat → flags = [] →
        s = t ∨ s = [] ∧ w.joined? operands = some t ∨ t = [] ∧ w.joined? operands = some s) := by
  by_cases hcat : utility = .cat
  · subst hcat
    have hne : operands ≠ [] := by simpa [Utility.namesFiles] using hfiles
    cases flags with
    | nil =>
        rw [seen_effect_cat_eq_iff houtput hne, Cat.copied?_eq_iff]
        exact ⟨fun h _ _ => h, fun h => h rfl rfl⟩
    | cons flag later =>
        have hcheck : Invocation.check .cat ⟨some (flag :: later), some operands, true⟩ w =
          .error (.complaint .catFlags) := rfl
        rw [effect_of_refused rfl houtput hcheck, effect_of_refused rfl houtput hcheck]
        exact iff_of_true rfl fun _ => nofun
  · exact iff_of_true (seen_effect_of_not_listens houtput
      (Utility.not_listens_of_namesFiles hfiles hcat) rfl rfl) fun h => absurd h hcat

end Seen

/-- What the files hold may as well be on the input. -/
theorem seen_effect_cat_joined :
    ((simple (.command .cat [] [['a'], ['d']])).effect ⟨shelf, .ofText [], .empty⟩).seen =
      ((simple (.command .cat [] [['a'], ['d']])).effect
        ⟨shelf, .ofText "x\ny".toList, .empty⟩).seen :=
  (seen_effect_eq_iff rfl rfl [] "x\ny".toList).2 fun _ _ => .inr (.inl ⟨rfl, by cbv⟩)

/-- An input that is not empty takes the place of the file. -/
theorem held_effect_cat_input :
    ((simple (.command .cat [] [['a']])).effect ⟨shelf, .ofText [], .empty⟩).scene.output.held =
        "x\n".toList ∧
      ((simple (.command .cat [] [['a']])).effect
        ⟨shelf, .ofText ['z'], .empty⟩).scene.output.held = ['z'] := by
  constructor <;> cbv

end Plan

end CommandShell

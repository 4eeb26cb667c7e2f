import CommandShell.Proofs.Line.WordValues
import CommandShell.Proofs.Plan.Outcomes
import CommandShell.Proofs.Token.Escaping

/-!
# Where the texts of a plan come from

The operands of a command and the files of its redirects are made of characters of the line, or
they are paths in the tree of files. So a NUL character gets into them only from the line. Planning
itself crashes for two reasons: a path to be expanded has a NUL character, or the name of a command
is empty.
-/

namespace CommandShell

open List

/-! ## Expansion -/

theorem Path.split_subset (path : Text) : (split path).1 ⊆ path ∧ (split path).2 ⊆ path := by
  have hbase : (split path).2 ⊆ path := fun c hc => by
    simpa using (takeWhile_subset _) (mem_reverse.mp hc)
  refine ⟨fun c hc => ?_, hbase⟩
  unfold split at hc
  dsimp only at hc
  split_ifs at hc
  · exact mem_of_mem_take hc
  · have hdrop := (dropWhile_subset _) (mem_reverse.mp hc)
    exact mem_of_mem_take (mem_reverse.mp hdrop)

variable {dir s : Text} {spec : FlagSpec}

theorem Path.mem_join {c : Char} {path : Text} (h : c ∈ join dir path) :
    c ∈ dir ∨ c = '/' ∨ c ∈ path := by
  unfold join at h
  split_ifs at h
  · exact .inr (.inr h)
  · exact (mem_append.mp h).imp_right .inr
  · simpa using h

namespace Expansion

/-- A result that is as it should be, or a crash because of a NUL character, if there may be
one. -/
def Bears {α : Type} (nul : Prop) (Q : α → Prop) : Except Crash α → Prop
  | .ok a => Q a
  | .error cause => cause = .nulInPath ∧ nul

section Bears

variable {α β : Type} {nul : Prop} {Q : α → Prop} {R : β → Prop}

theorem Bears.bind {x : Except Crash α} {f : α → Except Crash β} (h : Bears nul Q x)
    (hf : ∀ a, Q a → Bears nul R (f a)) : Bears nul R (x >>= f) := by
  cases x with
  | error cause => exact h
  | ok a => exact hf a h

theorem bears_mapM {f : α → Except Crash β} {xs : List α} (h : ∀ a ∈ xs, Bears nul R (f a)) :
    Bears nul (fun bs => ∀ b ∈ bs, R b) (xs.mapM f) := by
  induction xs with
  | nil => exact fun b hb => nomatch hb
  | cons a xs ih =>
    rw [forall_mem_cons] at h
    rw [mapM_cons]
    refine h.1.bind fun b hb => (ih h.2).bind fun bs hbs => ?_
    exact forall_mem_cons.mpr ⟨hb, hbs⟩

end Bears

/-- No path has a NUL character, unless there may be one. -/
abbrev Clear (nul : Prop) (paths : List Text) : Prop := ∀ path ∈ paths, '\x00' ∈ path → nul

section Worlds

variable {textual nul : Prop} {w : World} (hw : w.InOrder textual)
include hw

private theorem nul_not_mem_of_find {path : Text} {place : Location} {found : Entries}
    (h : w.find path = .ok (place, .dir found)) : ∀ entry ∈ found, '\x00' ∉ entry.1 := by
  intro entry hentry
  obtain ⟨-, hget⟩ := World.find_eq_ok.1 h
  have hsome : (Entries.get? entry.1 found).isSome = true := by
    rw [Entries.get?, Option.isSome_map, List.find?_isSome]
    exact ⟨entry, hentry, by simp⟩
  obtain ⟨child, hchild⟩ := Option.isSome_iff_exists.mp hsome
  have hplace : w.root.get? (place ++ [entry.1]) = some child := by
    rw [Node.get?_append, hget, Option.bind_some, Node.get?_cons_dir, hchild]
    rfl
  exact hw.names _ child hplace entry.1 (by simp)

private theorem bears_entries (hdir : '\x00' ∈ dir → nul) :
    Bears nul (fun found => ∀ entry ∈ found, '\x00' ∉ entry.1) (entries w dir) := by
  unfold entries
  dsimp only
  generalize hpath : (if dir.isEmpty then ['.'] else dir) = path
  have hnul : '\x00' ∈ path → nul := by
    intro hmem
    apply hdir
    split_ifs at hpath <;> subst hpath
    · simp at hmem
    · exact hmem
  split_ifs with hcontains
  · exact ⟨rfl, hnul (by simpa using hcontains)⟩
  · split
    · next place found hfind => exact nul_not_mem_of_find hw hfind
    · exact fun entry hentry => nomatch hentry

theorem bears_fitting (hdir : '\x00' ∈ dir → nul) (pattern : Text) (dirsOnly : Bool) :
    Bears nul (Clear nul) (fitting w dir pattern dirsOnly) := by
  refine (bears_entries hw hdir).bind fun found hfound name hname hnul => ?_
  have hmem : name ∈ (found.filter fun entry => !dirsOnly || entry.2.isDir).map (·.1) := by
    have hname := (mem_filter.mp hname).1
    split_ifs at hname
    · exact hname
    · exact (mem_filter.mp hname).1
  obtain ⟨entry, hentry, rfl⟩ := mem_map.mp hmem
  exact absurd hnul (hfound entry (mem_filter.mp hentry).1)

theorem bears_below {dirs : List Text} {base : Text} (hdirs : Clear nul dirs)
    (hbase : '\x00' ∈ base → nul) (dirsOnly : Bool) :
    Bears nul (Clear nul) (below w dirs base dirsOnly) := by
  refine (bears_mapM (R := Clear nul) fun dir hdir => ?_).bind fun found hfound path hpath => ?_
  · have hjoin : ∀ names, Clear nul names → Clear nul (names.map (Path.join dir)) := by
      intro names hnames path hpath hnul
      obtain ⟨name, hname, rfl⟩ := mem_map.mp hpath
      rcases Path.mem_join hnul with h | h | h
      · exact hdirs dir hdir h
      · cases h
      · exact hnames name hname h
    dsimp only
    split_ifs
    · exact (bears_fitting hw (hdirs dir hdir) base dirsOnly).bind hjoin
    · refine hjoin _ fun name hname => ?_
      unfold literal at hname
      split_ifs at hname <;> simp only [mem_singleton, not_mem_nil] at hname
      all_goals exact hname ▸ hbase
  · obtain ⟨paths, hpaths, hpath⟩ := mem_flatten.mp hpath
    exact hfound paths hpaths path hpath

private theorem bears_matching (pattern : Text) (dirsOnly : Bool)
    (hpattern : '\x00' ∈ pattern → nul) : Bears nul (Clear nul) (matching w pattern dirsOnly) := by
  fun_induction matching w pattern dirsOnly with
  | case1 pattern dirsOnly hany =>
    intro path hpath
    have hsame : path = pattern := by
      unfold existing at hpath
      simp only [mem_ite_nil_right, mem_singleton] at hpath
      exact hpath.2
    exact hsame ▸ hpattern
  | case2 pattern dirsOnly => exact bears_fitting hw (by simp) _ _
  | case3 pattern dirsOnly dir base hany hempty hdir ih =>
    have hsub := Path.split_subset pattern
    exact (ih fun h => hpattern (hsub.1 h)).bind fun dirs hdirs =>
      bears_below hw hdirs (fun h => hpattern (hsub.2 h)) dirsOnly
  | case4 pattern dirsOnly dir base hany hempty hdir =>
    have hsub := Path.split_subset pattern
    refine bears_below hw ?_ (fun h => hpattern (hsub.2 h)) dirsOnly
    intro path hpath hnul
    rw [mem_singleton.mp hpath] at hnul
    exact hpattern (hsub.1 hnul)

theorem bears_paths (pattern : Text) :
    Bears ('\x00' ∈ pattern) (Clear ('\x00' ∈ pattern)) (paths w pattern) :=
  (bears_matching hw pattern false id).bind fun _ hfound path hpath =>
    hfound path (mem_mergeSort.mp hpath)

end Worlds

end Expansion

/-! ## Words -/

@[simp] theorem Tree.text_leaf (token : Token) : (leaf token).text = token.text := by
  simp [text, tokens]

@[simp] theorem Tree.text_node (rule : Rule) (children : List Tree) :
    (node rule children).text = children.flatMap text := by
  rw [text, tokens]
  induction children with
  | nil => rfl
  | cons t ts ih => rw [tokensOf, flatMap_append, ih, flatMap_cons, text]

theorem Tree.text_subset_node {t : Tree} {children : List Tree} (h : t ∈ children) (rule : Rule) :
    t.text ⊆ (node rule children).text := by
  rw [text_node]
  exact fun _ hc => mem_flatMap.mpr ⟨t, h, hc⟩

namespace Line

theorem replacePair_subset (a b : Char) (s : Text) : Text.replacePair a b b s ⊆ s := by
  fun_induction Text.replacePair a b b s with
  | case1 x y rest h ih =>
    rw [h.2]
    exact List.Subset.trans (cons_subset_cons b ih) (subset_cons_self x _)
  | case2 x y rest h ih => exact cons_subset_cons x ih
  | case3 rest => exact List.Subset.refl _

theorem unescape_subset (s : Text) : unescape s ⊆ s :=
  List.Subset.trans (replacePair_subset _ _ _)
    (List.Subset.trans (replacePair_subset _ _ _) (replacePair_subset _ _ s))

/-- A value, if there is one, that has only characters of a text. -/
def MadeOf (x : Except Complaint Text) (t : Text) : Prop := ∀ s, x = .ok s → s ⊆ t

theorem madeOf_ok {t : Text} (h : s ⊆ t) : MadeOf (.ok s) t := by
  rintro _ ⟨⟩
  exact h

theorem madeOf_append {x y : Except Complaint Text} {t u : Text} (hx : MadeOf x t)
    (hy : MadeOf y u) : MadeOf (do return (← x) ++ (← y)) (t ++ u) := by
  intro s h
  cases x with
  | error cause => cases h
  | ok s₁ =>
    cases y with
    | error cause => cases h
    | ok s₂ =>
      cases h
      exact append_subset.mpr
        ⟨List.Subset.trans (hx s₁ rfl) (subset_append_left _ _),
          List.Subset.trans (hy s₂ rfl) (subset_append_right _ _)⟩

theorem madeOf_before {s t u : Text} {y : Except Complaint Text} (h : s ⊆ t) (hy : MadeOf y u) :
    MadeOf (do return s ++ (← y)) (t ++ u) :=
  madeOf_append (x := .ok s) (madeOf_ok h) hy

theorem madeOf_error (cause : Complaint) (t : Text) : MadeOf (.error cause) t := nofun

theorem Body.madeOf_value (quote : Quote) (body : Body) :
    MadeOf (body.value quote) ((body.trees quote).flatMap Tree.text) := by
  match body with
  | .done => exact madeOf_ok (nil_subset _)
  | .mark rest =>
    rw [Body.value, Body.trees, flatMap_cons, Tree.text_leaf]
    exact madeOf_before (List.Subset.refl _) (rest.madeOf_value quote)
  | .literal token rest =>
    rw [Body.value, Body.trees, flatMap_cons, Tree.text_node, flatMap_singleton,
      Tree.text_leaf]
    exact madeOf_before (List.Subset.refl _) (rest.madeOf_value quote)
  | .space t rest =>
    rw [Body.value, Body.trees, flatMap_cons, spaceLeaf, Tree.text_leaf]
    exact madeOf_before (List.Subset.refl _) (rest.madeOf_value quote)
  | .substitution inner rest => exact madeOf_error _ _

theorem Quoted.madeOf_value (q : Quoted) : MadeOf q.value q.tree.text := by
  cases q with
  | mk quote body =>
    refine fun s h => List.Subset.trans (body.madeOf_value quote s h) ?_
    simp only [Quoted.tree, Tree.text_node, flatMap_cons, flatMap_append,
      cons_append, flatMap_nil, append_nil]
    exact List.Subset.trans (subset_append_left _ _) (subset_append_right _ _)

theorem Strings.madeOf_value (run : Strings) : MadeOf run.value (run.trees.flatMap Tree.text) := by
  match run with
  | .one first =>
    rw [Strings.value, Strings.trees, flatMap_singleton]
    exact first.madeOf_value
  | .more first rest =>
    rw [Strings.value, Strings.trees, flatMap_cons]
    exact madeOf_append first.madeOf_value rest.madeOf_value

theorem text_voidLeaves (gap : Option Text) :
    gapText gap ⊆ (voidLeaves gap).flatMap Tree.text := by
  cases gap with
  | none => exact nil_subset _
  | some t => simp [voidLeaves, gapLeaves, gapText, spaceLeaf, Token.text]

theorem Word.madeOf_value (word : Word) : MadeOf word.value word.text := by
  unfold Word.text
  match word with
  | .chars t =>
    rw [Word.value, Word.tree, Tree.text_node, flatMap_singleton, Tree.text_leaf]
    exact madeOf_ok (unescape_subset t)
  | .dash => exact madeOf_ok (by simp [Token.text])
  | .voidBefore gap rest =>
    rw [Word.value, Word.tree, Tree.text_node, flatMap_append, flatMap_singleton]
    exact madeOf_before (text_voidLeaves gap) rest.madeOf_value
  | .substitutionBefore inner rest => exact madeOf_error _ _
  | .substitution inner => exact madeOf_error _ _
  | .strings run =>
    rw [Word.value, Word.tree, Tree.text_node]
    exact run.madeOf_value
  | .stringBefore first rest =>
    rw [Word.value, Word.tree, Tree.text_node, flatMap_cons, flatMap_singleton]
    exact madeOf_append first.madeOf_value rest.madeOf_value
  | .charsBefore t rest =>
    rw [Word.value, Word.tree, Tree.text_node, flatMap_cons, flatMap_singleton,
      Tree.text_leaf]
    exact madeOf_before (unescape_subset t) rest.madeOf_value
  | .dashBefore rest =>
    rw [Word.tree, Tree.text_node, flatMap_cons, flatMap_singleton, Tree.text_leaf]
    exact madeOf_before (List.Subset.refl ['-']) rest.madeOf_value
  | .stringAfter front last =>
    rw [Word.value, Word.tree, Tree.text_node, flatMap_cons, flatMap_singleton]
    exact madeOf_append front.madeOf_value last.madeOf_value
  | .voidAfter front gap =>
    rw [Word.tree, Tree.text_node, flatMap_cons]
    exact madeOf_append front.madeOf_value (madeOf_ok (text_voidLeaves gap))
  | .substitutionAfter front inner =>
    intro s h
    rw [Word.value] at h
    cases hfront : front.value <;> (rw [hfront] at h; cases h)

end Line

/-! ## Flags and operands -/

namespace Simple

variable {κ : Type} {nul : Prop}

@[simp] theorem flags_addFlag (flag : Flag) (simple : Simple κ) :
    (simple.addFlag flag).flags = simple.flags ++ [flag] := by
  induction simple with
  | command c flags operands => rfl
  | redirect source sink child ih => exact ih

theorem paths_addFlag (flag : Flag) (simple : Simple κ) :
    (simple.addFlag flag).operands = simple.operands ∧
      (simple.addFlag flag).files = simple.files := by
  induction simple with
  | command c flags operands => exact ⟨rfl, rfl⟩
  | redirect source sink child ih => exact ⟨ih.1, by rw [addFlag, files, ih.2, files]⟩

@[simp] theorem operands_addOperand (operand : Text) (simple : Simple κ) :
    (simple.addOperand operand).operands = simple.operands ++ [operand] := by
  induction simple with
  | command c flags operands => rfl
  | redirect source sink child ih => exact ih

theorem others_addOperand (operand : Text) (simple : Simple κ) :
    (simple.addOperand operand).flags = simple.flags ∧
      (simple.addOperand operand).files = simple.files := by
  induction simple with
  | command c flags operands => exact ⟨rfl, rfl⟩
  | redirect source sink child ih => exact ⟨ih.1, by rw [addOperand, files, ih.2, files]⟩

theorem Orderly.addFlag {simple : Simple κ} (h : simple.Orderly nul) {flag : Flag}
    (hflag : flag.value.HoldsTexts) : (simple.addFlag flag).Orderly nul where
  paths := by
    rw [(paths_addFlag flag simple).1, (paths_addFlag flag simple).2]
    exact h.paths
  lists := by
    rw [flags_addFlag, forall_mem_append, forall_mem_singleton]
    exact ⟨h.lists, hflag⟩

theorem Orderly.addOperand {simple : Simple κ} (h : simple.Orderly nul) {operand : Text}
    (hoperand : '\x00' ∈ operand → nul) : (simple.addOperand operand).Orderly nul where
  paths := by
    have hpaths := forall_mem_append.mp h.paths
    rw [operands_addOperand, (others_addOperand operand simple).2, forall_mem_append,
      forall_mem_append, forall_mem_singleton]
    exact ⟨⟨hpaths.1, hoperand⟩, hpaths.2⟩
  lists := by
    rw [(others_addOperand operand simple).1]
    exact h.lists

theorem Orderly.addOperands {simple : Simple κ} (h : simple.Orderly nul) {operands : List Text}
    (hoperands : ∀ operand ∈ operands, '\x00' ∈ operand → nul) :
    (operands.foldl (fun simple operand => simple.addOperand operand) simple).Orderly nul := by
  induction operands generalizing simple with
  | nil => exact h
  | cons operand operands ih =>
    rw [forall_mem_cons] at hoperands
    exact ih (h.addOperand hoperands.1) hoperands.2

end Simple

/-- A declaration whose values hold texts. -/
def FlagSpec.ListsTexts : FlagSpec → Prop
  | wildcard => True
  | named _ type _ => type ≠ .ints ∧ type ≠ .floats

private theorem FlagSpec.value_of_withValue {value : Value} {flag : Flag}
    (h : spec.withValue value = .ok flag) : flag.value = value := by
  unfold withValue at h
  split at h
  · cases h
  · cases h
  · split_ifs at h
    cases h
    rfl

private theorem ValueType.holdsTexts_of_read? {type : ValueType} (hints : type ≠ .ints)
    (hfloats : type ≠ .floats) {value : Value} (h : type.read? s = some value) :
    value.HoldsTexts := by
  rintro items rfl
  cases type with
  | texts =>
    cases h
    exact ⟨_, rfl⟩
  | ints => exact absurd rfl hints
  | floats => exact absurd rfl hfloats
  | _ => simp [read?] at h

theorem FlagSpec.holdsTexts_of_ofText (hspec : spec.ListsTexts) {flag : Flag}
    (h : spec.ofText (some s) = .ok flag) : flag.value.HoldsTexts := by
  cases spec with
  | wildcard => cases h
  | named name type help =>
    rw [ofText] at h
    cases hread : type.read? s with
    | none =>
      rw [hread] at h
      cases h
    | some value =>
      rw [hread] at h
      rw [value_of_withValue h]
      exact ValueType.holdsTexts_of_read? hspec.1 hspec.2 hread

theorem Utility.listsTexts (utility : Utility) :
    ∀ spec ∈ utility.specification.flags, spec.ListsTexts := by
  cases utility <;> simp [specification, usual, flag, Specification.ordinary,
    Specification.helpFlag, FlagSpec.ListsTexts]

namespace Line

variable {α : Type} {nul : Prop} {w : World} {x : Command}

theorem within_orComplain {P : Crash → Prop} {Q : α → Prop} {x : Except Complaint α}
    (h : ∀ a, x = .ok a → Q a) : (orComplain x).Within P Q := by
  cases x with
  | error cause => trivial
  | ok a => exact h a rfl

namespace Progress

variable {κ : Type} {P : Crash → Prop}

/-- A command in order, with a flag that can be completed. -/
structure Orderly (nul : Prop) (progress : Progress κ) : Prop where
  simple : progress.simple.Orderly nul
  waiting : ∀ spec ∈ progress.waiting, spec.ListsTexts

theorem within_needsValue {Q : α → Prop} (spec : FlagSpec) :
    (needsValue spec : Checked α).Within P Q :=
  (within_orComplain fun _ _ => trivial).bind fun _ _ => trivial

theorem Orderly.within_complete {progress : Progress κ} (h : progress.Orderly nul)
    (hspec : spec.ListsTexts) (value : Text) :
    (progress.complete spec value).Within P (Orderly nul) :=
  (within_orComplain fun _ hflag => FlagSpec.holdsTexts_of_ofText hspec hflag).bind
    fun _ hflag => ⟨h.simple.addFlag hflag, fun _ hnone => nomatch hnone⟩

private theorem Orderly.within_readFlag {progress : Progress κ} (h : progress.Orderly nul)
    {specification : Specification} (hspecs : ∀ spec ∈ specification.flags, spec.ListsTexts)
    {word : Text} (hword : '\x00' ∈ word → nul) :
    (progress.readFlag specification word).Within P (Orderly nul) := by
  unfold readFlag
  split
  · trivial
  · next spec _ hwaiting => exact h.within_complete (h.waiting spec hwaiting) _
  · exact ⟨h.simple.addOperand fun hnul => hword (by simpa using hnul), fun _ hnone => nomatch hnone⟩
  · next name help _ _ =>
      refine Checked.Within.bind (Q := fun flag => flag.value.HoldsTexts) ?_ fun flag hflag => ?_
      · exact fun items hitems => nomatch hitems
      · exact ⟨h.simple.addFlag hflag, h.waiting⟩
  · exact within_needsValue _
  · next spec _ _ hdeclared _ =>
      refine ⟨h.simple, fun waiting hwaiting => ?_⟩
      cases hwaiting
      exact hspecs _ (List.mem_of_find?_eq_some hdeclared)

private theorem Orderly.within_readArgument {textual : Prop} (hw : w.InOrder textual)
    {progress : Progress κ} (h : progress.Orderly (P .nulInPath)) {argument : Text}
    (hargument : '\x00' ∈ argument → P .nulInPath) :
    (progress.readArgument w argument).Within P (Orderly (P .nulInPath)) := by
  unfold readArgument
  split
  · next spec hwaiting => exact h.within_complete (h.waiting spec hwaiting) argument
  · have hpaths := Expansion.bears_paths hw argument
    split
    · next cause herror =>
        rw [herror] at hpaths
        obtain ⟨rfl, hnul⟩ := hpaths
        exact hargument hnul
    · next paths hok =>
        rw [hok] at hpaths
        refine ⟨h.simple.addOperands fun operand hoperand => ?_, fun _ hnone => nomatch hnone⟩
        split_ifs at hoperand
        · rw [mem_singleton.mp hoperand]
          exact hargument
        · exact fun hnul => hargument (hpaths operand hoperand hnul)

theorem Orderly.within_read {textual : Prop} (hw : w.InOrder textual) {progress : Progress κ}
    (h : progress.Orderly (P .nulInPath)) {specification : Specification}
    (hspecs : ∀ spec ∈ specification.flags, spec.ListsTexts) {modifier : Modifier}
    (hword : '\x00' ∈ modifier.word.text → P .nulInPath) :
    (progress.read w specification modifier).Within P (Orderly (P .nulInPath)) := by
  cases modifier with
  | flag name =>
    refine (within_orComplain fun s hs => ?_).bind fun s hs => h.within_readFlag hspecs hs
    exact fun hnul => hword (name.madeOf_value s hs hnul)
  | arg value =>
    refine (within_orComplain fun s hs => ?_).bind fun s hs => h.within_readArgument hw hs
    exact fun hnul => hword (value.madeOf_value s hs hnul)

theorem Orderly.within_finish {progress : Progress κ} (h : progress.Orderly nul) :
    progress.finish.Within P (Simple.Orderly nul) := by
  unfold finish
  split
  · exact h.simple
  · exact within_needsValue _

end Progress

/-! ## Commands -/

def Command.name : Command → Word
  | .mk _ name _ => name

def Redirect.target : Redirect → Word
  | .mk _ _ target => target

theorem Redirect.text_target (r : Redirect) : r.target.text ⊆ r.tree.text := by
  cases r with
  | mk direction gap target =>
    exact Tree.text_subset_node (mem_append_right _ mem_cons_self) .redirect

theorem Modifier.text_word (m : Modifier) : m.word.text ⊆ m.tree.text := by
  cases m <;> simp [Modifier.word, Word.text]

theorem Opening.mem_trees {r : Redirect} : (o : Opening) → r ∈ o.redirects → r.tree ∈ o.trees
  | .space t rest, h => mem_cons_of_mem _ (rest.mem_trees h)
  | .redirect first rest, h => by
    rcases mem_cons.mp h with rfl | h
    · exact mem_cons_self
    · exact mem_cons_of_mem _ (rest.mem_trees h)

theorem Ending.redirect_mem_trees {r : Redirect} :
    (e : Ending) → r ∈ e.redirects → r.tree ∈ e.trees
  | .redirect spaces first rest, h => by
    apply mem_append_right
    rcases mem_cons.mp h with rfl | h
    · exact mem_cons_self
    · exact mem_cons_of_mem _ (rest.redirect_mem_trees h)
  | .modifier t first rest, h =>
    mem_cons_of_mem _ (mem_cons_of_mem _ (rest.redirect_mem_trees h))

theorem Ending.modifier_mem_trees {m : Modifier} :
    (e : Ending) → m ∈ e.modifiers → m.tree ∈ e.trees
  | .redirect spaces first rest, h =>
    mem_append_right _ (mem_cons_of_mem _ (rest.modifier_mem_trees h))
  | .modifier t first rest, h => by
    apply mem_cons_of_mem
    rcases mem_cons.mp h with rfl | h
    · exact mem_cons_self
    · exact mem_cons_of_mem _ (rest.modifier_mem_trees h)

private theorem orderly_wrap {κ : Type} {redirects : List Redirect}
    (h : ∀ r ∈ redirects, '\x00' ∈ r.target.text → nul) {simple : Simple κ}
    (hsimple : simple.Orderly nul) : (redirects.foldl Redirect.wrap simple).Orderly nul := by
  induction redirects generalizing simple with
  | nil => exact hsimple
  | cons r redirects ih =>
    rw [forall_mem_cons] at h
    refine ih h.2 ⟨?_, ?_⟩
    · have hpaths := forall_mem_append.mp hsimple.paths
      rcases r with ⟨_ | _, gap, target⟩ <;>
        (refine forall_mem_append.mpr ⟨hpaths.1, ?_⟩
         exact forall_mem_cons.mpr ⟨h.1, hpaths.2⟩)
    · rcases r with ⟨_ | _, gap, target⟩ <;> exact hsimple.lists

section Plans

variable {κ : Type} {textual : Prop} {P : Crash → Prop} {catalog : Catalog κ} {w : World}
  (hw : w.InOrder textual)
  (hspecs : ∀ command, ∀ spec ∈ (catalog.specification command).flags, spec.ListsTexts)
include hw hspecs

theorem Command.within_plan (hnul : '\x00' ∈ x.tree.text → P .nulInPath)
    (hname : x.name.value = .ok [] → P .emptyName) :
    (x.plan catalog w).Within P fun plan =>
      ∀ simple ∈ plan.commands, simple.Orderly (P .nulInPath) := by
  obtain ⟨opening, name, ending⟩ := x
  have hredirects : ∀ r ∈ opening.redirects ++ ending.redirects,
      '\x00' ∈ r.target.text → P .nulInPath := by
    intro r hr hmem
    refine hnul (Tree.text_subset_node (t := r.tree) ?_ .command (r.text_target hmem))
    rcases mem_append.mp hr with hr | hr
    · exact mem_append_left _ (opening.mem_trees hr)
    · exact mem_append_right _ (mem_cons_of_mem _ (ending.redirect_mem_trees hr))
  have hmodifiers : ∀ m ∈ ending.modifiers, '\x00' ∈ m.word.text → P .nulInPath := by
    intro m hm hmem
    refine hnul (Tree.text_subset_node (t := m.tree) ?_ .command (m.text_word hmem))
    exact mem_append_right _ (mem_cons_of_mem _ (ending.modifier_mem_trees hm))
  refine (within_orComplain fun s hs => hs).bind fun s hs => ?_
  cases s with
  | nil => exact hname hs
  | cons first rest =>
    dsimp only
    split
    · trivial
    · next command _ =>
        have hstart : (Progress.mk ((opening.redirects ++ ending.redirects).foldl Redirect.wrap
            (.command command [] [])) none).Orderly (P .nulInPath) :=
          ⟨orderly_wrap hredirects ⟨fun _ h => (nomatch h), fun _ h => (nomatch h)⟩,
            fun _ h => nomatch h⟩
        -- The fold over the modifiers keeps the command in order, and the flag that waits typed.
        refine (Checked.within_foldlM hstart fun m hm progress hprogress => ?_).bind
          fun progress hprogress => ?_
        · exact hprogress.within_read hw (hspecs command) (hmodifiers m hm)
        · refine hprogress.within_finish.bind fun simple hsimple => ?_
          intro only honly
          have hmem : only = simple := by
            split_ifs at honly <;> exact mem_singleton.mp honly
          exact hmem ▸ hsimple

end Plans

def Script.commands (script : Script) : List Command :=
  match script.line with
  | none => []
  | some l => l.parts.flatten

section Joining

variable {κ : Type} {F : Failure → Prop} {Q : Plan κ → Prop} (hnone : F (.complaint .noCommand))
include hnone

theorem ends_planAll {join : Plan κ → Plan κ → Plan κ} (hjoin : ∀ p q, Q p → Q q → Q (join p q))
    {plan : α → Checked (Plan κ)} {xs : List α} (h : ∀ x ∈ xs, (plan x).Ends F Q) :
    (planAll join plan xs).Ends F Q := by
  cases xs with
  | nil => exact hnone
  | cons first later =>
    rw [forall_mem_cons] at h
    refine h.1.bind fun p hp => Checked.ends_foldlM hp fun x hx p hp => ?_
    exact (h.2 x hx).bind fun q hq => hjoin p q hp hq

/-- What holds of the plans of all commands, and of pipes and sequences if it holds of their parts,
holds of the plan. -/
theorem Script.ends_plan (hpipe : ∀ p q, Q p → Q q → Q (.pipe p q))
    (hseq : ∀ p q, Q p → Q q → Q (.seq p q)) {catalog : Catalog κ} {script : Script}
    (h : ∀ x ∈ script.commands, (x.plan catalog w).Ends F Q) :
    (script.plan catalog w).Ends F Q := by
  obtain ⟨line?, trailing⟩ := script
  cases line? with
  | none => exact hnone
  | some l =>
    change (l.plan catalog w).Ends F Q
    rw [CommandLine.plan_eq]
    refine ends_planAll hnone hseq fun part hpart => ends_planAll hnone hpipe fun x hx => ?_
    exact h x (mem_flatten.mpr ⟨part, hpart, hx⟩)

end Joining

/-! ## Lines -/

/-- Two parts with a separator between them hold the commands of both. -/
theorem CommandLine.text_subset {l : CommandLine} {x : Command} (h : x ∈ l.parts.flatten) :
    x.tree.text ⊆ l.tree.text := by
  induction l using CommandLine.induction with
  | command only =>
    rw [mem_singleton.mp h]
    exact Tree.text_subset_node mem_cons_self .commandLine
  | joined l left right hjoined ihleft ihright =>
    obtain ⟨joint, htokens⟩ := hjoined.tokens
    have htext : l.tree.text = left.tree.text ++ (joint.flatMap Token.text ++ right.tree.text) := by
      rw [Tree.text, htokens, flatMap_append, flatMap_append]
      rfl
    rw [hjoined.commands, mem_append] at h
    rw [htext]
    rcases h with h | h
    · exact subset_append_of_subset_left _ (ihleft h)
    · exact subset_append_of_subset_right _ (subset_append_of_subset_right _ (ihright h))

theorem Script.text_subset {line : Text} {script : Script} (hread : Script.ofLine? line = some script)
    {x : Command} (h : x ∈ script.commands) : x.tree.text ⊆ line := by
  have htext : script.tree.text ⊆ line := by
    rw [Tree.text, Script.tokens_of_ofLine? hread, Token.text_ofLine]
    exact filter_subset_self _
  obtain ⟨line?, trailing⟩ := script
  cases line? with
  | none => cases h
  | some l =>
    refine List.Subset.trans (CommandLine.text_subset h) (List.Subset.trans ?_ htext)
    exact Tree.text_subset_node (mem_append_left _ (mem_append_left _ mem_cons_self))
      .start

/-- A line with a command whose name is empty. -/
def Nameless (line : Text) : Prop :=
  ∃ script, Script.ofLine? line = some script ∧ ∃ x ∈ script.commands, x.name.value = .ok []

/-- Planning a line crashes only for an empty name or a NUL character, and the commands of the plan
name no paths with a NUL character, unless the line has one. -/
theorem within_plan {textual : Prop} {P : Crash → Prop} {w : World} (hw : w.InOrder textual)
    {line : Text} (hnul : '\x00' ∈ line → P .nulInPath) (hname : Nameless line → P .emptyName) :
    (plan utilities w line).Within P fun plan =>
      ∀ simple ∈ plan.commands, simple.Orderly (P .nulInPath) := by
  unfold plan Script.ofLine
  cases hread : Script.ofLine? line with
  | none => trivial
  | some script =>
    have hcommands : ∀ x ∈ script.commands, (x.plan utilities w).Within P fun plan =>
        ∀ simple ∈ plan.commands, simple.Orderly (P .nulInPath) := fun x hx =>
      Command.within_plan hw Utility.listsTexts
        (fun hmem => hnul (Script.text_subset hread hx hmem))
        fun hempty => hname ⟨script, hread, x, hx, hempty⟩
    change (script.plan utilities w).Within P _
    rw [Checked.within_iff_ends]
    refine Script.ends_plan trivial (fun p q hp hq => ?_) (fun p q hp hq => ?_) fun x hx =>
      Checked.within_iff_ends.1 (hcommands x hx)
    · exact forall_mem_append.mpr ⟨hp, hq⟩
    · exact forall_mem_append.mpr ⟨hp, hq⟩

end Line

end CommandShell

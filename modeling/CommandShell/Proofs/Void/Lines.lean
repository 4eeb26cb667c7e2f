import CommandShell.Proofs.Line.Pipelines
import CommandShell.Proofs.Plan.Origins
import CommandShell.Proofs.Void.Arguments

/-!
# Lines with voids

A line is read twice: before its substitutions are run, and after that. If voids are put into the
arguments of its commands, both readings find the same commands with the same words, no substitution
is run, and the plan is the same. As a void may be torn apart by one that follows, a command that
others with voids follow can have only one, which ends the command.
-/

namespace CommandShell

open List

/-! ## Trees without substitutions -/

variable {κ : Type} {children : List Tree} {rule : Rule} {e : Ending} {left right : Tree}
  {ts : List Token} {x y : Command}

namespace Tree

def Inert (t : Tree) : Prop := ∀ piece ∈ t.pieces, ∃ text, piece = .plain text

theorem mem_piecesOf {piece : Piece} {ts : List Tree} :
    piece ∈ piecesOf ts ↔ ∃ t ∈ ts, piece ∈ t.pieces := by
  induction ts with
  | nil => simp [piecesOf]
  | cons t ts ih => simp [piecesOf, ih]

theorem tokens_subset {t : Tree} (h : t ∈ children) (rule : Rule) :
    t.tokens ⊆ (node rule children).tokens := by
  induction children with
  | nil => cases h
  | cons first children ih =>
    rw [tokens, tokensOf]
    rcases mem_cons.mp h with rfl | h
    · exact subset_append_left _ _
    · exact subset_append_of_subset_right _ (ih h)

def InertAll (ts : List Tree) : Prop := ∀ t ∈ ts, t.Inert

@[simp] theorem inertAll_nil : InertAll [] := nofun

@[simp] theorem inertAll_cons {t : Tree} {ts : List Tree} :
    InertAll (t :: ts) ↔ t.Inert ∧ InertAll ts := forall_mem_cons

@[simp] theorem inertAll_append {ts us : List Tree} :
    InertAll (ts ++ us) ↔ InertAll ts ∧ InertAll us := forall_mem_append

@[simp] theorem inert_leaf (token : Token) : (leaf token).Inert := by
  intro piece hpiece
  rw [pieces, mem_singleton] at hpiece
  exact ⟨_, hpiece⟩

@[simp] theorem inert_endOfLine : endOfLine.Inert := nofun

@[simp] theorem inert_node : (node rule children).Inert ↔ rule ≠ .subcommand ∧ InertAll children := by
  by_cases hrule : rule = .subcommand
  · subst hrule
    simp [Inert, pieces]
  · have hpieces : (node rule children).pieces = piecesOf children := by
      cases rule with
      | subcommand => exact absurd rfl hrule
      | _ => rfl
    simp only [Inert, InertAll, hpieces, mem_piecesOf, ne_eq, hrule, not_false_eq_true, true_and]
    exact ⟨fun h t ht piece hpiece => h piece ⟨t, ht, hpiece⟩,
      fun h piece ⟨t, ht, hpiece⟩ => h t ht piece hpiece⟩

theorem Inert.substituted_eq {t : Tree} (h : t.Inert) : t.substituted = pure t.text := by
  have hall : ∀ pieces : List Piece, (∀ piece ∈ pieces, ∃ text, piece = .plain text) →
      Line.replaceAll pieces = pure (pieces.flatMap Piece.source) := by
    intro pieces hpieces
    induction pieces with
    | nil => rfl
    | cons piece pieces ih =>
      obtain ⟨text, rfl⟩ := hpieces piece mem_cons_self
      rw [Line.replaceAll, ih fun p hp => hpieces p (mem_cons_of_mem _ hp), pure_bind]
      rfl
  rw [substituted_eq_replaceAll, hall _ h, flatMap_pieces]

end Tree

namespace Line

open Shell

@[simp] theorem inertAll_gap (gap : Option Text) : Tree.InertAll (gapLeaves gap) := by
  cases gap <;> simp [gapLeaves, spaceLeaf]

@[simp] theorem inertAll_spaces (spaces : List Text) :
    Tree.InertAll (spaces.map spaceLeaf) := by
  simp [Tree.InertAll, spaceLeaf]

theorem Body.inert (quote : Quote) (body : Body) {v : Text} (h : body.value quote = .ok v) :
    Tree.InertAll (body.trees quote) := by
  match body with
  | .done => simp
  | .mark rest | .literal token rest | .space t rest =>
    obtain ⟨u, hu, -⟩ := value_map_eq_ok h
    simp [spaceLeaf, rest.inert quote hu]
  | .substitution inner rest => cases h

theorem Quoted.inert (q : Quoted) {v : Text} (h : q.value = .ok v) : q.tree.Inert := by
  cases q with
  | mk quote body =>
    have hrule : quote.rule ≠ .subcommand := by cases quote <;> decide
    simp [hrule, body.inert quote h]

theorem Strings.inert (s : Strings) {v : Text} (h : s.value = .ok v) : Tree.InertAll s.trees := by
  match s with
  | .one first => simp [first.inert h]
  | .more first rest =>
    obtain ⟨a, b, hfirst, hrest, -⟩ := value_append_eq_ok h
    simp [first.inert hfirst, rest.inert hrest]

theorem Word.inert (w : Word) {v : Text} (h : w.value = .ok v) : w.tree.Inert := by
  match w with
  | .chars text | .dash => simp
  | .voidBefore gap rest | .charsBefore text rest | .dashBefore rest =>
    obtain ⟨b, hrest, -⟩ := value_map_eq_ok h
    simp [voidLeaves, rest.inert hrest]
  | .substitutionBefore inner rest | .substitution inner => cases h
  | .strings run => simp [run.inert h]
  | .stringBefore first rest =>
    obtain ⟨a, b, hfirst, hrest, -⟩ := value_append_eq_ok h
    simp [first.inert hfirst, rest.inert hrest]
  | .stringAfter front last =>
    obtain ⟨a, b, hfront, hlast, -⟩ := value_append_eq_ok h
    simp [front.inert hfront, last.inert hlast]
  | .voidAfter front gap =>
    obtain ⟨a, hfront, -⟩ := value_map_eq_ok h
    simp [voidLeaves, front.inert hfront]
  | .substitutionAfter front inner =>
    cases hfront : front.value with
    | error cause | ok a => rw [Word.value, hfront] at h; cases h

theorem Redirect.inert (r : Redirect) (h : .backquote ∉ r.tree.tokens) : r.tree.Inert := by
  cases r with
  | mk direction gap target =>
    rw [Redirect.tokens_mk] at h
    simp only [mem_cons, mem_append, not_or] at h
    simp [target.inert (target.value_eq h.2.2)]

theorem Modifier.inert (m : Modifier) (h : ∃ v, m.word.value = .ok v) : m.tree.Inert := by
  obtain ⟨v, hv⟩ := h
  cases m with
  | flag name => simp [name.inert hv]
  | arg value => simp [value.inert hv]

theorem Opening.inert (o : Opening) (h : ∀ r ∈ o.redirects, .backquote ∉ r.tree.tokens) :
    Tree.InertAll o.trees := by
  match o with
  | .done => simp
  | .space text rest => simp [spaceLeaf, rest.inert h]
  | .redirect first rest =>
    obtain ⟨hfirst, hrest⟩ := forall_mem_cons.mp h
    simp [first.inert hfirst, rest.inert hrest]

theorem Ending.inert (e : Ending) (hredirects : ∀ r ∈ e.redirects, .backquote ∉ r.tree.tokens)
    (hmodifiers : ∀ m ∈ e.modifiers, ∃ v, m.word.value = .ok v) : Tree.InertAll e.trees := by
  match e with
  | .done => simp
  | .redirect spaces first rest =>
    obtain ⟨hfirst, hrest⟩ := forall_mem_cons.mp hredirects
    simp [first.inert hfirst, rest.inert hrest hmodifiers]
  | .modifier text first rest =>
    obtain ⟨hfirst, hrest⟩ := forall_mem_cons.mp hmodifiers
    simp [spaceLeaf, first.inert hfirst, rest.inert hredirects hrest]

/-! ## Commands that agree -/

def Command.Agrees : Command → Command → Prop
  | .mk o name e, .mk o' name' e' => o'.redirects = o.redirects ∧ name' = name ∧ e.Agrees e'

variable {m : Modifier} {name : Word} {o : Opening}

theorem Modifier.Agrees.read_eq {m' : Modifier} (h : m.Agrees m') (w : World)
    (specification : Specification) (progress : Progress κ) :
    progress.read w specification m' = progress.read w specification m := by
  cases m with
  | flag name =>
    cases m' with
    | flag name' =>
      obtain ⟨v, hv, hv'⟩ := h
      rw [Progress.read, Progress.read, hv, hv']
    | arg value' => cases h
  | arg value =>
    cases m' with
    | flag name' => cases h
    | arg value' =>
      obtain ⟨v, hv, hv'⟩ := h
      rw [Progress.read, Progress.read, hv, hv']

theorem Modifier.Agrees.exists_value {m' : Modifier} (h : m.Agrees m') :
    ∃ v, m'.word.value = .ok v := by
  cases m with
  | flag name =>
    cases m' with
    | flag name' => exact h.imp fun v hv => hv.2
    | arg value' => cases h
  | arg value =>
    cases m' with
    | flag name' => cases h
    | arg value' => exact h.imp fun v hv => hv.2

private theorem foldlM_read_eq {ms ms' : List Modifier} (h : List.Forall₂ Modifier.Agrees ms ms')
    (w : World) (specification : Specification) (progress : Progress κ) :
    ms'.foldlM (Progress.read w specification) progress =
      ms.foldlM (Progress.read w specification) progress := by
  induction h generalizing progress with
  | nil => rfl
  | cons hfirst hlater ih =>
    rw [foldlM_cons, foldlM_cons, hfirst.read_eq]
    exact bind_congr fun next => ih next

theorem Command.redirects_plain (hplain : .backquote ∉ (Command.mk o name e).tree.tokens) :
    ∀ r ∈ o.redirects ++ e.redirects, .backquote ∉ r.tree.tokens := by
  intro r hr hmem
  apply hplain
  refine Tree.tokens_subset (t := r.tree) ?_ .command hmem
  rcases mem_append.mp hr with hr | hr
  · exact mem_append_left _ (o.mem_trees hr)
  · exact mem_append_right _ (mem_cons_of_mem _ (e.redirect_mem_trees hr))

namespace Command.Agrees

variable {x y : Command} (h : x.Agrees y) (hplain : .backquote ∉ x.tree.tokens)

include h hplain

theorem plan_eq (catalog : Catalog κ) (w : World) : y.plan catalog w = x.plan catalog w := by
  obtain ⟨o, name, e⟩ := x
  obtain ⟨o', name', e'⟩ := y
  obtain ⟨hopening, rfl, hending⟩ := h
  have hredirects : (o'.redirects ++ e'.redirects).map (·.tree.tokens) =
      (o.redirects ++ e.redirects).map (·.tree.tokens) := by
    rw [hopening, map_append, map_append, hending.redirects]
  have hwrap : ∀ simple : Simple κ, (o'.redirects ++ e'.redirects).foldl Redirect.wrap simple =
      (o.redirects ++ e.redirects).foldl Redirect.wrap simple :=
    wrapAll_eq hredirects (Command.redirects_plain hplain)
  unfold Command.plan
  simp only [hwrap, foldlM_read_eq hending.modifiers]

theorem inert : y.tree.Inert := by
  obtain ⟨o, name, e⟩ := x
  obtain ⟨o', name', e'⟩ := y
  obtain ⟨hopening, rfl, hending⟩ := h
  obtain ⟨hbefore, hafter⟩ := forall_mem_append.mp (Command.redirects_plain hplain)
  rw [Command.tokens_mk] at hplain
  simp only [mem_append, not_or] at hplain
  have hafter' : ∀ r ∈ e'.redirects, .backquote ∉ r.tree.tokens := by
    intro r hr
    have hmem := mem_map_of_mem (f := (·.tree.tokens)) hr
    rw [hending.redirects, mem_map] at hmem
    obtain ⟨r', hr', heq⟩ := hmem
    exact heq ▸ hafter r' hr'
  have hmodifiers : ∀ m ∈ e'.modifiers, ∃ v, m.word.value = .ok v := by
    intro m hm
    obtain ⟨i, hi, rfl⟩ := mem_iff_getElem.mp hm
    exact (hending.modifiers.get (hending.modifiers.length_eq ▸ hi) hi).exists_value
  have hname := name'.inert (name'.value_eq hplain.1.2)
  have hopening := o'.inert (hopening ▸ hbefore)
  simp [hopening, hname, e'.inert hafter' hmodifiers]

end Command.Agrees

/-! ## Commands and the blanks before them -/

@[simp] theorem Opening.redirects_ofSpaces (spaces : List Text) (rest : Opening) :
    (Opening.ofSpaces spaces rest).redirects = rest.redirects := by
  induction spaces with
  | nil => rfl
  | cons text spaces ih => exact ih

@[simp] theorem Opening.tokensOf_ofSpaces (spaces : List Text) (rest : Opening) :
    Tree.tokensOf (Opening.ofSpaces spaces rest).trees =
      spaces.map .space ++ Tree.tokensOf rest.trees := by
  rw [Opening.trees_ofSpaces, Tree.tokensOf_append, (forms_spaces spaces).tokensOf_eq]

theorem Command.Reads.exists_unspaced (h : (Command.mk o name e).Reads ts) :
    ∃ spaces o', o = .ofSpaces spaces o' ∧
      (Command.mk o' name e).Reads (ts.dropWhile Token.isSpace) := by
  induction ts generalizing o with
  | nil => cases h
  | cons token ts ih =>
    cases token with
    | space text =>
      obtain ⟨⟨o', name', e'⟩, heq, hy⟩ := h.of_space
      cases heq
      obtain ⟨spaces, o', rfl, hreads⟩ := ih hy
      exact ⟨text :: spaces, o', rfl, hreads⟩
    | _ => exact ⟨[], o, rfl, h⟩

theorem Command.Reads.opening_cases (h : (Command.mk o name e).Reads ts) :
    o = .done ∨ ∃ spaces first rest, o = .ofSpaces spaces (.redirect first rest) := by
  cases ts with
  | nil => cases h
  | cons token ts =>
    unfold Command.Reads at h
    rw [Row.command_cons] at h
    obtain ⟨⟨o', name'⟩, left, hopening, hending⟩ :=
      Readings.mem_andThen.mp (Readings.mem_of_mem_distinct h)
    obtain ⟨e', -, heq⟩ := Readings.mem_as.mp hending
    cases heq
    rcases mem_append.mp (Readings.mem_of_mem_distinct hopening) with hredirect | hname
    · obtain ⟨r, middle, -, hopened⟩ := Readings.mem_andThen.mp hredirect
      obtain ⟨opened, -, heq⟩ := Readings.mem_as.mp hopened
      cases heq
      exact .inr ⟨_, _, _, rfl⟩
    · obtain ⟨word, -, heq⟩ := Readings.mem_as.mp hname
      cases heq
      exact .inl rfl

theorem Command.Reads.exists_unspaced_eq {us : List Token} (hx : x.Reads ts) (hy : y.Reads us)
    (h : trim ts = trim us) :
    ∃ spaces spaces' o name e, x = .mk (.ofSpaces spaces o) name e ∧
      y = .mk (.ofSpaces spaces' o) name e := by
  obtain ⟨o, name, e⟩ := x
  obtain ⟨o', name', e'⟩ := y
  have hts := (Command.mk o name e).endsSolid
  have hus := (Command.mk o' name' e').endsSolid
  rw [hx.tokens_eq] at hts
  rw [hy.tokens_eq] at hus
  rw [hts.trim_eq, hus.trim_eq] at h
  obtain ⟨spaces, o₁, rfl, hx'⟩ := hx.exists_unspaced
  obtain ⟨spaces', o₂, rfl, hy'⟩ := hy.exists_unspaced
  cases (h ▸ hx').eq hy'
  exact ⟨spaces, spaces', o₁, name, e, rfl, rfl⟩

theorem Modifier.agrees_self (h : .backquote ∉ m.tree.tokens) : m.Agrees m := by
  cases m with
  | flag name =>
    rw [Modifier.tokens_flag, mem_cons, not_or] at h
    exact ⟨_, name.value_eq h.2, name.value_eq h.2⟩
  | arg value =>
    rw [Modifier.tokens_arg] at h
    exact ⟨_, value.value_eq h, value.value_eq h⟩

theorem Ending.agrees_self (e : Ending) (h : .backquote ∉ Tree.tokensOf e.trees) : e.Agrees e := by
  match e with
  | .done => exact ⟨rfl, .nil⟩
  | .redirect spaces first rest =>
    rw [tokensOf_redirect, mem_append, not_or] at h
    exact ⟨rfl, (rest.agrees_self h.2).modifiers⟩
  | .modifier text first rest =>
    rw [tokensOf_modifier, mem_append, not_or, mem_cons, not_or] at h
    exact ⟨rfl, .cons (Modifier.agrees_self h.1.2) (rest.agrees_self h.2).modifiers⟩

theorem Command.agrees_self {x : Command} (h : .backquote ∉ x.tree.tokens) : x.Agrees x := by
  obtain ⟨o, name, e⟩ := x
  rw [Command.tokens_mk, mem_append, not_or] at h
  exact ⟨rfl, rfl, e.agrees_self h.2⟩

theorem Command.Agrees.of_reads {z : Command} (h : x.Agrees z) {us : List Token} (hz : z.Reads ts)
    (hy : y.Reads us) (htrim : trim ts = trim us) : x.Agrees y := by
  obtain ⟨spaces, spaces', o, name, e, rfl, rfl⟩ := hz.exists_unspaced_eq hy htrim
  obtain ⟨o₁, name₁, e₁⟩ := x
  obtain ⟨hredirects, hname, hending⟩ := h
  rw [Opening.redirects_ofSpaces] at hredirects
  exact ⟨by rw [Opening.redirects_ofSpaces, hredirects], hname, hending⟩

/-! ## A padded command -/

def Command.Pads : Command → List Token → Prop
  | .mk o name e, ts => ∃ us, e.Pads .edges us ∧
      ts = Tree.tokensOf o.trees ++ name.tree.tokens ++ us

theorem Ending.halted (e : Ending) : Halted (Tree.tokensOf e.trees) := by
  cases e with
  | done => exact ⟨.nil, nofun⟩
  | redirect spaces first rest =>
    rw [tokensOf_redirect, append_assoc]
    cases spaces with
    | nil =>
      obtain ⟨direction, gap, target⟩ := first
      rw [Redirect.tokens_mk]
      cases direction <;> exact ⟨.cons rfl _, nofun⟩
    | cons text spaces => exact ⟨.cons rfl _, nofun⟩
  | modifier text first rest => exact ⟨.cons rfl _, nofun⟩

theorem Ending.Pads.exchanges {e : Ending} {phase : Phase} {us : List Token} (h : e.Pads phase us)
    (hplain : .backquote ∉ Tree.tokensOf e.trees) (hmodifiers : e.modifiers ≠ []) :
    Exchanges (Tree.tokensOf e.trees) us where
  plain := hplain
  outside := (h.padded hplain).confined.outside
  halted := e.halted
  halted' := h.halted
  covers := by
    have hcovers := e.covers_append hplain covers_ending_nil
    rwa [append_nil] at hcovers
  opens := e.opens hplain hmodifiers
  ends := by
    obtain ⟨e', he', -⟩ := h.exists_mem hplain
    exact Readings.ends_iff.mpr ⟨e', he'⟩

private theorem trim_spaces_append (spaces : List Text) (ts : List Token) :
    trim (spaces.map .space ++ ts) = trim ts := by
  induction spaces with
  | nil => rfl
  | cons text spaces ih => exact ih

private theorem dropWhile_isSpace_ne_space (ts : List Token) (text : Text) (us : List Token) :
    ts.dropWhile Token.isSpace ≠ .space text :: us := by
  intro h
  have hhead := List.head?_dropWhile_not Token.isSpace ts
  rw [h] at hhead
  cases hhead

namespace Command.Pads

variable {x : Command} {c : List Token} (h : x.Pads c) (hplain : .backquote ∉ x.tree.tokens)

include h hplain

theorem agrees (hx : x.Reads x.tree.tokens) {d : List Token} (hy : y.Reads d)
    (htrim : trim c = trim d) : x.Agrees y := by
  obtain ⟨o, name, e⟩ := x
  obtain ⟨us, hus, rfl⟩ := h
  by_cases hmodifiers : e.modifiers = []
  · rw [hus.eq_of_modifiers hmodifiers, ← Command.tokens_mk] at htrim
    exact (Command.agrees_self hplain).of_reads hx hy htrim
  obtain ⟨spaces, o', rfl, hx'⟩ := hx.exists_unspaced
  rw [Command.tokens_mk, Opening.tokensOf_ofSpaces] at hplain
  simp only [mem_append, not_or] at hplain
  have htokens := hx'.tokens_eq
  rw [Command.tokens_mk] at htokens
  rw [← htokens] at hx'
  have hspace : ∀ text ts, Tree.tokensOf o'.trees ++ name.tree.tokens ≠ .space text :: ts := by
    intro text ts heq
    rw [heq] at htokens
    exact dropWhile_isSpace_ne_space _ _ _ htokens.symm
  obtain ⟨e', he', hreads⟩ := (hus.exchanges hplain.2 hmodifiers).exists_reads
    (by simp [hplain]) hspace hx'
  obtain ⟨e'', he'', hagrees⟩ := hus.exists_mem hplain.2
  obtain rfl := Ending.eq_of_mem he' he''
  have hz : Command.Agrees (.mk (.ofSpaces spaces o') name e) (.mk o' name e') :=
    ⟨(Opening.redirects_ofSpaces spaces o').symm, rfl, hagrees⟩
  refine hz.of_reads hreads hy ?_
  rw [← htrim, Opening.tokensOf_ofSpaces]
  simp only [append_assoc, trim_spaces_append]

theorem covers (hx : x.Reads x.tree.tokens) : Covers (·.command) c := by
  obtain ⟨o, name, e⟩ := x
  obtain ⟨us, hus, rfl⟩ := h
  rw [Command.tokens_mk] at hplain
  simp only [mem_append, not_or] at hplain
  have hending := (hus.padded hplain.2).covers
  have hname := name.atoms hplain.1.2
  rcases hx.opening_cases with rfl | ⟨spaces, first, rest, rfl⟩
  · exact hname.covers_command hending
  · have hopening := hplain.1.1
    rw [Opening.tokensOf_ofSpaces, Opening.trees, Tree.tokensOf] at hopening ⊢
    simp only [mem_append, not_or] at hopening
    have hrest := rest.covers_append hopening.2.2 hname.covers_opened
    have hcovers := (first.covers_spaced hopening.2.1 spaces).command_redirect hrest hending
    simpa only [append_assoc] using hcovers

theorem gathered : Gathered c := by
  obtain ⟨o, name, e⟩ := x
  obtain ⟨us, hus, rfl⟩ := h
  rw [Command.tokens_mk] at hplain
  simp only [mem_append, not_or] at hplain
  have hfront := (o.encloses.quiet hplain.1.1).append (name.encloses.quiet hplain.1.2)
  refine gathered_of_balanced (hfront.confined.append (hus.padded hplain.2).confined).outside ?_
  intro separator hsep
  exact ((o.balanced hsep hplain.1.1).append (name.balanced hsep hplain.1.2)).append
    ((hus.padded hplain.2).balanced hsep)

end Command.Pads

/-! ## Lines with padded commands -/

variable {separator : Token} {l : CommandLine} {script : Script}

def Command.PadsTo (x y : Command) : Prop := x = y ∨ x.Pads y.tree.tokens

/-- A command without voids, or with one only, which ends it. -/
def Command.Closed (y : Command) : Prop :=
  .backquote ∉ y.tree.tokens ∨ ∃ front gap, .backquote ∉ front ∧
    y.tree.tokens = front ++ .backquote :: (gapTokens gap ++ [.backquote])

/-- The same commands, but for voids in their arguments. One command may have any, and those before
it may end in a void. -/
structure CommandLine.PadsTo (l m : CommandLine) : Prop where
  parts : List.Forall₂ (List.Forall₂ Command.PadsTo) l.parts m.parts
  closed : ∃ front last back, m.parts.flatten = front ++ last :: back ∧
    (∀ y ∈ front, y.Closed) ∧ ∀ y ∈ back, .backquote ∉ y.tree.tokens

theorem Cut.exists_of_mem {α : Type} {R : α → List Token → Prop} {xs : List α}
    (h : Cut separator R xs ts) : ∀ x ∈ xs, ∃ c, R x c ∧ c ⊆ ts := by
  induction h with
  | one hx => exact forall_mem_singleton.mpr ⟨_, hx, List.Subset.refl _⟩
  | snoc hxs hjoint ih =>
    obtain ⟨c, hc, rfl⟩ := hjoint
    refine forall_mem_append.mpr ⟨fun x hx => ?_, forall_mem_singleton.mpr ⟨c, hc, ?_⟩⟩
    · obtain ⟨d, hd, hsubset⟩ := ih x hx
      exact ⟨d, hd, subset_append_of_subset_left _ hsubset⟩
    · intro token htoken
      simp [htoken]

structure Command.Plain (x : Command) : Prop where
  reads : x.Reads x.tree.tokens
  plain : .backquote ∉ x.tree.tokens

theorem CommandLine.Reads.plain (h : l.Reads ts) (hts : .backquote ∉ ts) :
    ∀ xs ∈ l.parts, ∀ x ∈ xs, x.Plain := by
  intro xs hxs x hx
  obtain ⟨c, hc, hsubset⟩ := Cut.exists_of_mem h xs hxs
  obtain ⟨d, hd, hsubset'⟩ := Cut.exists_of_mem hc x hx
  obtain rfl := hd.tokens_eq
  exact ⟨hd, fun hmem => hts (hsubset (hsubset' hmem))⟩

theorem Command.Closed.sealed (h : y.Closed) (hout : Outside y.tree.tokens) :
    Sealed y.tree.tokens := by
  rcases h with hplain | ⟨front, gap, hplain, htokens⟩
  · exact (y.encloses.quiet hplain).sealed
  · rw [htokens] at hout ⊢
    exact sealed_of_void hout hplain

theorem CommandLine.Joined.exists_jointTokens {left right : CommandLine}
    (h : l.Joined left right) : ∃ separator before after, separator.Separates ∧
      l.tree.tokens = left.tree.tokens ++ jointTokens separator before after right.tree.tokens := by
  obtain ⟨rule, separator, before, after, a, b, hleft, hright, hrule, htree⟩ := h.tree
  refine ⟨separator, before, after, hrule.imp And.right And.right, ?_⟩
  simp [hleft, hright, htree, jointTokens, jointLeaves]

theorem CommandLine.of_commands (P : List Token → Prop) (m : CommandLine)
    (hjoint : ∀ {ts us separator before after}, separator.Separates → P ts → P us →
      P (ts ++ jointTokens separator before after us))
    (h : ∀ y ∈ m.parts.flatten, P y.tree.tokens) : P m.tree.tokens := by
  induction m using CommandLine.induction with
  | command only => simpa [CommandLine.parts] using h
  | joined m left right hjoined ihleft ihright =>
    rw [hjoined.commands, forall_mem_append] at h
    obtain ⟨separator, before, after, hsep, htokens⟩ := hjoined.exists_jointTokens
    exact htokens ▸ hjoint hsep (ihleft h.1) (ihright h.2)

theorem CommandLine.gathered (m : CommandLine) {front back : List Command} {last : Command}
    (hparts : m.parts.flatten = front ++ last :: back)
    (hfront : ∀ y ∈ front, Sealed y.tree.tokens) (hlast : Gathered last.tree.tokens)
    (hback : ∀ y ∈ back, .backquote ∉ y.tree.tokens) : Gathered m.tree.tokens := by
  induction m using CommandLine.induction generalizing front back with
  | command only =>
    have honly : [only] = front ++ last :: back := by simpa [CommandLine.parts] using hparts
    obtain ⟨rfl, rfl⟩ : front = [] ∧ only = last := by
      cases front with
      | nil => exact ⟨rfl, (List.cons.inj honly).1⟩
      | cons first front => simp at honly
    simpa using hlast
  | joined m left right hjoined ihleft ihright =>
    rw [hjoined.commands] at hparts
    obtain ⟨separator, before, after, hsep, htokens⟩ := hjoined.exists_jointTokens
    rw [htokens]
    rcases append_eq_append_cons hparts with ⟨middle, hleft, rfl⟩ | ⟨middle, rfl, hright⟩
    · obtain ⟨hmiddle, hright⟩ := forall_mem_append.mp hback
      refine (ihleft hleft hfront hmiddle).append_plain ?_
      rw [jointTokens_eq_append, mem_append, not_or]
      refine ⟨(quiet_joint hsep).plain, right.of_commands (.backquote ∉ ·) ?_ hright⟩
      intro ts us separator before after hsep hts hus
      rw [jointTokens_eq_append, mem_append, mem_append, not_or, not_or]
      exact ⟨hts, (quiet_joint hsep).plain, hus⟩
    · obtain ⟨hleft, hmiddle⟩ := forall_mem_append.mp hfront
      have hsealed := left.of_commands Sealed (fun hsep hts hus => hts.joint hsep hus) hleft
      exact hsealed.joint_gathered hsep (ihright hright hmiddle hback)

private theorem exists_of_forall₂ {α β : Type} {R : α → β → Prop} {xs : List α} {ys : List β}
    (h : List.Forall₂ R xs ys) {y : β} (hy : y ∈ ys) : ∃ x ∈ xs, R x y := by
  obtain ⟨i, hi, rfl⟩ := mem_iff_getElem.mp hy
  exact ⟨_, getElem_mem _, h.get (h.length_eq ▸ hi) hi⟩

theorem exists_plain {R : Command → Command → Prop} {xss yss : List (List Command)}
    (hplain : ∀ xs ∈ xss, ∀ x ∈ xs, x.Plain) (h : List.Forall₂ (List.Forall₂ R) xss yss)
    (hy : y ∈ yss.flatten) : ∃ x : Command, x.Plain ∧ R x y := by
  obtain ⟨x, hmem, hxy⟩ := exists_of_forall₂ (rel_flatten h) hy
  obtain ⟨xs, hxs, hmem⟩ := mem_flatten.mp hmem
  exact ⟨x, hplain xs hxs x hmem, hxy⟩

section Padded

variable {l m : CommandLine} (hplain : ∀ xs ∈ l.parts, ∀ x ∈ xs, x.Plain) (hpads : l.PadsTo m)

include hplain hpads

theorem CommandLine.PadsTo.covers : Covers (·.commandLine) m.tree.tokens := by
  apply m.covers
  intro y hy
  obtain ⟨x, hx, hxy⟩ := exists_plain hplain hpads.parts hy
  rcases hxy with rfl | hxy
  · exact hx.reads.readableKinds _ rfl
  · exact hxy.covers hx.plain hx.reads

theorem CommandLine.PadsTo.gathered : Gathered m.tree.tokens := by
  obtain ⟨front, last, back, hparts, hfront, hback⟩ := hpads.closed
  have hgathered : ∀ y ∈ m.parts.flatten, Gathered y.tree.tokens := by
    intro y hy
    obtain ⟨x, hx, hxy⟩ := exists_plain hplain hpads.parts hy
    rcases hxy with rfl | hxy
    · exact gathered_of_balanced (outside_of_not_mem hx.plain) fun _ hsep =>
        x.balanced hsep hx.plain
    · exact hxy.gathered hx.plain
  rw [hparts, forall_mem_append, forall_mem_cons] at hgathered
  exact m.gathered hparts (fun y hy => (hfront y hy).sealed (hgathered.1 y hy).outside)
    hgathered.2.1 hback

theorem CommandLine.PadsTo.exists_agrees (spaces : List Text) :
    ∃ script l', Script.ofTokens? (m.tree.tokens ++ spaces.map .space) = some script ∧
      script.line = some l' ∧ List.Forall₂ (List.Forall₂ Command.Agrees) l.parts l'.parts := by
  obtain ⟨script, hscript, hsome⟩ := Script.exists_of_covers (hpads.covers hplain) spaces
  obtain ⟨l', hl'⟩ := Option.isSome_iff_exists.mp hsome
  obtain ⟨taken, htaken, hreads⟩ := Script.reads_of_ofTokens? hscript hl'
  have hsolid : EndsSolid m.tree.tokens := by
    refine m.spans.endsSolid fun xs c hc => hc.endsSolid ?_
    rintro x d rfl
    exact x.endsSolid
  have htokens : m.tree.tokens = taken := eq_of_append_spaces hsolid.trailingBlanks_eq
    (Cut.endsSolid hreads fun xs c hc => PartReads.endsSolid hc).trailingBlanks_eq htaken
  have haligned := (hpads.gathered hplain).aligned (fun x c hx => hx)
    (fun x c hx => Command.Reads.tokens_eq hx) m.spans (htokens ▸ hreads)
  refine ⟨script, l', hscript, hl', ?_⟩
  refine ((forall₂_and_left _ _).mpr ⟨hplain, forall₂_of_pieces hpads.parts haligned.flip⟩).imp ?_
  rintro xs ys ⟨hxs, zs, hzs, hys⟩
  refine ((forall₂_and_left _ _).mpr ⟨hxs, forall₂_of_pieces hzs hys.flip⟩).imp ?_
  rintro x y ⟨hx, z, hxz, c, d, rfl, hy, htrim⟩
  rcases hxz with rfl | hxz
  · exact (Command.agrees_self hx.plain).of_reads hx.reads hy htrim
  · exact hxz.agrees hx.plain hx.reads hy htrim

end Padded

theorem CommandLine.inert (l : CommandLine) (h : ∀ x ∈ l.parts.flatten, x.tree.Inert) :
    l.tree.Inert := by
  induction l using CommandLine.induction with
  | command only => simpa [CommandLine.parts] using h
  | joined l left right hjoined ihleft ihright =>
    rw [hjoined.commands, forall_mem_append] at h
    obtain ⟨rule, separator, before, after, a, b, hleft, hright, hrule, htree⟩ := hjoined.tree
    have ha : a.Inert := by simpa [hleft] using ihleft h.1
    have hb : b.Inert := by simpa [hright] using ihright h.2
    have hne : rule ≠ .subcommand := by rcases hrule with ⟨rfl, -⟩ | ⟨rfl, -⟩ <;> decide
    simp [htree, jointLeaves, ha, hb, hne]

theorem Script.inert (hline : script.line = some l) (h : l.tree.Inert) : script.tree.Inert := by
  simp [Script.tree, hline, h]

theorem planAll_agrees (catalog : Catalog κ) (w : World) {xss yss : List (List Command)}
    (hagrees : List.Forall₂ (List.Forall₂ Command.Agrees) xss yss)
    (hplain : ∀ xs ∈ xss, ∀ x ∈ xs, x.Plain) :
    planAll .seq (partPlan catalog w) yss = planAll .seq (partPlan catalog w) xss := by
  symm
  apply planAll_congr
  refine ((forall₂_and_left _ _).mpr ⟨hplain, hagrees⟩).imp ?_
  rintro xs ys ⟨hxs, hys⟩
  apply planAll_congr
  refine ((forall₂_and_left _ _).mpr ⟨hxs, hys⟩).imp ?_
  rintro x y ⟨hx, hy⟩
  exact (hy.plan_eq hx.plain catalog w).symm

private theorem inert_agrees {xss yss : List (List Command)}
    (hagrees : List.Forall₂ (List.Forall₂ Command.Agrees) xss yss)
    (hplain : ∀ xs ∈ xss, ∀ x ∈ xs, x.Plain) : ∀ y ∈ yss.flatten, y.tree.Inert := by
  intro y hy
  obtain ⟨x, hx, hxy⟩ := exists_plain hplain hagrees hy
  exact hxy.inert hx.plain

private theorem on_planOf_of_inert (catalog : Catalog κ) {line : Text}
    (hbroken : Token.Unbroken line) (hread : Script.ofLine? line = some script)
    (hinert : script.tree.Inert) (w : World) :
    (planOf catalog line).on w = (script.plan catalog w, w) := by
  have htext : script.tree.text = line := by
    rw [Tree.text, Script.tokens_of_ofLine? hread, hbroken.text_ofLine]
  have hsubstituted : substituted line = pure line := by
    unfold substituted
    rw [Script.ofLine, hread]
    exact hinert.substituted_eq.trans (congrArg pure htext)
  unfold planOf
  rw [hsubstituted, pure_bind, on_bind, on_get]
  dsimp only
  rw [on_ofChecked, plan_of_ofLine? catalog w hread]

/-- Voids in the arguments of its commands do not change the plan of a line: any number of them in
one command, at the edges of the first arguments and before runs of characters in the later ones,
and one at the end of each command before it. A void with a blank in it is as good as the blank in
quotes. -/
theorem planOf_padded {κ : Type} (catalog : Catalog κ) (w : World) (line line' : Text)
    (l m : CommandLine) (spaces spaces' : List Text) (p : Plan κ) (hplain : '\x60' ∉ line)
    (hbroken : Token.Unbroken line) (hbroken' : Token.Unbroken line')
    (hread : Script.ofLine? line = some ⟨some l, spaces⟩)
    (hplan : ((planOf catalog line).on w).1 = .ok p) (hpads : l.PadsTo m)
    (hline' : Token.ofLine line' = m.tree.tokens ++ spaces'.map .space) :
    (planOf catalog line').on w = (.ok p, w) := by
  have hp : l.plan catalog w = .ok p := by
    have hplan := (plan_of_planOf hplain hplan).2
    rwa [unbroken, filter_eq_self.mpr fun c hc => by simp [hbroken c hc],
      plan_of_ofLine? catalog w hread] at hplan
  obtain ⟨taken, htaken, hreads⟩ := Script.reads_of_ofTokens? hread rfl
  have htokens := backquote_not_mem_ofLine hplain
  have hcommands := hreads.plain fun hmem => htokens (htaken ▸ mem_append_left _ hmem)
  obtain ⟨script', l', hread', hscript, hagrees⟩ := hpads.exists_agrees hcommands spaces'
  rw [← hline'] at hread'
  have hinert := Script.inert hscript (l'.inert (inert_agrees hagrees hcommands))
  rw [on_planOf_of_inert catalog hbroken' hread' hinert, ← hp, Script.plan, hscript]
  dsimp only
  rw [CommandLine.plan_eq, CommandLine.plan_eq, planAll_agrees catalog w hagrees hcommands]

theorem isRun_eq_false_of_isVoid {part : Part} (h : part.isVoid = true) : part.isRun = false := by
  cases part with
  | chunk only => cases h
  | void gap => rfl

theorem edges_allows_around {before after : List Part}
    (hbefore : ∀ part ∈ before, part.isVoid = true) (chunks : List Chunk)
    (hafter : ∀ part ∈ after, part.isVoid = true) :
    Phase.edges.Allows (before ++ (chunks.map .chunk ++ after)) := by
  intro front gap back hparts
  rcases append_eq_append_iff.mp hparts with ⟨middle, rfl, hrest⟩ | ⟨middle, rfl, -⟩
  · rcases append_eq_append_iff.mp hrest with ⟨middle', rfl, hafter'⟩ | ⟨middle', hmap, hcut⟩
    · have hback : ∀ part ∈ back, part ∈ after := fun part hpart => hafter' ▸ by simp [hpart]
      exact .inr fun part hpart => isRun_eq_false_of_isVoid (hafter part (hback part hpart))
    · cases middle' with
      | nil =>
        obtain rfl : Part.void gap :: back = after := hcut
        exact .inr fun part hpart =>
          isRun_eq_false_of_isVoid (hafter part (mem_cons_of_mem _ hpart))
      | cons part middle' =>
        obtain ⟨rfl, -⟩ := List.cons.inj hcut
        have hmem : Part.void gap ∈ chunks.map Part.chunk := hmap ▸ by simp
        obtain ⟨chunk, -, hchunk⟩ := mem_map.mp hmem
        cases hchunk
  · exact .inl fun part hpart => hbefore part (mem_append_left _ hpart)

def blankAfter : Word :=
  .stringAfter (.chars ['c']) (.mk .double (.space [' '] .done))

def oneArgument : Ending := .modifier [' '] (.arg blankAfter) .done

theorem pads_oneArgument : oneArgument.Pads .edges
    [.space [' '], .chars ['c'], .backquote, .space [' '], .backquote] := by
  have hvoid : ∀ part ∈ [Part.void (some [' '])], part.isVoid = true := by simp [Part.isVoid]
  have hblank : ∀ token ∈ [Token.space [' ']],
      token ≠ Quote.double.token ∧ token ≠ .backquote := by simp [Quote.token]
  have hvalue : blankAfter.tree.tokens =
      Chunk.row [.chars ['c'], .string .double [.space [' ']] hblank] := rfl
  exact .arg [' '] hvalue (.chunk _ (.blank .nil)) ⟨_, mem_cons_self⟩
    (edges_allows_around (forall_mem_nil _) [.chars ['c']] hvoid) (by simp) (.done .edges)

def fourArguments : Ending :=
  .modifier [' '] (.arg (.chars ['a'])) (.modifier [' ']
    (.arg (.strings (.one (.mk .double (.literal (.chars ['b']) .done))))) (.modifier [' ']
      (.flag (.chars ['d'])) (.modifier [' '] (.arg (.chars "ef".toList)) .done)))

theorem pads_fourArguments : fourArguments.Pads .edges
    [.space [' '], .backquote, .backquote, .chars ['a'], .backquote, .backquote, .space [' '],
      .doubleQuote, .chars ['b'], .doubleQuote, .backquote, .backquote, .space [' '], .dash,
      .chars ['d'], .space [' '], .chars ['e'], .backquote, .backquote, .chars ['f']] := by
  have hvoid : ∀ part ∈ [Part.void none], part.isVoid = true := by simp [Part.isVoid]
  have hstring : ∀ token ∈ [Token.chars ['b']],
      token ≠ Quote.double.token ∧ token ≠ .backquote := by simp [Quote.token]
  have hfirst : (Word.chars ['a']).tree.tokens = Chunk.row [.chars ['a']] := rfl
  have hsecond : (Word.strings (.one (.mk .double (.literal (.chars ['b']) .done)))).tree.tokens =
      Chunk.row [.string .double [.chars ['b']] hstring] := rfl
  have hlast : (Word.chars "ef".toList).tree.tokens = Chunk.row [.chars (['e'] ++ ['f'])] := rfl
  have hinside : Phase.insides.Allows
      [.chunk (.chars ['e']), .void none, .chunk (.chars ['f'])] := by
    intro front gap back hparts
    refine ⟨.chunk (.chars ['f']), ?_, rfl⟩
    rcases cons_eq_append_iff.mp hparts with ⟨-, h⟩ | ⟨front, -, h⟩
    · cases h
    · rcases cons_eq_append_iff.mp h with ⟨-, h⟩ | ⟨front, -, h⟩
      · simp [(List.cons.inj h).2]
      · simp [cons_eq_append_iff] at h
  have hnone : ∀ part ∈ ([] : List Part), part.isVoid = true := forall_mem_nil _
  exact .arg [' '] hfirst (.void (.chunk _ (.void .nil))) ⟨.chars ['a'], by simp⟩
    (edges_allows_around hvoid [.chars ['a']] hvoid) (by simp)
    (.arg [' '] hsecond (.chunk _ (.void .nil)) ⟨_, mem_cons_self⟩
      (edges_allows_around hnone [_] hvoid) (by simp) (.flag [' '] (.chars ['d']) (.turn
        (.arg [' '] hlast (.cut rfl (.chunk _ .nil)) ⟨_, mem_cons_self⟩ hinside (by simp)
          (.done .insides)))))

/-- The line with voids in two commands has the plan of the line with a blank in quotes for the one
that holds a blank, and without the others. -/
theorem planOf_padded_edges :
    (planOf utilities "echo c\" \" | echo a \"b\" -d ef | cat".toList).on ⟨.dir [], [], []⟩ =
        (.ok (.pipe (.pipe (.simple (.command .echo [] ["c ".toList]))
            (.simple (.command .echo [] [['a'], ['b'], "-d".toList, "ef".toList])))
          (.simple (.command .cat [] []))), ⟨.dir [], [], []⟩) ∧
      (planOf utilities
          "echo c\x60 \x60 | echo \x60\x60a\x60\x60 \"b\"\x60\x60 -d e\x60\x60f | cat".toList).on
          ⟨.dir [], [], []⟩ =
        (.ok (.pipe (.pipe (.simple (.command .echo [] ["c ".toList]))
            (.simple (.command .echo [] [['a'], ['b'], "-d".toList, "ef".toList])))
          (.simple (.command .cat [] []))), ⟨.dir [], [], []⟩) := by
  let echo (e : Ending) : Command := .mk .done (.chars "echo".toList) e
  let line (first second : Ending) : CommandLine := .pipe (.more (.pair (echo first) (some [' '])
    (some [' ']) (echo second)) (some [' ']) (some [' ']) (.mk .done (.chars "cat".toList) .done))
  let one : Ending := .modifier [' '] (.arg (.voidAfter (.chars ['c']) (some [' ']))) .done
  let four : Ending := .modifier [' '] (.arg (.voidBefore none (.voidAfter (.chars ['a']) none)))
    (.modifier [' '] (.arg (.voidAfter
      (.strings (.one (.mk .double (.literal (.chars ['b']) .done)))) none)) (.modifier [' ']
        (.flag (.chars ['d'])) (.modifier [' ']
          (.arg (.charsBefore ['e'] (.voidBefore none (.chars ['f'])))) .done)))
  have hread : Script.ofLine? "echo c\" \" | echo a \"b\" -d ef | cat".toList =
      some ⟨some (line oneArgument fourArguments), []⟩ := by decide +kernel
  have hone : (echo oneArgument).plan utilities ⟨.dir [], [], []⟩ =
      .ok (.simple (.command .echo [] ["c ".toList])) := by
    rw [Command.plan_utility .echo rfl]
    cbv
  have hfour : (echo fourArguments).plan utilities ⟨.dir [], [], []⟩ =
      .ok (.simple (.command .echo [] [['a'], ['b'], "-d".toList, "ef".toList])) := by
    rw [Command.plan_utility .echo rfl]
    cbv
  have hplan : (planOf utilities "echo c\" \" | echo a \"b\" -d ef | cat".toList).on
      ⟨.dir [], [], []⟩ = (.ok (.pipe (.pipe (.simple (.command .echo [] ["c ".toList]))
          (.simple (.command .echo [] [['a'], ['b'], "-d".toList, "ef".toList])))
        (.simple (.command .cat [] []))), ⟨.dir [], [], []⟩) := by
    refine on_planOf_of_script (by decide) (by decide) hread ?_
    simp only [Script.plan, line, CommandLine.plan, Pipe.plan, hone, hfour]
    rfl
  have hparts : (line oneArgument fourArguments).PadsTo (line one four) := by
    refine ⟨.cons (.cons (.inr ⟨_, pads_oneArgument, rfl⟩) (.cons
      (.inr ⟨_, pads_fourArguments, rfl⟩) (.cons (.inl rfl) .nil))) .nil, ?_⟩
    refine ⟨[echo one], echo four, [.mk .done (.chars "cat".toList) .done], rfl, ?_, ?_⟩
    · exact forall_mem_singleton.mpr (.inr ⟨[.chars "echo".toList, .space [' '], .chars ['c']],
        some [' '], by simp, rfl⟩)
    · exact forall_mem_singleton.mpr (by decide)
  refine ⟨hplan, planOf_padded utilities _ _ _ _ (line one four) [] [] _ (by decide) ?_ ?_ hread
    (congrArg Prod.fst hplan) hparts (by decide +kernel)⟩
  · simp [Token.Unbroken, Token.isLineBreak]
  · simp [Token.Unbroken, Token.isLineBreak]

/-- Two voids of which the first stands inside a word and the second ends it: the second backquote
opens a substitution and the third closes it. -/
theorem planOf_torn_voids :
    (planOf utilities "echo ab".toList).on ⟨.dir [], [], []⟩ =
        (.ok (.simple (.command .echo [] ["ab".toList])), ⟨.dir [], [], []⟩) ∧
      (planOf utilities "echo a\x60\x60b\x60\x60".toList).on ⟨.dir [], [], []⟩ =
        (.error (.complaint .substitutionLeft), ⟨.dir [], [], []⟩) := by
  have hwhole : Script.ofLine? "echo ab".toList = some ⟨some (.command (.mk .done
      (.chars "echo".toList) (.modifier [' '] (.arg (.chars "ab".toList)) .done))), []⟩ := by
    decide +kernel
  have hread : ∃ script, Script.ofLine? "echo a\x60\x60b\x60\x60".toList = some script ∧
      script.tree.pieces = [.plain "echo".toList, .plain [' '], .plain ['a'],
        .substitution "\x60\x60b\x60\x60".toList (some "\x60b\x60".toList)] :=
    Option.map_eq_some_iff.mp (by decide +kernel)
  obtain ⟨script, hread, hpieces⟩ := hread
  have hinner : plan utilities ⟨.dir [], [], []⟩ "\x60b\x60".toList =
      .error (.complaint .substitutionLeft) := by cbv
  constructor
  · refine on_planOf_of_script (by decide) (by decide) hwhole ?_
    rw [Script.plan]
    dsimp only [CommandLine.plan]
    rw [Command.plan_utility .echo rfl]
    cbv
  · have hrun : (outputOn Plan.usualInput "\x60b\x60".toList).on ⟨.dir [], [], []⟩ =
        (.error (.complaint .substitutionLeft), ⟨.dir [], [], []⟩) := by
      unfold outputOn
      rw [on_bind, on_get]
      dsimp only
      rw [on_bind, on_ofChecked, hinner]
    unfold planOf
    rw [on_bind, on_substituted hread, hpieces, on_replaceAll_iff.mpr
      (.plain (.plain (.plain (.failed hrun))))]
    rfl

end Line

end CommandShell

import CommandShell.Proofs.Plan.Shape
import CommandShell.Proofs.Text.Fields
import CommandShell.Proofs.Token.Kinds

/-!
# Lines made of pipelines

Lines that are pipelines by themselves are joined by semicolons. The result is a line again if no
pipeline but the first two has a bar, and if the blanks before each semicolon are one token. Without
backquotes these conditions are necessary as well: the grammar puts only single commands behind
the second semicolon.
-/

namespace CommandShell

open List

theorem Text.mem_join {separator : Text} {pieces : List Text} {c : Char}
    (h : c ∈ Text.join separator pieces) : c ∈ separator ∨ ∃ piece ∈ pieces, c ∈ piece := by
  induction pieces with
  | nil => cases h
  | cons piece pieces ih =>
    cases pieces with
    | nil => exact .inr ⟨piece, mem_cons_self, h⟩
    | cons next pieces =>
      rw [Text.join_cons_cons, mem_append, mem_append] at h
      rcases h with (h | h) | h
      · exact .inr ⟨piece, mem_cons_self, h⟩
      · exact .inl h
      · exact (ih h).imp_right fun ⟨later, hmem, hc⟩ => ⟨later, mem_cons_of_mem _ hmem, hc⟩

namespace Line

open Token

/-! ## Parts of a line -/

variable {α : Type} {R : α → List Token → Prop} {separator : Token} {ts us c : List Token}
  {commands : List Command} {spaces lines : List Text} {l : Text} {pipelines : List (List Command)}

theorem Cut.ne_nil {xs : List α} (h : Cut separator R xs ts) : xs ≠ [] := by
  cases h <;> simp

theorem Cut.of_singleton {x : α} (h : Cut separator R [x] ts) : R x ts := by
  generalize hxs : [x] = xs at h
  cases h with
  | one hx =>
    cases hxs
    exact hx
  | snoc hxs' hjoint =>
    have hlength := congrArg List.length hxs
    have hpos := length_pos_of_ne_nil hxs'.ne_nil
    simp only [length_append, length_singleton] at hlength
    omega

theorem Cut.endsSolid {xs : List α} (h : Cut separator R xs ts) (hR : ∀ x c, R x c → EndsSolid c) :
    EndsSolid ts := by
  cases h with
  | one hx => exact hR _ _ hx
  | snoc _ hjoint =>
    obtain ⟨c, hc, rfl⟩ := hjoint
    exact ((((hR _ c hc).append_left (gapTokens _)).append_left [separator]).append_left
      (gapTokens _)).append_left _

theorem PartReads.endsSolid {xs : List Command} {ts : List Token} (h : PartReads xs ts) :
    EndsSolid ts :=
  Cut.endsSolid h fun x _ hx => hx.tokens_eq ▸ x.endsSolid

/-- What can be read for all tokens of the same kinds. -/
def ReadableKinds (rule : Rule) (c : List Token) : Prop :=
  ∀ d, kinds d = kinds c → Readable rule d

theorem closed_readableKinds : Grammar.Closed ReadableKinds := closed_readable.kinds

theorem Command.Reads.readableKinds {x : Command} (h : x.Reads ts) : ReadableKinds .command ts := by
  obtain ⟨taken, later, rfl, hleft, hforms⟩ := (Row.sound_ofTokens ts).command x 0 h
  rw [length_eq_zero_iff.mp hleft.symm, append_nil]
  cases x with
  | mk opening name ending =>
    refine (hforms.conforms _ mem_cons_self).allowed closed_readableKinds .command _ rfl
      taken ?_
    simpa [Tree.terminalsOf, Tree.terminals] using hforms.terminals

def partRule (commands : List Command) : Rule := if commands.length = 1 then .command else .pipe

theorem PartReads.readableKinds {xs : List Command} {ts : List Token} (h : PartReads xs ts) :
    ReadableKinds (partRule xs) ts := by
  induction h with
  | one hx => exact hx.readableKinds
  | @snoc xs ts us joint hxs hjoint ih =>
    obtain ⟨c, hc, rfl⟩ := hjoint
    have hpos := length_pos_of_ne_nil hxs.ne_nil
    have hpipe : partRule (xs ++ [joint.right]) = .pipe := by
      apply if_neg
      rw [length_append, length_singleton]
      omega
    rw [hpipe]
    unfold partRule at ih
    split at ih
    · exact closed_readableKinds .pipe _ _ (mem_cons_self ..)
        (.joined .bar joint.before joint.after ih hc.readableKinds)
    · exact closed_readableKinds .pipe _ _ (mem_cons_of_mem _ mem_cons_self)
        (.joined .bar joint.before joint.after ih hc.readableKinds)

/-- A line that is a pipeline of the given commands. -/
def Pipeline (line : Text) (commands : List Command) : Prop :=
  ∃ script l, Script.ofLine? line = some script ∧ script.line = some l ∧ l.parts = [commands]

theorem Pipeline.of_ofLine? {line : Text} {l : CommandLine}
    (h : Script.ofLine? line = some ⟨some l, spaces⟩) (hparts : l.parts = [commands]) :
    Pipeline line commands :=
  ⟨_, l, h, rfl, hparts⟩

theorem Pipeline.reads {line : Text} (h : Pipeline line commands) :
    ∃ (ts : List Token) (spaces : List Text), ofLine line = ts ++ spaces.map .space ∧
      PartReads commands ts := by
  obtain ⟨script, l, hread, hline, hparts⟩ := h
  obtain ⟨ts, hts, hreads⟩ := Script.reads_of_ofTokens? hread hline
  unfold CommandLine.Reads at hreads
  rw [hparts] at hreads
  exact ⟨ts, script.trailing, hts, hreads.of_singleton⟩

/-! ## Joined pipelines are read -/

/-- How many blanks stand at the end of tokens. -/
def trailingBlanks (ts : List Token) : Nat := (ts.rtakeWhile Token.isSpace).length

@[simp] theorem trailingBlanks_append_space (ts : List Token) (t : Text) :
    trailingBlanks (ts ++ [Token.space t]) = trailingBlanks ts + 1 := by
  unfold trailingBlanks
  rw [rtakeWhile_concat_pos _ _ _ (by rfl), length_append, length_singleton]

@[simp] theorem trailingBlanks_append_spaces (ts : List Token) (spaces : List Text) :
    trailingBlanks (ts ++ spaces.map .space) = trailingBlanks ts + spaces.length := by
  induction spaces generalizing ts with
  | nil => simp
  | cons t spaces ih =>
    rw [map_cons, append_cons, ih, trailingBlanks_append_space, length_cons]
    omega

theorem EndsSolid.trailingBlanks_eq (h : EndsSolid ts) : trailingBlanks ts = 0 := by
  obtain ⟨front, token, rfl, htoken⟩ := h
  unfold trailingBlanks
  rw [rtakeWhile_concat_neg _ _ _ (by simp [htoken]), length_nil]

theorem eq_of_append_spaces {texts : List Text} (hts : trailingBlanks ts = 0)
    (hus : trailingBlanks us = 0) (h : ts ++ spaces.map .space = us ++ texts.map .space) :
    ts = us := by
  have hlength := congrArg trailingBlanks h
  rw [trailingBlanks_append_spaces, trailingBlanks_append_spaces, hts, hus] at hlength
  exact (append_inj' h (by simpa using hlength)).1

/-- Lines that can be joined by semicolons. -/
structure Joinable (lines : List Text) (pipelines : List (List Command)) : Prop where
  /-- No line break parts the blanks at the end of a line, the last one apart. -/
  blanks : ∀ line ∈ lines.dropLast, trailingBlanks (ofLine (line ++ [' '])) = 1
  /-- From the third on, all are single commands. -/
  single : ∀ commands ∈ pipelines.drop 2, commands.length = 1

theorem jointTokens_append (separator : Token) (before after : Option Text) (ts us : List Token) :
    jointTokens separator before after (ts ++ us) =
      jointTokens separator before after ts ++ us := by
  simp [jointTokens]

theorem gapTokens_of_kinds {gap : Option Text} (h : kinds ts = kinds (gapTokens gap)) :
    ∃ gap', ts = gapTokens gap' := by
  cases gap with
  | none => exact ⟨none, map_eq_nil_iff.mp h⟩
  | some text =>
    obtain ⟨token, us, rfl, htoken, hus⟩ := kinds_eq_cons h
    obtain ⟨u, rfl⟩ := eq_space_of_kind_eq htoken
    exact ⟨some u, by rw [map_eq_nil_iff.mp hus]; rfl⟩

private theorem jointTokens_of_kinds (hsep : separator.Separates) {before after : Option Text}
    (h : kinds us = kinds (jointTokens separator before after ts)) :
    ∃ before' after' ts', us = jointTokens separator before' after' ts' ∧ kinds ts' = kinds ts := by
  obtain ⟨b, us, rfl, hb, h⟩ := kinds_eq_append h
  obtain ⟨token, us, rfl, htoken, h⟩ := kinds_eq_cons h
  obtain ⟨a, ts', rfl, ha, hts⟩ := kinds_eq_append h
  obtain ⟨before', rfl⟩ := gapTokens_of_kinds hb
  obtain ⟨after', rfl⟩ := gapTokens_of_kinds ha
  obtain rfl := eq_of_kind_eq hsep.isFixed htoken
  exact ⟨before', after', ts', rfl, hts⟩

theorem ReadableKinds.of_kinds {rule : Rule} {d : List Token} (h : ReadableKinds rule c)
    (hd : kinds d = kinds c) : ReadableKinds rule d :=
  fun e he => h e (he.trans hd)

theorem Pipeline.kinds_joined {y : Text} (h : Pipeline l commands)
    (hblanks : trailingBlanks (ofLine (l ++ [' '])) = 1)
    (hus : kinds us = kinds (ofLine (l ++ " ; ".toList ++ y))) :
    ∃ c before after vs, us = c ++ jointTokens .semicolon before after vs ∧
      ReadableKinds (partRule commands) c ∧ kinds vs = kinds (ofLine y) := by
  obtain ⟨ts, spaces, hl, hreads⟩ := h.reads
  obtain ⟨ts', hl', ⟨b, hb⟩, hjoined⟩ := kinds_ofLine_joined l
  obtain ⟨gap, hgap⟩ := hjoined y
  have hnone : trailingBlanks ts' = 0 := by
    rw [hb, trailingBlanks_append_space] at hblanks
    omega
  -- what stands before the joint is the part, without blanks
  have hts : ts' = ts := by
    obtain ⟨texts, htexts⟩ : ∃ texts : List Text, ofLine l = ts' ++ texts.map .space := by
      rcases hl' with hl' | ⟨t, hl'⟩
      · exact ⟨[], by simpa using hl'⟩
      · exact ⟨[t], hl'⟩
    exact eq_of_append_spaces hnone hreads.endsSolid.trailingBlanks_eq (htexts.symm.trans hl)
  rw [hgap] at hus
  obtain ⟨c, us, rfl, hc, hus⟩ := kinds_eq_append hus
  obtain ⟨before, after, vs, rfl, hvs⟩ := jointTokens_of_kinds (.inr rfl) hus
  exact ⟨c, before, after, vs, rfl, (hts ▸ hreads.readableKinds).of_kinds hc, hvs⟩

theorem exists_sequence (h : List.Forall₂ Pipeline (l :: lines) (commands :: pipelines))
    (hblanks : ∀ line ∈ (l :: lines).dropLast, trailingBlanks (ofLine (line ++ [' '])) = 1)
    (hsingle : ∀ commands ∈ pipelines, commands.length = 1) {front : List Token}
    {before after : Option Text}
    (hfront : ∀ c, ReadableKinds (partRule commands) c →
      ReadableKinds .sequence (front ++ jointTokens .semicolon before after c))
    (hus : kinds us = kinds (ofLine (Text.join " ; ".toList (l :: lines)))) :
    ∃ (c : List Token) (spaces : List Text),
      front ++ jointTokens .semicolon before after us = c ++ spaces.map .space ∧
      ReadableKinds .sequence c := by
  induction lines generalizing l commands pipelines front us before after with
  | nil =>
    cases h with
    | cons hl _ =>
      obtain ⟨ts, spaces, hts, hreads⟩ := hl.reads
      rw [Text.join, hts] at hus
      obtain ⟨c, d, rfl, hc, hd⟩ := kinds_eq_append hus
      obtain ⟨texts, rfl⟩ := kinds_eq_spaces hd
      refine ⟨_, texts, ?_, hfront c (hreads.readableKinds.of_kinds hc)⟩
      rw [jointTokens_append, append_assoc]
  | cons m lines ih =>
    cases h with
    | @cons _ _ _ pipelines hl h =>
      cases pipelines with
      | nil => cases h
      | cons next pipelines =>
        rw [Text.join_cons_cons] at hus
        obtain ⟨c, before', after', vs, rfl, hc, hvs⟩ :=
          hl.kinds_joined (hblanks l (by simp)) hus
        have hnext : partRule next = .command := if_pos (hsingle next mem_cons_self)
        rw [jointTokens_append, ← append_assoc]
        refine ih h (fun line hmem => hblanks line ?_) (fun x hx => hsingle x
          (mem_cons_of_mem _ hx)) ?_ hvs
        · rw [dropLast_cons_of_ne_nil (cons_ne_nil _ _)]
          exact mem_cons_of_mem _ hmem
        · intro d hd
          rw [hnext] at hd
          exact closed_readableKinds .sequence _ _ (by simp)
            (.joined .semicolon before' after' (hfront c hc) hd)

private theorem sequence_of_parts {xs ys : List Command} {d : List Token}
    (before after : Option Text)
    (hc : ReadableKinds (partRule xs) c) (hd : ReadableKinds (partRule ys) d) :
    ReadableKinds .sequence (c ++ jointTokens .semicolon before after d) := by
  have hpair : ∀ left right, ReadableKinds left c → ReadableKinds right d →
      Grammar.joined left .semicolon right ∈ Rule.sequence.alternatives →
      ReadableKinds .sequence (c ++ jointTokens .semicolon before after d) :=
    fun left right hleft hright known =>
      closed_readableKinds .sequence _ _ known (.joined .semicolon before after hleft hright)
  refine hpair _ _ hc hd ?_
  unfold partRule
  split <;> split <;> simp

private theorem exists_script_of_sequence (hts : ts = c ++ spaces.map .space)
    (hc : ReadableKinds .sequence c) : (Script.ofTokens? ts).isSome = true := by
  have hcovers : Covers (·.commandLine) c :=
    Covers.commandLine (.inr (.inr (covers_of_readable_sequence (hc c rfl))))
  obtain ⟨script, hscript, -⟩ := Script.exists_of_covers hcovers spaces
  rw [hts, hscript]
  rfl

theorem Joinable.isSome (hne : lines ≠ []) (h : List.Forall₂ Pipeline lines pipelines)
    (hjoinable : Joinable lines pipelines) :
    (Script.ofLine? (Text.join " ; ".toList lines)).isSome = true := by
  obtain ⟨hblanks, hsingle⟩ := hjoinable
  cases h with
  | nil => exact absurd rfl hne
  | @cons l commands lines pipelines hl h =>
    cases h with
    | nil =>
      obtain ⟨script, -, hread, -⟩ := hl
      rw [Text.join, hread]
      rfl
    | cons hm h =>
      rw [dropLast_cons_of_ne_nil (cons_ne_nil _ _)] at hblanks
      obtain ⟨c, before, after, vs, hvs, hc, hkinds⟩ :=
        hl.kinds_joined (hblanks l mem_cons_self) rfl
      obtain ⟨d, spaces, hd, hsequence⟩ := exists_sequence (.cons hm h)
        (fun line hmem => hblanks line (mem_cons_of_mem _ hmem)) hsingle
        (fun d hd => sequence_of_parts before after hc hd) hkinds
      rw [Text.join_cons_cons, Script.ofLine?]
      exact exists_script_of_sequence (hvs.trans hd) hsequence

/-! ## Only such lines are read -/

theorem Sequence.two_le_length (s : Sequence) : 2 ≤ s.parts.length := by
  cases s with
  | more left before after right =>
    have hleft := Sequence.two_le_length left
    rw [Sequence.parts, length_append]
    omega
  | _ => exact Nat.le_refl 2

theorem Sequence.single (s : Sequence) : ∀ xs ∈ s.parts.drop 2, xs.length = 1 := by
  cases s with
  | more left before after right =>
    intro xs hmem
    rw [Sequence.parts, drop_append_of_le_length left.two_le_length, mem_append] at hmem
    rcases hmem with hmem | hmem
    · exact Sequence.single left xs hmem
    · rw [mem_singleton.mp hmem]
      rfl
  | _ => simp

theorem CommandLine.single (l : CommandLine) : ∀ xs ∈ l.parts.drop 2, xs.length = 1 := by
  cases l with
  | sequence all => exact all.single
  | _ => simp [CommandLine.parts]

def partSizes (ts : List Token) : List Nat :=
  (pieces .semicolon ts).map fun part => (pieces .bar part).length

@[simp] theorem partSizes_kinds (ts : List Token) : partSizes (kinds ts) = partSizes ts := by
  unfold partSizes
  rw [pieces_kinds (.inr rfl), map_map]
  refine map_congr_left fun part _ => ?_
  rw [Function.comp_apply, pieces_kinds (.inl rfl), length_map]

theorem PartReads.length_pieces {xs : List Command} (h : PartReads xs ts) (hts : .backquote ∉ ts) :
    (pieces .bar (trim ts)).length = xs.length := by
  rw [pieces_trim (.inl rfl)]
  exact (Cut.pieces (.inl rfl) (fun _ _ hx hc => hx.balanced (.inl rfl) hc) h hts).2.length_eq.symm

theorem CommandLine.Reads.partSizes_eq {l : CommandLine} (h : l.Reads ts) (hts : .backquote ∉ ts) :
    partSizes ts = l.parts.map List.length := by
  have hsizes : List.Forall₂ (fun xs piece => List.length xs = (Line.pieces .bar piece).length)
      l.parts (Line.pieces .semicolon ts) := by
    refine (h.pieces hts).2.imp ?_
    rintro xs _ ⟨c, hxs, hc, rfl⟩
    exact (hxs.length_pieces hc).symm
  have heq := forall₂_map_left_iff.mpr (forall₂_map_right_iff.mpr hsizes)
  rw [forall₂_eq_eq_eq] at heq
  exact heq.symm

theorem partSizes_append_jointTokens (h : openAfter none ts = none) (before after : Option Text)
    (us : List Token) :
    partSizes (ts ++ jointTokens .semicolon before after us) = partSizes ts ++ partSizes us := by
  have hsep : Token.semicolon.Separates := .inr rfl
  have hstate : openAfter none (ts ++ gapTokens before) = none := by
    rw [openAfter_append, h, gapTokens_eq, openAfter_spaces]
  unfold partSizes jointTokens
  rw [← append_assoc, pieces_append_separator hsep hstate, gapTokens_eq, gapTokens_eq,
    pieces_append_spaces hsep, pieces_spaces_append hsep, map_append]

theorem balanced_blanks (hsep : separator.Separates) (spaces : List Text) :
    Balanced separator none (spaces.map .space) := by
  induction spaces with
  | nil => exact .nil
  | cons text spaces ih => exact (balanced_space hsep none text).append ih

theorem Pipeline.partSizes_eq (h : Pipeline l commands) (hplain : '\x60' ∉ l) :
    Balanced .semicolon none (ofLine l) ∧ partSizes (ofLine l) = [commands.length] := by
  have hsep : Token.semicolon.Separates := .inr rfl
  obtain ⟨ts, spaces, hl, hreads⟩ := h.reads
  have hts : .backquote ∉ ts := fun hmem =>
    backquote_not_mem_ofLine hplain (hl ▸ mem_append_left _ hmem)
  have hbalanced := hreads.balanced hts
  rw [hl]
  refine ⟨hbalanced.append (balanced_blanks hsep spaces), ?_⟩
  unfold partSizes
  rw [pieces_append_spaces hsep, hbalanced.pieces_eq, map_singleton,
    hreads.length_pieces hts]

private theorem Uncut.of_append {open? : Option Quote} (h : Uncut separator open? (ts ++ us)) :
    Uncut separator open? ts := by
  induction ts generalizing open? with
  | nil => trivial
  | cons token ts ih => exact ⟨h.1, ih h.2⟩

private theorem Balanced.of_append_space {separator : Token} {ts : List Token} {t : Text}
    (h : Balanced separator none (ts ++ [Token.space t])) : Balanced separator none ts where
  uncut := h.uncut.of_append
  state := by
    have hstate := h.state
    rwa [openAfter_append, openAfter_cons, after_space] at hstate

/-- A pipeline and what is joined to it: the tokens of the pipeline come first. -/
theorem Pipeline.kinds_ofLine_joined {l : Text} {commands : List Command}
    (h : Pipeline l commands) (hplain : '\x60' ∉ l) :
    ∃ ts, Balanced .semicolon none ts ∧ partSizes ts = [commands.length] ∧
      (∃ b, ofLine (l ++ [' ']) = ts ++ [space b]) ∧
      ∀ y, ∃ gap, kinds (ofLine (l ++ " ; ".toList ++ y)) =
        kinds (ts ++ jointTokens semicolon (some []) gap (ofLine y)) := by
  obtain ⟨ts, hts, hspace, hjoined⟩ := Line.kinds_ofLine_joined l
  obtain ⟨hbalanced, hsize⟩ := h.partSizes_eq hplain
  rcases hts with hts | ⟨t, hts⟩
  · rw [hts] at hbalanced hsize
    exact ⟨ts, hbalanced, hsize, hspace, hjoined⟩
  · rw [hts] at hbalanced hsize
    refine ⟨ts, hbalanced.of_append_space, ?_, hspace, hjoined⟩
    rwa [partSizes, pieces_append_space (.inr rfl)] at hsize

theorem partSizes_join (h : List.Forall₂ Pipeline lines pipelines) (hne : lines ≠ [])
    (hplain : ∀ line ∈ lines, '\x60' ∉ line) :
    partSizes (ofLine (Text.join " ; ".toList lines)) = pipelines.map List.length := by
  induction h with
  | nil => exact absurd rfl hne
  | @cons l commands lines pipelines hl h ih =>
    have hl' := hplain l mem_cons_self
    cases h with
    | nil => rw [Text.join, (hl.partSizes_eq hl').2]; rfl
    | cons hm h =>
      have hlater := ih (cons_ne_nil _ _) fun line hmem =>
        hplain line (mem_cons_of_mem _ hmem)
      obtain ⟨ts, hbalanced, hsize, -, hjoined⟩ := hl.kinds_ofLine_joined hl'
      obtain ⟨gap, hgap⟩ := hjoined (Text.join " ; ".toList (_ :: _))
      rw [Text.join_cons_cons, ← partSizes_kinds, hgap, partSizes_kinds,
        partSizes_append_jointTokens hbalanced.state, hsize, hlater]
      rfl

/-! ## Blanks before semicolons -/

/-- Before a semicolon outside quotes there is one blank at most. -/
def Snug (ts : List Token) : Prop :=
  ∀ piece ∈ (splitTop .semicolon none ts).dropLast, trailingBlanks piece ≤ 1

@[simp] theorem trailingBlanks_kinds (ts : List Token) : trailingBlanks
    (kinds ts) = trailingBlanks ts := by
  have hspace : Token.isSpace ∘ kind = Token.isSpace := funext isSpace_kind
  unfold trailingBlanks kinds
  rw [List.rtakeWhile, List.rtakeWhile, ← map_reverse, takeWhile_map, hspace]
  simp

theorem Snug.of_kinds (h : Snug ts) (hus : kinds us = kinds ts) : Snug us := by
  have hpieces : (splitTop .semicolon none us).map kinds =
      (splitTop .semicolon none ts).map kinds := by
    rw [← splitTop_kinds (.inr rfl), hus, splitTop_kinds (.inr rfl)]
  intro piece hmem
  have hkinds : kinds piece ∈ ((splitTop .semicolon none ts).dropLast).map kinds := by
    rw [map_dropLast, ← hpieces, ← map_dropLast]
    exact mem_map_of_mem hmem
  obtain ⟨piece', hmem', heq⟩ := mem_map.mp hkinds
  rw [← trailingBlanks_kinds, ← heq, trailingBlanks_kinds]
  exact h piece' hmem'

theorem trailingBlanks_le_append (ts us : List Token) :
    trailingBlanks us ≤ trailingBlanks (ts ++ us) := by
  unfold trailingBlanks
  rw [List.rtakeWhile, List.rtakeWhile, reverse_append, length_reverse,
    length_reverse]
  rw [takeWhile_append]
  split
  · rw [length_append]
    exact ( takeWhile_prefix _).length_le.trans (Nat.le_add_right _ _)
  · exact Nat.le_refl _

theorem splitTop_append_spaces (spaces : List Text) {last : List Token} {front : List (List Token)}
    (h : splitTop .semicolon none ts = front ++ [last]) :
    splitTop .semicolon none (ts ++ spaces.map .space) = front ++ [last ++ spaces.map .space] := by
  induction spaces generalizing ts last with
  | nil => simpa using h
  | cons text spaces ih =>
    obtain ⟨pieces, piece, hts, hspace⟩ :=
      splitTop_append_space .semicolon (.inr rfl) none ts text
    obtain ⟨rfl, hlast⟩ := append_inj' (h.symm.trans hts) rfl
    cases hlast
    rw [map_cons, append_cons, ih hspace, ← append_cons]

/-- In a line that is read, one blank at most stands before each semicolon, and none at the
end. -/
theorem splitTop_of_cut {parts : List (List Command)} (h : Cut .semicolon PartReads parts ts)
    (hts : .backquote ∉ ts) :
    ∃ front last, splitTop .semicolon none ts = front ++ [last] ∧ trailingBlanks last = 0 ∧
      ∀ piece ∈ front, trailingBlanks piece ≤ 1 := by
  have hsep : Token.semicolon.Separates := .inr rfl
  induction h with
  | one hx =>
    refine ⟨[], _, (hx.balanced hts).uncut.splitTop_eq, hx.endsSolid.trailingBlanks_eq, ?_⟩
    simp
  | @snoc xs ts us joint hxs hjoint ih =>
    obtain ⟨c, hc, rfl⟩ := hjoint
    simp only [mem_append, mem_cons, not_or] at hts
    obtain ⟨front, last, hsplit, hlast, hfront⟩ := ih hts.1
    have hbalanced : Balanced .semicolon none (gapTokens joint.after ++ c) :=
      (gapTokens_eq joint.after ▸ balanced_blanks hsep _).append (hc.balanced hts.2.2.2.2)
    have hstate : openAfter none (ts ++ gapTokens joint.before) = none := by
      rw [openAfter_append, gapTokens_eq, openAfter_spaces]
      exact (Cut.pieces hsep (fun _ _ hx hc => hx.balanced hc) hxs hts.1).1
    refine ⟨front ++ [last ++ gapTokens joint.before], gapTokens joint.after ++ c, ?_, ?_, ?_⟩
    · rw [← append_assoc, splitTop_append_separator _ hsep none _ _ hstate,
        gapTokens_eq, splitTop_append_spaces _ hsplit, ← gapTokens_eq,
        hbalanced.uncut.splitTop_eq]
    · exact (hc.endsSolid.append_left _).trailingBlanks_eq
    · intro piece hmem
      rcases mem_append.mp hmem with hmem | hmem
      · exact hfront piece hmem
      · rw [mem_singleton.mp hmem, gapTokens_eq, trailingBlanks_append_spaces, hlast]
        cases joint.before <;> simp

theorem Script.snug_of_ofTokens? {script : Script} (h : Script.ofTokens? ts = some script)
    (hts : .backquote ∉ ts) : Snug ts ∧ ∀ size ∈ (partSizes ts).drop 2, size = 1 := by
  cases hline : script.line with
  | none =>
    have hbalanced : Balanced .semicolon none (script.trailing.map .space) :=
      balanced_blanks (.inr rfl) _
    have hsplit := hbalanced.uncut.splitTop_eq
    rw [Script.eq_spaces_of_ofTokens? h hline]
    constructor
    · intro piece hmem
      rw [hsplit] at hmem
      cases hmem
    · rw [partSizes, pieces, hsplit]
      simp
  | some l =>
    obtain ⟨taken, rfl, hreads⟩ := Script.reads_of_ofTokens? h hline
    have htaken : .backquote ∉ taken := fun hmem => hts (mem_append_left _ hmem)
    obtain ⟨front, last, hsplit, -, hfront⟩ := splitTop_of_cut hreads htaken
    constructor
    · intro piece hmem
      rw [splitTop_append_spaces _ hsplit, dropLast_concat] at hmem
      exact hfront piece hmem
    · rw [partSizes, pieces_append_spaces (.inr rfl)]
      change ∀ size ∈ (partSizes taken).drop 2, size = 1
      rw [hreads.partSizes_eq htaken, ← map_drop]
      intro size hmem
      obtain ⟨xs, hxs, rfl⟩ := mem_map.mp hmem
      exact l.single xs hxs

private theorem splitTop_gapTokens_append (gap : Option Text) (ts : List Token) :
    splitTop .semicolon none (gapTokens gap ++ ts) =
      (splitTop .semicolon none ts).modifyHead (gapTokens gap ++ ·) := by
  cases gap with
  | none =>
    change splitTop .semicolon none ts = _
    cases splitTop .semicolon none ts <;> rfl
  | some text => exact splitTop_cons_of_ne _ (by simp) ts

/-- One blank at most before each semicolon: none before the blank of the first, and one at most
before each that follows. -/
theorem Snug.of_joined {b : Text} {gap : Option Text} (hts : Balanced .semicolon none ts)
    (h : Snug (ts ++ jointTokens .semicolon (some b) gap us)) :
    trailingBlanks ts = 0 ∧ Snug us := by
  have hsep : Token.semicolon.Separates := .inr rfl
  have hfirst : Balanced .semicolon none (ts ++ gapTokens (some b)) :=
    hts.append (balanced_space hsep none b)
  have hsplit : splitTop .semicolon none (ts ++ jointTokens .semicolon (some b) gap us) =
      (ts ++ gapTokens (some b)) ::
        (splitTop .semicolon none us).modifyHead (gapTokens gap ++ ·) := by
    rw [jointTokens, ← append_assoc, splitTop_append_separator _ hsep none _ _ hfirst.state,
      hfirst.uncut.splitTop_eq, splitTop_gapTokens_append, singleton_append]
  obtain ⟨first, later, hus⟩ := exists_cons_of_ne_nil (splitTop_ne_nil .semicolon none us)
  unfold Snug at h
  rw [hsplit, hus, modifyHead_cons, dropLast_cons_of_ne_nil (cons_ne_nil _ _)] at h
  constructor
  · have hle : trailingBlanks (ts ++ [Token.space b]) ≤ 1 := h _ mem_cons_self
    rw [trailingBlanks_append_space] at hle
    omega
  · intro piece hmem
    rw [hus] at hmem
    cases later with
    | nil => cases hmem
    | cons next later =>
      rw [dropLast_cons_of_ne_nil (cons_ne_nil _ _)] at hmem h
      rcases mem_cons.mp hmem with rfl | hmem
      · exact (trailingBlanks_le_append _ _).trans
          (h _ (mem_cons_of_mem _ mem_cons_self))
      · exact h piece (mem_cons_of_mem _ (mem_cons_of_mem _ hmem))

private theorem blanks_of_snug (h : List.Forall₂ Pipeline lines pipelines)
    (hplain : ∀ line ∈ lines, '\x60' ∉ line) (hsnug : Snug (ofLine (Text.join " ; ".toList lines))) :
    ∀ line ∈ lines.dropLast, trailingBlanks (ofLine (line ++ [' '])) = 1 := by
  induction h with
  | nil => simp
  | @cons l commands lines pipelines hl h ih =>
    cases h with
    | nil => simp
    | cons hm h =>
      obtain ⟨ts, hbalanced, -, ⟨b, hb⟩, hjoined⟩ :=
        hl.kinds_ofLine_joined (hplain l mem_cons_self)
      obtain ⟨gap, hgap⟩ := hjoined (Text.join " ; ".toList (_ :: _))
      rw [Text.join_cons_cons] at hsnug
      obtain ⟨hnone, hlater⟩ := (hsnug.of_kinds hgap.symm).of_joined hbalanced
      rw [dropLast_cons_of_ne_nil (cons_ne_nil _ _)]
      intro line hmem
      rcases mem_cons.mp hmem with rfl | hmem
      · rw [hb, trailingBlanks_append_space, hnone]
      · exact ih (fun line hmem => hplain line (mem_cons_of_mem _ hmem)) hlater line hmem

private theorem Joinable.of_isSome (hne : lines ≠ []) (h : List.Forall₂ Pipeline lines pipelines)
    (hplain : ∀ line ∈ lines, '\x60' ∉ line)
    (hread : (Script.ofLine? (Text.join " ; ".toList lines)).isSome = true) :
    Joinable lines pipelines := by
  obtain ⟨script, hscript⟩ := Option.isSome_iff_exists.mp hread
  have hjoin : '\x60' ∉ Text.join " ; ".toList lines := by
    intro hmem
    rcases Text.mem_join hmem with hmem | ⟨line, hline, hmem⟩
    · exact absurd hmem (by decide)
    · exact hplain line hline hmem
  obtain ⟨hsnug, hsizes⟩ := Script.snug_of_ofTokens? hscript (backquote_not_mem_ofLine hjoin)
  refine ⟨blanks_of_snug h hplain hsnug, fun commands hmem => hsizes _ ?_⟩
  rw [partSizes_join h hne hplain, ← map_drop]
  exact mem_map_of_mem hmem

/-- Pipelines joined by semicolons are a line if all from the third on are single commands and
each but the last keeps the blanks at its end together. Without backquotes no other pipelines
can be joined. -/
theorem ofLine?_join_pipelines {lines : List Text} {pipelines : List (List Command)}
    (hne : lines ≠ []) (h : List.Forall₂ Pipeline lines pipelines) :
    (Joinable lines pipelines →
      (Script.ofLine? (Text.join " ; ".toList lines)).isSome = true) ∧
    ((∀ line ∈ lines, '\x60' ∉ line) →
      ((Script.ofLine? (Text.join " ; ".toList lines)).isSome = true ↔
        Joinable lines pipelines)) :=
  ⟨fun hjoinable => hjoinable.isSome hne h, fun hplain =>
    ⟨Joinable.of_isSome hne h hplain, fun hjoinable => hjoinable.isSome hne h⟩⟩

/-- Two pipes and a single command after them, with blanks at the ends. -/
theorem ofLine?_join_pipelines_three : ∃ pipelines,
    List.Forall₂ Pipeline ["a|b\n".toList, "c |d\t ".toList, "e ".toList] pipelines ∧
      pipelines.map List.length = [2, 2, 1] ∧
      (Script.ofLine? (Text.join " ; ".toList
        ["a|b\n".toList, "c |d\t ".toList, "e ".toList])).isSome = true := by
  have hfirst : Script.ofLine? "a|b\n".toList = some ⟨some (.pipe (.pair
      (.mk .done (.chars ['a']) .done) none none (.mk .done (.chars ['b']) .done))), []⟩ := by
    decide +kernel
  have hsecond : Script.ofLine? "c |d\t ".toList = some ⟨some (.pipe (.pair
      (.mk .done (.chars ['c']) .done) (some [' ']) none (.mk .done (.chars ['d', '\t']) .done))),
      [[' ']]⟩ := by decide +kernel
  have hthird : Script.ofLine? "e ".toList = some ⟨some (.command
      (.mk .done (.chars ['e']) .done)), [[' ']]⟩ := by decide +kernel
  have hpipelines := List.Forall₂.cons (Pipeline.of_ofLine? hfirst rfl)
    (.cons (Pipeline.of_ofLine? hsecond rfl) (.cons (Pipeline.of_ofLine? hthird rfl) .nil))
  refine ⟨_, hpipelines, rfl, (ofLine?_join_pipelines (by simp) hpipelines).1 ⟨?_, by simp⟩⟩
  simp only [List.dropLast, forall_mem_cons, not_mem_nil, false_implies, implies_true,
    and_true]
  exact ⟨by cbv, by cbv⟩

/-- A pipe in the third place, and blanks that a line break parts from the space before the
semicolon. -/
theorem ofLine?_join_refused :
    (∃ pipelines, List.Forall₂ Pipeline ["a".toList, "b".toList, "c | d".toList] pipelines ∧
      Script.ofLine? (Text.join " ; ".toList ["a".toList, "b".toList, "c | d".toList]) = none) ∧
    ∃ pipelines, List.Forall₂ Pipeline ["a \n".toList, "b".toList] pipelines ∧
      Script.ofLine? (Text.join " ; ".toList ["a \n".toList, "b".toList]) = none := by
  have ha : Script.ofLine? "a".toList = some ⟨some (.command (.mk .done (.chars ['a']) .done)),
      []⟩ := by decide +kernel
  have hb : Script.ofLine? "b".toList = some ⟨some (.command (.mk .done (.chars ['b']) .done)),
      []⟩ := by decide +kernel
  have hcd : Script.ofLine? "c | d".toList = some ⟨some (.pipe (.pair
      (.mk .done (.chars ['c']) .done) (some [' ']) (some [' '])
      (.mk .done (.chars ['d']) .done))), []⟩ := by decide +kernel
  have hblank : Script.ofLine? "a \n".toList = some ⟨some (.command
      (.mk .done (.chars ['a']) .done)), [[' ']]⟩ := by decide +kernel
  constructor
  · exact ⟨_, .cons (.of_ofLine? ha rfl) (.cons (.of_ofLine? hb rfl)
      (.cons (.of_ofLine? hcd rfl) .nil)), by decide +kernel⟩
  · exact ⟨_, .cons (.of_ofLine? hblank rfl) (.cons (.of_ofLine? hb rfl) .nil), by decide +kernel⟩

end Line

end CommandShell

import CommandShell.Proofs.Chart.Completeness
import CommandShell.Proofs.Line.PlainLines
import CommandShell.Proofs.Token.Rescanning

/-!
# The shape of a plan

Semicolons cut a line into parts, and bars cut a part into commands. The plan of the line is put
together from the plans of these pieces, each planned as a line of its own: bars bind tighter than
semicolons, and both lean to the left.
-/

namespace CommandShell.Line

open List

/-! ## Pieces are stretches of the line -/

private theorem splitTop_infix (separator : Token) (open? : Option Quote) (ts : List Token) :
    ∃ first later, splitTop separator open? ts = first :: later ∧ first <+: ts ∧
      ∀ piece ∈ later, piece <:+: ts := by
  induction ts generalizing open? with
  | nil => exact ⟨[], [], rfl, prefix_refl _, by simp⟩
  | cons token ts ih =>
    by_cases hcut : open? = none ∧ token = separator
    · obtain ⟨first, later, heq, hfirst, hlater⟩ := ih none
      refine ⟨[], first :: later, by rw [splitTop, if_pos hcut, heq], nil_prefix, ?_⟩
      intro piece hmem
      rcases mem_cons.mp hmem with rfl | hmem
      · exact infix_cons hfirst.isInfix
      · exact infix_cons (hlater piece hmem)
    · obtain ⟨first, later, heq, hfirst, hlater⟩ := ih (Quote.after open? token)
      refine ⟨token :: first, later, ?_, (prefix_cons_inj token).mpr hfirst, ?_⟩
      · rw [splitTop_cons_of_ne separator hcut, heq, modifyHead_cons]
      · exact fun piece hmem => infix_cons (hlater piece hmem)

variable {ts : List Token} {x : Command}

theorem infix_of_mem_splitTop {separator : Token} {open? : Option Quote} {piece : List Token}
    (h : piece ∈ splitTop separator open? ts) : piece <:+: ts := by
  obtain ⟨first, later, heq, hfirst, hlater⟩ := splitTop_infix separator open? ts
  rw [heq] at h
  rcases mem_cons.mp h with rfl | h
  · exact hfirst.isInfix
  · exact hlater piece h

private theorem infix_of_trim (ts : List Token) : trim ts <:+: ts := by
  obtain ⟨before, after, h⟩ := exists_spaces_trim ts
  exact ⟨before.map .space, after.map .space, by rw [append_assoc]; exact h.symm⟩

theorem infix_of_mem_pieces {separator : Token} {piece : List Token}
    (h : piece ∈ pieces separator ts) : piece <:+: ts := by
  obtain ⟨whole, hwhole, rfl⟩ := mem_map.mp h
  exact (infix_of_trim whole).trans (infix_of_mem_splitTop hwhole)

/-! ## A command as a line of its own -/

theorem EndsSolid.eq_nil_of_spaces (h : EndsSolid ts) {taken : List Token} {spaces : List Text}
    (hts : ts = taken ++ spaces.map .space) : spaces = [] := by
  obtain ⟨front, token, rfl, htoken⟩ := h
  rcases eq_nil_or_concat spaces with rfl | ⟨before, text, rfl⟩
  · rfl
  · rw [concat_eq_append, map_append, ← append_assoc] at hts
    have hlast := (append_inj' hts rfl).2
    cases hlast
    cases htoken

theorem Command.Reads.mem_commandLine (h : x.Reads ts) :
    (CommandLine.command x, 0) ∈ (Row.ofTokens ts).commandLine := by
  cases ts with
  | nil => exact absurd rfl h.ne_nil
  | cons token ts =>
    unfold Command.Reads at h
    rw [Row.ofTokens_cons] at h ⊢
    -- readings as a single command are preferred to all others
    obtain ⟨others, hothers⟩ := Readings.distinct_append
      ((Row.ofToken (Chart.ofTokens ts) token).command.as CommandLine.command)
      ((Row.ofToken (Chart.ofTokens ts) token).pipe.as CommandLine.pipe ++
        (Row.ofToken (Chart.ofTokens ts) token).sequence.as CommandLine.sequence)
    have hline : (Row.ofToken (Chart.ofTokens ts) token).commandLine =
        Readings.as CommandLine.command (Row.ofToken (Chart.ofTokens ts) token).command.distinct
          ++ others := by
      rw [← Readings.distinct_as, ← hothers, ← append_assoc]
      rfl
    have hdistinct : (Row.ofToken (Chart.ofTokens ts) token).command.distinct =
        (Row.ofToken (Chart.ofTokens ts) token).command := Readings.distinct_distinct _
    rw [hline, hdistinct]
    exact mem_append_left _ (Readings.mem_as.mpr ⟨x, h, rfl⟩)

theorem eq_of_mem_commandLine {l l' : CommandLine} {left : Nat}
    (h : (l, left) ∈ (Row.ofTokens ts).commandLine)
    (h' : (l', left) ∈ (Row.ofTokens ts).commandLine) : l = l' := by
  cases ts with
  | nil => cases h
  | cons token ts =>
    rw [Row.ofTokens_cons] at h h'
    exact Readings.eq_of_mem_distinct h h'

private theorem Command.Reads.eq_of_blanks (h : x.Reads ts) {l : CommandLine} {left : Nat}
    (hl : (l, left) ∈ (Row.ofTokens ts).commandLine) {spaces : List Text}
    (hblanks : ((Chart.ofTokens ts).row left).blanks? = some spaces) :
    l = .command x ∧ spaces = [] := by
  have hsolid : EndsSolid ts := h.tokens_eq ▸ x.endsSolid
  obtain ⟨taken, rest, hts, rfl, -⟩ := (Row.sound_ofTokens ts).commandLine l left hl
  have hsuffix : rest <:+ ts := hts ▸ suffix_append _ _
  have hrest := ((Chart.sound_ofTokens ts).row rest hsuffix).blanks? spaces hblanks
  obtain rfl : spaces = [] := hsolid.eq_nil_of_spaces (hts.trans (by rw [hrest]))
  have hzero : rest.length = 0 := by rw [hrest]; rfl
  rw [hzero] at hl
  exact ⟨eq_of_mem_commandLine hl h.mem_commandLine, rfl⟩

theorem Command.Reads.ofTokens? {x : Command} {ts : List Token} (h : x.Reads ts) :
    Script.ofTokens? ts = some ⟨some (.command x), []⟩ := by
  have hend : ((Chart.ofTokens ts).row 0).blanks? = some [] := by
    rw [← length_nil (α := Token), Chart.row_ofTokens nil_suffix]
    exact Row.blanks?_spaces []
  have hmem : (⟨some (.command x), []⟩ : Script) ∈
      (Row.ofTokens ts).commandLine.filterMap fun reading =>
        ((Chart.ofTokens ts).row reading.2).blanks?.map
          fun trailing => (⟨some reading.1, trailing⟩ : Script) :=
    mem_filterMap.mpr ⟨(.command x, 0), h.mem_commandLine,
      by simp only [hend, Option.map_some]⟩
  unfold Script.ofTokens?
  dsimp only
  split
  · next script later hlines =>
      have hfirst : script ∈ script :: later := mem_cons_self
      rw [← hlines, mem_filterMap] at hfirst
      obtain ⟨⟨l, left⟩, hl, hscript⟩ := hfirst
      obtain ⟨spaces, hblanks, rfl⟩ := Option.map_eq_some_iff.mp hscript
      obtain ⟨rfl, rfl⟩ := h.eq_of_blanks hl hblanks
      rfl
  · next hlines => exact absurd hmem (eq_nil_iff_forall_not_mem.mp hlines _)

theorem plan_of_reads {κ : Type} (catalog : Catalog κ) (w : World) {line : Text}
    (h : x.Reads (Token.ofLine line)) : plan catalog w line = x.plan catalog w :=
  plan_of_command catalog w h.ofTokens?

theorem Command.Reads.plan_text {κ : Type} (catalog : Catalog κ) (w : World) (h : x.Reads ts)
    (hscan : Token.ofLine ((trim ts).flatMap Token.text) = trim ts) :
    Line.plan catalog w ((trim ts).flatMap Token.text) = x.plan catalog w := by
  have hsolid : EndsSolid ts := h.tokens_eq ▸ x.endsSolid
  obtain ⟨y, hy, hplan⟩ := h.dropWhile
  rw [← hsolid.trim_eq, ← hscan] at hy
  rw [plan_of_reads catalog w hy, hplan]

/-! ## Plans of lines -/

/-- The commands of a line as pieces of its tokens: cut at the semicolons and then at the bars
outside quotes, without the blanks around each piece. -/
def commandPieces (line : Text) : List (List (List Token)) :=
  (splitTop .semicolon none (Token.ofLine line)).map (pieces .bar)

def piecePlan {κ : Type} (catalog : Catalog κ) (w : World) (piece : List Token) :
    Checked (Plan κ) :=
  plan catalog w (piece.flatMap Token.text)

private theorem Command.Reads.trim_ne_nil (h : x.Reads ts) : trim ts ≠ [] := by
  obtain ⟨y, hy, -⟩ := h.dropWhile
  have hsolid : EndsSolid ts := h.tokens_eq ▸ x.endsSolid
  rw [hsolid.trim_eq]
  exact hy.ne_nil

section Shape

variable {κ : Type} (catalog : Catalog κ) (w : World) {line : Text} (hline : Token.Unbroken line)
include hline

private theorem PartReads.plan_pieces {xs : List Command} {part : List Token} (h : PartReads xs ts)
    (hts : .backquote ∉ ts) (htrim : trim ts = trim part) (hpart : part <:+: Token.ofLine line) :
    (∀ piece ∈ pieces .bar part, piece ≠ []) ∧
      partPlan catalog w xs = planAll .pipe (piecePlan catalog w) (pieces .bar part) := by
  have hsep : Token.bar.Separates := .inl rfl
  have hpieces : pieces .bar ts = pieces .bar part := by
    rw [← pieces_trim hsep, htrim, pieces_trim hsep]
  have hread := (Cut.pieces hsep (fun _ _ hx hc => hx.balanced hsep hc) h hts).2
  rw [hpieces] at hread
  have hscan : ∀ piece ∈ pieces .bar part, Token.ofLine (piece.flatMap Token.text) = piece :=
    fun piece hmem => hline.ofLine_infix ((infix_of_mem_pieces hmem).trans hpart)
  have hboth := (forall₂_and_left _ _).mpr ⟨hscan, hread.flip⟩
  constructor
  · have hsolid : List.Forall₂ (fun piece (_ : Command) => piece ≠ [] ∧ True)
        (pieces .bar part) xs := by
      refine hread.flip.imp ?_
      rintro _ x ⟨c, hx, -, rfl⟩
      exact ⟨hx.trim_ne_nil, trivial⟩
    exact ((forall₂_and_left _ _).mp hsolid).1
  · refine planAll_congr .pipe (hboth.flip.imp ?_)
    rintro x _ ⟨hpiece, c, hx, -, rfl⟩
    exact (hx.plan_text catalog w hpiece).symm

end Shape

/-- The plan of a line is the sequence of its parts, and each part is the pipe of its commands,
both joined from the left. Every command is planned as a line of its own, and none of them is
empty. -/
theorem plan_eq_nested {κ : Type} (catalog : Catalog κ) (w : World) (line : Text) (p : Plan κ)
    (hplain : '\x60' ∉ line) (hreturn : '\r' ∉ line) (hfeed : '\n' ∉ line)
    (h : plan catalog w line = .ok p) :
    (∀ part ∈ commandPieces line, ∀ piece ∈ part, piece ≠ []) ∧
      planAll .seq (planAll .pipe (piecePlan catalog w)) (commandPieces line) = .ok p := by
  have hsep : Token.semicolon.Separates := .inr rfl
  have hline : Token.Unbroken line := by
    intro c hc
    have hr : c ≠ '\r' := fun heq => hreturn (heq ▸ hc)
    have hn : c ≠ '\n' := fun heq => hfeed (heq ▸ hc)
    simp [Token.isLineBreak, hr, hn]
  obtain ⟨l, taken, spaces, hts, hreads, hp⟩ := reads_of_plan h
  have htaken : .backquote ∉ taken := fun hmem =>
    backquote_not_mem_ofLine hplain (hts ▸ mem_append_left _ hmem)
  have hparts := (hreads.pieces htaken).2
  rw [← pieces_append_spaces hsep taken spaces, ← hts, pieces, forall₂_map_right_iff] at hparts
  have hstretch : ∀ part ∈ splitTop .semicolon none (Token.ofLine line),
      part <:+: Token.ofLine line := fun part hmem => infix_of_mem_splitTop hmem
  have hplans : List.Forall₂ (fun part xs => (∀ piece ∈ pieces .bar part, piece ≠ []) ∧
      partPlan catalog w xs = planAll .pipe (piecePlan catalog w) (pieces .bar part))
      (splitTop .semicolon none (Token.ofLine line)) l.parts := by
    refine ((forall₂_and_left _ _).mpr ⟨hstretch, hparts.flip⟩).imp ?_
    rintro part xs ⟨hpart, c, hxs, hc, htrim⟩
    exact hxs.plan_pieces catalog w hline hc htrim hpart
  obtain ⟨hsolid, hplans⟩ := (forall₂_and_left _ _).mp hplans
  refine ⟨by simpa [commandPieces] using hsolid, ?_⟩
  rw [← hp, l.plan_eq, commandPieces]
  refine (planAll_congr .seq ?_).symm
  exact forall₂_map_right_iff.mpr hplans.flip

/-- Three parts of three, two and one commands; the separators between quotes cut nothing. -/
theorem plan_eq_nested_quoted : ∃ p,
    plan utilities ⟨.dir [], [], []⟩ "echo \"a;|b\"|cat | wc ; pwd|cat;ls".toList = .ok p ∧
    (commandPieces "echo \"a;|b\"|cat | wc ; pwd|cat;ls".toList).map List.length = [3, 2, 1] ∧
    planAll .seq (planAll .pipe (piecePlan utilities ⟨.dir [], [], []⟩))
      (commandPieces "echo \"a;|b\"|cat | wc ; pwd|cat;ls".toList) = .ok p := by
  have hread : Script.ofLine? "echo \"a;|b\"|cat | wc ; pwd|cat;ls".toList =
      some ⟨some (.sequence (.more (.pipes
        (.more (.pair (.mk .done (.chars "echo".toList) (.modifier [' '] (.arg (.strings (.one
          (.mk .double (.literal (.chars ['a']) (.literal .semicolon (.literal .bar
            (.literal (.chars ['b']) .done)))))))) .done)) none none
          (.mk .done (.chars "cat".toList) .done)) (some [' ']) (some [' '])
          (.mk .done (.chars "wc".toList) .done))
        (some [' ']) (some [' '])
        (.pair (.mk .done (.chars "pwd".toList) .done) none none
          (.mk .done (.chars "cat".toList) .done)))
        none none (.mk .done (.chars "ls".toList) .done))), []⟩ := by
    decide +kernel
  have hecho : Command.plan utilities ⟨.dir [], [], []⟩ (.mk .done (.chars "echo".toList)
      (.modifier [' '] (.arg (.strings (.one (.mk .double (.literal (.chars ['a'])
        (.literal .semicolon (.literal .bar (.literal (.chars ['b']) .done)))))))) .done)) =
      .ok (.simple (.command .echo [] ["a;|b".toList])) := by
    rw [Command.plan_utility .echo rfl]
    cbv
  have hplan : plan utilities ⟨.dir [], [], []⟩ "echo \"a;|b\"|cat | wc ; pwd|cat;ls".toList =
      .ok (.seq (.seq (.pipe (.pipe (.simple (.command .echo [] ["a;|b".toList]))
        (.simple (.command .cat [] []))) (.simple (.command .wc [] [])))
        (.pipe (.simple (.command .pwd [] [])) (.simple (.command .cat [] []))))
        (.simple (.command .ls [] []))) := by
    rw [plan_of_ofLine? _ _ hread]
    simp only [Script.plan, CommandLine.plan, Sequence.plan, Pipe.plan, hecho]
    rfl
  refine ⟨_, hplan, by cbv, ?_⟩
  exact (plan_eq_nested utilities _ _ _ (by decide) (by decide) (by decide) hplan).2

end CommandShell.Line

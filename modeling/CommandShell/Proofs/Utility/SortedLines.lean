import CommandShell.Proofs.Files.Put
import CommandShell.Proofs.Text.LineEnds
import CommandShell.Proofs.Utility.Filters

/-!
# Sorted lines

`sort` compares and writes lines together with their line feeds. A last line without a line feed
runs into the line that is put after it, and a line that goes on with a character below the line
feed is put before the line that it goes on from. So the lines of the output are those of the
input in order exactly if neither happens. Lines that compare equal are the same, so the opposite
order is the order from behind.
-/

namespace CommandShell

open List

namespace Text

/-! ## The order of lines -/

theorem lt_append_cons (x : Text) (c : Char) (y : Text) : x < x ++ c :: y := by
  induction x with
  | nil => exact nil_lt_cons c y
  | cons d x ih => exact cons_lt_cons_iff.2 (.inr ⟨rfl, ih⟩)

theorem le_append (x y : Text) : x ≤ x ++ y := by
  cases y with
  | nil => rw [append_nil]
  | cons c y => exact (lt_append_cons x c y).le

/-- A line feed does not change the order, unless a line goes on with a character below it. -/
theorem append_feed_lt {x y : Text} (h : x < y) (high : ∀ c r, y = x ++ c :: r → '\n' < c) :
    x ++ ['\n'] < y := by
  induction x generalizing y with
  | nil =>
    cases y with
    | nil => exact absurd h (lt_irrefl _)
    | cons c r => exact cons_lt_cons_iff.2 (.inl (high c r rfl))
  | cons d x ih =>
    cases y with
    | nil => exact absurd h (not_lt_nil _)
    | cons c r =>
      rcases cons_lt_cons_iff.1 h with hlt | ⟨rfl, hlt⟩
      · exact cons_lt_cons_iff.2 (.inl hlt)
      · refine cons_lt_cons_iff.2 (.inr ⟨rfl, ih hlt fun e r' hr => high e r' ?_⟩)
        rw [hr, cons_append]

theorem append_cons_lt_append_cons {c d : Char} (h : c < d) (x y z : Text) :
    x ++ c :: y < x ++ d :: z := by
  induction x with
  | nil => exact cons_lt_cons_iff.2 (.inl h)
  | cons e x ih => exact cons_lt_cons_iff.2 (.inr ⟨rfl, ih⟩)

/-- That a line which goes on where another one ends does so with a character above the line
feed. -/
def High (contents : List Text) : Prop :=
  ∀ x c y, x ∈ contents → x ++ c :: y ∈ contents → '\n' < c

theorem IsLine.between {line : Text} (h : IsLine line) :
    content line ≤ line ∧ line ≤ content line ++ ['\n'] := by
  rcases h with ⟨x, hx, rfl⟩ | ⟨hfeed, -⟩
  · rw [content_append_feed hx]
    exact ⟨le_append x _, le_rfl⟩
  · rw [content_of_not_mem hfeed]
    exact ⟨le_rfl, le_append line _⟩

section Order

variable {sorted : List Text} (hlines : ∀ line ∈ sorted, IsLine line)
  (hsorted : sorted.Pairwise (· ≤ ·))
include hlines hsorted

theorem pairwise_content_of_high (high : High (sorted.map content)) :
    (sorted.map content).Pairwise (· ≤ ·) := by
  refine pairwise_map.2 (hsorted.imp_of_mem fun {l l'} hl hl' hle => ?_)
  by_contra hlt
  have hfeed : content l' ++ ['\n'] < content l := append_feed_lt (not_le.1 hlt) fun c r hr =>
    high (content l') c r (mem_map_of_mem hl') (hr ▸ mem_map_of_mem hl)
  have hback : l' < l := calc
    l' ≤ content l' ++ ['\n'] := (hlines l' hl').between.2
    _ < content l := hfeed
    _ ≤ l := (hlines l hl).between.1
  exact absurd hle (not_le.2 hback)

/-- If only the last of some lines in order may lack a line feed, and their contents are in order
too, then none of them goes on with a low character. -/
theorem high_of_pairwise_content (hended : ∀ line ∈ sorted.dropLast, IsEnded line)
    (hcontent : (sorted.map content).Pairwise (· ≤ ·)) : High (sorted.map content) := by
  intro x c y hx hy
  obtain ⟨l, hl, rfl⟩ := mem_map.1 hx
  obtain ⟨l', hl', hl'y⟩ := mem_map.1 hy
  have hne : l ≠ l' := by
    rintro rfl
    exact absurd (congrArg List.length hl'y) (by simp)
  have hlt : content l < content l' := hl'y ▸ lt_append_cons (content l) c y
  -- Of two different lines one is listed first, and both orders put it first.
  have hle : l ≤ l' := by
    have hagree : sorted.Pairwise fun l l' =>
        (l ≤ l' ∧ content l ≤ content l') ∨ (l' ≤ l ∧ content l' ≤ content l) :=
      (hsorted.and (pairwise_map.1 hcontent)).imp .inl
    have : Std.Symm fun l l' : Text =>
        (l ≤ l' ∧ content l ≤ content l') ∨ (l' ≤ l ∧ content l' ≤ content l) :=
      ⟨fun _ _ => Or.symm⟩
    rcases hagree.forall hl hl' hne with h | h
    · exact h.1
    · exact absurd hlt (not_lt.2 h.2)
  have hc : c ≠ '\n' := by
    rintro rfl
    exact feed_not_mem_content l' (hl'y ▸ mem_append_right _ mem_cons_self)
  rcases hlines l hl with ⟨x, hfeed, rfl⟩ | ⟨hfeed, -⟩
  · rw [content_append_feed hfeed] at hl'y
    by_contra hlow
    have hback : l' < x ++ ['\n'] := calc
      l' ≤ content l' ++ ['\n'] := (hlines l' hl').between.2
      _ = x ++ c :: (y ++ ['\n']) := by rw [hl'y, append_assoc, cons_append]
      _ < x ++ ['\n'] := append_cons_lt_append_cons (lt_of_le_of_ne (not_lt.1 hlow) hc) x _ []
    exact absurd hle (not_le.2 hback)
  · -- A line without a line feed is the last one, so nothing comes after it.
    have hsplit := dropLast_append_getLast (ne_nil_of_mem hl)
    rw [← hsplit, mem_append, mem_singleton] at hl hl'
    rw [← hsplit, pairwise_append] at hsorted
    have hlast : l = sorted.getLast _ := hl.resolve_left fun hmem => by
      obtain ⟨x, -, rfl⟩ := hended l hmem
      simp at hfeed
    have hmem := hl'.resolve_right fun h => hne (hlast.trans h.symm)
    exact absurd (le_antisymm hle (hsorted.2.2 l' hmem l (by simp [hlast]))) hne

end Order

theorem High.of_perm {contents contents' : List Text} (high : High contents)
    (h : contents.Perm contents') : High contents' := fun x c y hx hy =>
  high x c y (h.mem_iff.2 hx) (h.mem_iff.2 hy)

/-! ## Sorted texts -/

/-- A text whose lines stay apart and in order when they are sorted with their line feeds: no line
goes on where another one ends with a character below the line feed, and a last line without a
line feed is greater than all others. -/
structure Sortable (s : Text) : Prop where
  high : High (contents s)
  last : ∀ front rest, lines s = front ++ [rest] → '\n' ∉ rest → ∀ line ∈ front, content line < rest

theorem length_lines_flatten {front back : List Text} {x : Text}
    (hfront : ∀ line ∈ front, IsEnded line) (hx : '\n' ∉ x) (hne : x ≠ [])
    (hback : ∀ line ∈ back, IsEnded line) :
    (lines (front ++ x :: back).flatten).length = front.length + max 1 back.length := by
  rw [flatten_append, lines_flatten_append hfront, length_append]
  cases back with
  | nil => simp [lines_of_not_mem hx hne]
  | cons line back =>
    obtain ⟨⟨y, hy, hline⟩, hback⟩ := forall_mem_cons.1 hback
    have hjoined : IsEnded (x ++ line) := ⟨x ++ y, by simp [hx, hy], by simp [hline]⟩
    have hended : ∀ line' ∈ (x ++ line) :: back, IsEnded line' :=
      forall_mem_cons.2 ⟨hjoined, hback⟩
    have hflatten : (x :: line :: back).flatten = ((x ++ line) :: back).flatten := by simp
    rw [hflatten, lines_flatten (fun line' hline' => .inl (hended line' hline'))
      fun line' hline' => hended line' (mem_of_mem_dropLast hline')]
    simp

section Sorted

variable {s : Text} {sorted : List Text} (hperm : sorted.Perm (lines s))
  (hsorted : sorted.Pairwise (· ≤ ·))
include hperm hsorted

theorem sorted_iff_high (hended : ∀ line ∈ sorted.dropLast, IsEnded line) :
    (contents sorted.flatten).Perm (contents s) ∧
      (contents sorted.flatten).Pairwise (· ≤ ·) ↔ High (contents s) := by
  have hlines : ∀ line ∈ sorted, IsLine line := fun line hline =>
    isLine_of_mem_lines (hperm.subset hline)
  have hcontents : (sorted.map content).Perm (contents s) := hperm.map content
  rw [contents, lines_flatten hlines hended]
  constructor
  · rintro ⟨-, hcontent⟩
    exact (high_of_pairwise_content hlines hsorted hended hcontent).of_perm hcontents
  · intro high
    exact ⟨hcontents, pairwise_content_of_high hlines hsorted (high.of_perm hcontents.symm)⟩

omit hsorted in
theorem ended_or_split : (∀ line ∈ sorted, IsEnded line) ∨ ∃ ended rest front back,
    lines s = ended ++ [rest] ∧ (∀ line ∈ ended, IsEnded line) ∧ '\n' ∉ rest ∧ rest ≠ [] ∧
      sorted = front ++ rest :: back ∧ (front ++ back).Perm ended := by
  obtain ⟨ended, rest, hended, hrest, rfl⟩ := exists_lines s
  rw [lines_flatten_append hended] at hperm ⊢
  by_cases hne : rest = []
  · rw [hne, show lines [] = [] from rfl, append_nil] at hperm
    exact .inl fun line hline => hended line (hperm.subset hline)
  · rw [lines_of_not_mem hrest hne] at hperm ⊢
    obtain ⟨front, back, rfl⟩ := append_of_mem
      (hperm.symm.subset (mem_append_right ended (mem_singleton_self rest)))
    refine .inr ⟨ended, rest, front, back, rfl, hended, hrest, hne, rfl, ?_⟩
    exact (perm_middle.symm.trans
      (hperm.trans (perm_append_singleton rest ended))).cons_inv

omit hsorted in
theorem ended_of_length (hlength : (lines sorted.flatten).length = (lines s).length) :
    ∀ line ∈ sorted.dropLast, IsEnded line := by
  obtain hall | ⟨ended, rest, front, back, hs, hended, hrest, hne, rfl, hp⟩ := ended_or_split hperm
  · exact fun line hline => hall line (mem_of_mem_dropLast hline)
  · have hparts : ∀ line ∈ front ++ back, IsEnded line := fun line hline =>
      hended line (hp.subset hline)
    obtain ⟨hfront, hback⟩ := forall_mem_append.1 hparts
    rw [length_lines_flatten hfront hrest hne hback, hs, length_append, ← hp.length_eq,
      length_append, length_singleton] at hlength
    obtain rfl : back = [] := eq_nil_of_length_eq_zero (by omega)
    rwa [dropLast_concat]

private theorem ended_of_sortable (h : Sortable s) : ∀ line ∈ sorted.dropLast, IsEnded line := by
  obtain hall | ⟨ended, rest, front, back, hs, hended, hrest, hne, rfl, hp⟩ := ended_or_split hperm
  · exact fun line hline => hall line (mem_of_mem_dropLast hline)
  · have hfront : ∀ line ∈ front, IsEnded line := fun line hline =>
      hended line (hp.subset (mem_append_left back hline))
    cases back with
    | nil => rwa [dropLast_concat]
    | cons line back =>
      have hline : line ∈ ended := hp.subset (by simp)
      have hle : rest ≤ line := (pairwise_cons.1 (pairwise_append.1 hsorted).2.1).1 line
        mem_cons_self
      have hlt := h.last ended rest hs hrest line hline
      obtain ⟨x, hx, rfl⟩ := hended line hline
      rw [content_append_feed hx] at hlt
      refine absurd hle (not_le.2 (append_feed_lt hlt fun c y hy => h.high x c y ?_ ?_))
      · exact mem_map.2 ⟨_, hs ▸ mem_append_left _ hline, content_append_feed hx⟩
      · exact mem_map.2 ⟨rest, hs ▸ mem_append_right _ (mem_singleton_self rest),
          (content_of_not_mem hrest).trans hy⟩

private theorem content_lt_of_ended (hended : ∀ line ∈ sorted.dropLast, IsEnded line)
    {front : List Text}
    {rest : Text} (hs : lines s = front ++ [rest]) (hrest : '\n' ∉ rest) {line : Text}
    (hline : line ∈ front) : content line < rest := by
  rw [hs] at hperm
  have hmem : rest ∈ sorted := hperm.symm.subset (by simp)
  rcases eq_nil_or_concat' sorted with rfl | ⟨before, last, rfl⟩
  · cases hmem
  rw [dropLast_concat] at hended
  have hnot : rest ∉ before := fun h => by
    obtain ⟨x, -, rfl⟩ := hended rest h
    simp at hrest
  obtain rfl : rest = last := mem_singleton.1 ((mem_append.1 hmem).resolve_left hnot)
  have hline' : line ∈ before := ((perm_append_right_iff [rest]).1 hperm).symm.subset hline
  obtain ⟨x, hx, rfl⟩ := hended line hline'
  rw [content_append_feed hx]
  calc x < x ++ ['\n'] := lt_append_cons x '\n' []
    _ ≤ rest := (pairwise_append.1 hsorted).2.2 _ hline' _ (mem_singleton_self rest)

theorem sorted_iff_sortable :
    (contents sorted.flatten).Perm (contents s) ∧
      (contents sorted.flatten).Pairwise (· ≤ ·) ↔ Sortable s := by
  constructor
  · intro h
    have hended := ended_of_length hperm (by simpa [contents] using h.1.length_eq)
    exact ⟨(sorted_iff_high hperm hsorted hended).1 h, fun _ _ hs hrest _ hline =>
      content_lt_of_ended hperm hsorted hended hs hrest hline⟩
  · intro h
    exact (sorted_iff_high hperm hsorted (ended_of_sortable hperm hsorted h)).2 h.high

end Sorted

end Text

/-! ## `sort` -/

namespace Sorting

theorem perm_order (reverse : Bool) (lines : List Text) : (order reverse lines).Perm lines := by
  cases reverse <;> exact mergeSort_perm lines _

theorem pairwise_order (lines : List Text) : (order false lines).Pairwise (· ≤ ·) :=
  Text.sorted_mergeSort lines

theorem pairwise_order_true (lines : List Text) : (order true lines).Pairwise (· ≥ ·) := by
  have hle : (order true lines).Pairwise fun s t => Text.le t s := List.pairwise_mergeSort
    (fun a b c => by simpa only [Text.le_iff] using fun hba hcb => le_trans hcb hba)
    (fun a b => by simpa using le_total b a) lines
  exact hle.imp (Text.le_iff _ _).1

/-- Sorting in the opposite order keeps equal lines as they are, and so does the way back; but two
lists in one order that have the same lines are the same. -/
theorem order_true (lines : List Text) : order true lines = (order false lines).reverse := by
  have hperm : (order true lines).Perm (order false lines).reverse :=
    (perm_order true lines).trans
      ((perm_order false lines).symm.trans (reverse_perm _).symm)
  exact hperm.eq_of_pairwise' (pairwise_order_true lines)
    (pairwise_reverse.2 (pairwise_order lines))

theorem length_flatten_order (reverse : Bool) (text : Text) :
    (order reverse (Text.lines text)).flatten.length = text.length := by
  rw [(perm_order reverse _).flatten.length_eq, Text.flatten_lines]

theorem writes_run_empty (w : World) (reverse : Bool) :
    (Sorting.run ⟨reverse, none⟩).Writes w (.ofText []) (.error (.complaint .sortNoInput)) :=
  ⟨.ended [], fun output _ => by rw [Except.toOption, Option.getD_none, Stream.pour_nil]; rfl⟩

end Sorting

/-- The text that `sort` is given, be it empty: that of its file, or else the one on its input. -/
inductive World.Gives (w : World) : Option Text → Stream → Text → Prop
  | file {file text : Text} {input : Stream} (h : w.read? file = some text)
      (hinput : input.isConnected = true) : w.Gives (some file) input text
  | input (text : Text) : w.Gives none (.ofText text) text

namespace Plan

open Text

/-- `sort` puts the lines of its text in order, each with its line feed. What it writes consists of
the same lines in the order of what they hold exactly if the text is sortable. -/
theorem effect_sort {w : World} {file? : Option Text} {input output : Stream} {text : Text}
    (hoffers : w.Offers file?.toList input text) (houtput : output.isWritable = true) :
    let effect := (simple (.command .sort [] file?.toList)).effect ⟨w, input, output⟩
    ∃ sorted : List Text, sorted.Perm (lines text) ∧ sorted.Pairwise (· ≤ ·) ∧
      effect.result = .ok 0 ∧ effect.world = w ∧
      effect.scene.output = output.pour sorted.flatten ∧
      ((contents sorted.flatten).Perm (contents text) ∧
        (contents sorted.flatten).Pairwise (· ≤ ·) ↔ Sortable text) := by
  intro effect
  have hcheck : Invocation.check .sort ⟨some [], some file?.toList, true⟩ w =
      .ok (.sort ⟨false, file?⟩) := by
    cases file? <;> rfl
  obtain ⟨input', heffect⟩ : ∃ input', effect = _ := effect_of_writes hoffers.isConnected
    houtput hcheck (Sorting.writes_run hoffers false)
  have hperm := Sorting.perm_order false (lines text)
  have hsorted := Sorting.pairwise_order (lines text)
  rw [heffect]
  exact ⟨_, hperm, hsorted, rfl, rfl, rfl, sorted_iff_sortable hperm hsorted⟩

/-- The last line may lack a line feed if it is the greatest one, and lines may be empty or go on
from others. -/
theorem effect_sort_sortable :
    let text := "c\n\nca\na\nd".toList
    let effect := (simple (.command .sort [] [])).effect (.ofInput text)
    Sortable text ∧ effect.result = .ok 0 ∧ effect.scene.output.held = "\na\nc\nca\nd".toList := by
  intro text effect
  have hoffers : World.Offers ⟨.dir [], [], []⟩ (none : Option Text).toList (.ofText text) text :=
    .input (by decide)
  obtain ⟨sorted, hperm, hsorted, hresult, -, houtput, hiff⟩ :=
    effect_sort hoffers (rfl : Stream.empty.isWritable = true)
  obtain rfl : sorted = ["\n".toList, "a\n".toList, "c\n".toList, "ca\n".toList, ['d']] :=
    (hperm.trans (by decide)).eq_of_pairwise' hsorted (by decide)
  exact ⟨hiff.1 ⟨by decide, by decide⟩, hresult, congrArg Stream.held houtput⟩

/-- A last line without a line feed is merged with the line that is put after it, and a tab is put
before the end of a line. -/
theorem effect_sort_unsortable :
    let effect (text : Text) := (simple (.command .sort [] [])).effect (.ofInput text)
    (effect "b\na".toList).scene.output.held = "ab\n".toList ∧
      ¬(contents "ab\n".toList).Perm (contents "b\na".toList) ∧
      (effect "a\na\t\n".toList).scene.output.held = "a\t\na\n".toList ∧
      ¬(contents "a\t\na\n".toList).Pairwise (· ≤ ·) :=
  ⟨by cbv, by decide, by cbv, by decide⟩

theorem effect_sort_of_gives {w : World} {file? : Option Text} {input output : Stream} {text : Text}
    (hgives : w.Gives file? input text) (houtput : output.isWritable = true) {flags : List Flag}
    {reverse : Bool} (hcheck : Invocation.check .sort ⟨some flags, some file?.toList, true⟩ w =
      .ok (.sort ⟨reverse, file?⟩)) :
    let effect := (simple (.command .sort flags file?.toList)).effect ⟨w, input, output⟩
    effect.result = (if file? = none ∧ text = [] then .error (.complaint .sortNoInput) else .ok 0) ∧
      effect.world = w ∧
      effect.scene.output = output.pour (Sorting.order reverse (lines text)).flatten := by
  intro effect
  by_cases hempty : file? = none ∧ text = []
  · obtain ⟨rfl, rfl⟩ := hempty
    cases hgives
    obtain ⟨input', heffect⟩ : ∃ input', effect = _ := effect_of_writes rfl houtput hcheck
      (Sorting.writes_run_empty w reverse)
    have hnil : Sorting.order reverse (lines []) = [] := (Sorting.perm_order reverse []).eq_nil
    rw [heffect, hnil]
    exact ⟨rfl, rfl, rfl⟩
  · have hoffers : w.Offers file?.toList input text := by
      cases hgives with
      | file h hinput => exact .file h [] hinput
      | input text => exact .input fun hnil => hempty ⟨rfl, hnil⟩
    obtain ⟨input', heffect⟩ : ∃ input', effect = _ := effect_of_writes hoffers.isConnected
      houtput hcheck (Sorting.writes_run hoffers reverse)
    rw [heffect, if_neg hempty]
    exact ⟨rfl, rfl, rfl⟩

/-- `sort` writes the lines of its text in order, and with its flag in the opposite order, which is
the same list from behind. Both times it writes as many characters as it is given. -/
theorem effect_sort_reverse {w : World} {file? : Option Text} {input output : Stream} {text : Text}
    (hgives : w.Gives file? input text) (houtput : output.isWritable = true) {flag : Flag}
    (hflag : flag.name = Sorting.reverseFlag) :
    let effect (flags : List Flag) :=
      (simple (.command .sort flags file?.toList)).effect ⟨w, input, output⟩
    let result := if file? = none ∧ text = [] then .error (.complaint .sortNoInput) else .ok 0
    ∃ forward backward : List Text,
      ((effect []).result = result ∧ (effect []).world = w ∧
        (effect []).scene.output = output.pour forward.flatten) ∧
      ((effect [flag]).result = result ∧ (effect [flag]).world = w ∧
        (effect [flag]).scene.output = output.pour backward.flatten) ∧
      backward = forward.reverse ∧
      (forward.Perm (lines text) ∧ forward.Pairwise (· ≤ ·)) ∧
      (backward.Perm (lines text) ∧ backward.Pairwise (· ≥ ·)) ∧
      forward.flatten.length = text.length ∧ backward.flatten.length = text.length := by
  intro effect result
  have hforward : Invocation.check .sort ⟨some [], some file?.toList, true⟩ w =
      .ok (.sort ⟨false, file?⟩) := by
    cases file? <;> rfl
  have hbackward : Invocation.check .sort ⟨some [flag], some file?.toList, true⟩ w =
      .ok (.sort ⟨true, file?⟩) := by
    have hcheck := Sorting.check_eq [flag] file?.toList
    cases file? <;> simp [hflag] at hcheck <;> simp [Invocation.check, hcheck]
  exact ⟨_, _, effect_sort_of_gives hgives houtput hforward,
    effect_sort_of_gives hgives houtput hbackward, Sorting.order_true _,
    ⟨Sorting.perm_order false _, Sorting.pairwise_order _⟩,
    ⟨Sorting.perm_order true _, Sorting.pairwise_order_true _⟩,
    Sorting.length_flatten_order false text, Sorting.length_flatten_order true text⟩

/-- Lines that occur twice, and one that runs into the next only if the order is not reversed. -/
theorem effect_sort_reverse_repeated :
    let effect (flags : List Flag) :=
      (simple (.command .sort flags [])).effect (.ofInput "b\na\nb\na".toList)
    (effect []).result = .ok 0 ∧ (effect []).scene.output.held = "aa\nb\nb\n".toList ∧
      (effect [⟨['r'], .bool true, []⟩]).result = .ok 0 ∧
      (effect [⟨['r'], .bool true, []⟩]).scene.output.held = "b\nb\na\na".toList := by
  intro effect
  obtain ⟨forward, backward, ⟨hresult, -, houtput⟩, ⟨hresult', -, houtput'⟩, rfl, ⟨hperm, hsorted⟩,
    -⟩ := effect_sort_reverse (w := ⟨.dir [], [], []⟩) (.input "b\na\nb\na".toList)
      (rfl : Stream.empty.isWritable = true) (rfl : (⟨['r'], .bool true, []⟩ : Flag).name = _)
  obtain rfl : forward = [['a'], "a\n".toList, "b\n".toList, "b\n".toList] :=
    (hperm.trans (by decide)).eq_of_pairwise' hsorted (by decide)
  exact ⟨hresult, congrArg Stream.held houtput, hresult', congrArg Stream.held houtput'⟩

end Plan

end CommandShell

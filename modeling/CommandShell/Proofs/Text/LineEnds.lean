import CommandShell.Proofs.Text.Fields
import CommandShell.Text.Lines

/-!
# Lines and their line feeds

A text is its lines one after another. Each of them ends in a line feed, but the last one may lack
it.
-/

namespace CommandShell

open List

namespace Text

/-- What a line holds before its line feed. -/
def content (line : Text) : Text := line.takeWhile (· ≠ '\n')

/-- What the lines of a text hold, without their line feeds. -/
def contents (s : Text) : List Text := (lines s).map content

/-- A line with a line feed at its end. -/
def IsEnded (line : Text) : Prop := ∃ x, '\n' ∉ x ∧ line = x ++ ['\n']

variable {x line : Text}

theorem content_append (h : '\n' ∉ x) (y : Text) : content (x ++ y) = x ++ content y :=
  takeWhile_append_of_pos fun _ hc => decide_eq_true fun hfeed => h (hfeed ▸ hc)

theorem content_of_not_mem (h : '\n' ∉ x) : content x = x := by
  simpa [content] using content_append h []

theorem content_append_feed (h : '\n' ∉ x) : content (x ++ ['\n']) = x := by
  simpa [content] using content_append h ['\n']

theorem feed_not_mem_content (line : Text) : '\n' ∉ content line := fun hmem => by
  simpa using mem_takeWhile_imp hmem

theorem lines_cons_of_ne {c : Char} (h : c ≠ '\n') (s : Text) :
    lines (c :: s) = match lines s with
      | [] => [[c]]
      | line :: later => (c :: line) :: later := by
  rw [lines]
  exact if_neg h

theorem lines_of_not_mem (h : '\n' ∉ x) (hne : x ≠ []) : lines x = [x] := by
  induction x with
  | nil => exact absurd rfl hne
  | cons c x ih =>
    obtain ⟨hc, hx⟩ := not_or.1 (mt mem_cons.2 h)
    rw [lines_cons_of_ne (Ne.symm hc)]
    cases x with
    | nil => rfl
    | cons d x => rw [ih hx (cons_ne_nil d x)]

theorem lines_append_of_isEnded (h : IsEnded line) (s : Text) :
    lines (line ++ s) = line :: lines s := by
  obtain ⟨x, hx, rfl⟩ := h
  induction x with
  | nil => simp [lines]
  | cons c x ih =>
    obtain ⟨hc, hx⟩ := not_or.1 (mt mem_cons.2 hx)
    rw [cons_append, cons_append, lines_cons_of_ne (Ne.symm hc), ih hx]

theorem lines_flatten_append {ended : List Text} (h : ∀ line ∈ ended, IsEnded line) (s : Text) :
    lines (ended.flatten ++ s) = ended ++ lines s := by
  induction ended with
  | nil => rfl
  | cons line ended ih =>
    obtain ⟨hline, hended⟩ := forall_mem_cons.1 h
    rw [flatten_cons, append_assoc, lines_append_of_isEnded hline, ih hended,
      cons_append]

theorem exists_lines (s : Text) : ∃ (ended : List Text) (rest : Text),
    (∀ line ∈ ended, IsEnded line) ∧ '\n' ∉ rest ∧ s = ended.flatten ++ rest := by
  induction s using cut_induction (· = '\n') with
  | solid s h => exact ⟨[], s, by simp, fun hmem => by simpa using h _ hmem, rfl⟩
  | cut a c b ha hc ih =>
    obtain ⟨ended, rest, hended, hrest, rfl⟩ := ih
    obtain rfl : c = '\n' := by simpa using hc
    refine ⟨(a ++ ['\n']) :: ended, rest, ?_, hrest, by simp⟩
    exact forall_mem_cons.2 ⟨⟨a, fun hmem => by simpa using ha _ hmem, rfl⟩, hended⟩

/-- A line, with or without a line feed at its end. -/
def IsLine (line : Text) : Prop := IsEnded line ∨ '\n' ∉ line ∧ line ≠ []

theorem IsLine.lines {line : Text} (h : IsLine line) : Text.lines line = [line] := by
  rcases h with hended | ⟨hfeed, hne⟩
  · simpa [Text.lines] using lines_append_of_isEnded hended []
  · exact lines_of_not_mem hfeed hne

theorem isLine_of_mem_lines {s : Text} (h : line ∈ lines s) : IsLine line := by
  obtain ⟨ended, rest, hended, hrest, rfl⟩ := exists_lines s
  rw [lines_flatten_append hended, mem_append] at h
  rcases h with hmem | hmem
  · exact .inl (hended line hmem)
  · by_cases hne : rest = []
    · rw [hne] at hmem
      cases hmem
    · rw [lines_of_not_mem hrest hne, mem_singleton] at hmem
      exact .inr (hmem ▸ ⟨hrest, hne⟩)

theorem lines_flatten {list : List Text} (hlines : ∀ line ∈ list, IsLine line)
    (hended : ∀ line ∈ list.dropLast, IsEnded line) : lines list.flatten = list := by
  rcases eq_nil_or_concat' list with rfl | ⟨front, last, rfl⟩
  · rfl
  · rw [dropLast_concat] at hended
    rw [flatten_append, flatten_singleton, lines_flatten_append hended,
      (hlines last (by simp)).lines]

/-- A line feed stands at the end of a line, where it is white space. -/
theorem IsLine.feed_not_mem_trim (h : IsLine line) : '\n' ∉ trim line := by
  have hfront : '\n' ∉ line.dropLast := by
    rcases h with ⟨x, hx, rfl⟩ | ⟨hfeed, -⟩
    · rwa [dropLast_concat]
    · exact fun hmem => hfeed (mem_of_mem_dropLast hmem)
  intro hmem
  obtain ⟨a, b, hline, -, -⟩ := exists_append_trim line
  obtain ⟨d, hlast, hd⟩ := (trimmed_trim (ne_nil_of_mem hmem)).last
  obtain ⟨front, htrim⟩ := List.getLast?_eq_some_iff.1 hlast
  rw [htrim, mem_append, mem_singleton] at hmem
  rcases hmem with hmem | rfl
  · rw [hline, htrim, ← append_assoc, append_assoc, singleton_append,
      dropLast_append_of_ne_nil (cons_ne_nil d b)] at hfront
    simp [hmem] at hfront
  · exact absurd hd (by decide)

end Text

end CommandShell

import CommandShell.Text

/-!
# Lines

A line reaches up to and including a line feed; the last line of a text may lack one. Files may
use other line ends, which are turned into line feeds when they are read.
-/

namespace CommandShell

namespace Text

/-- The lines of a text, each with its line feed. -/
def lines : Text → List Text
  | [] => []
  | c :: rest =>
    if c = '\n' then [c] :: lines rest
    else match lines rest with
      | [] => [[c]]
      | line :: later => (c :: line) :: later

/-- Turns carriage returns, with or without a line feed after them, into line feeds. -/
def unifyLineEnds : Text → Text
  | [] => []
  | '\r' :: '\n' :: rest => '\n' :: unifyLineEnds rest
  | '\r' :: rest => '\n' :: unifyLineEnds rest
  | c :: rest => c :: unifyLineEnds rest

/-- A line without the carriage returns and line feeds at its end. -/
def withoutLineEnd (line : Text) : Text := dropEndWhile (fun c => c = '\r' || c = '\n') line

@[simp] theorem flatten_lines (s : Text) : (lines s).flatten = s := by
  induction s with
  | nil => rfl
  | cons c rest ih =>
    rw [lines]
    split
    · simp [ih]
    · cases h : lines rest with
      | nil => rw [h] at ih; simp_all
      | cons line later => rw [h] at ih; simpa using ih

end Text

end CommandShell

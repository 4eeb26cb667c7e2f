import CommandShell.Text.Lines

/-!
# Text in files

Files hold text in UTF-8, with line ends of any kind. A file is decoded as a whole, so a bad byte
anywhere spoils it; only a character that is cut off at the very end is noticed late, after the
lines before it have been handed out.
-/

namespace CommandShell

namespace Content

def ofText (s : Text) : ByteArray := (String.ofList s).toByteArray

def characters? (bytes : ByteArray) : Option Text := bytes.utf8Decode?.map Array.toList

/-- The text of a file, with line feeds as its line ends. -/
def text? (bytes : ByteArray) : Option Text := (characters? bytes).map Text.unifyLineEnds

/-- Bytes that turn a character that was cut off into a whole one, for some character. -/
def completions : List (List UInt8) :=
  [[0x80], [0x80, 0x80], [0x80, 0x80, 0x80], [0xa0, 0x80], [0x90, 0x80, 0x80]]

/-- Whether bytes are the beginning of a character. -/
def isCutOff (bytes : ByteArray) : Bool :=
  completions.any fun more => (characters? (bytes ++ ⟨more.toArray⟩)).isSome

def beforeCutOff? (bytes : ByteArray) : Option Text :=
  [1, 2, 3].findSome? fun count =>
    if count ≤ bytes.size ∧ isCutOff (bytes.extract (bytes.size - count) bytes.size) then
      characters? (bytes.extract 0 (bytes.size - count))
    else none

/-- The lines that can be handed out one by one, and whether the file is spoilt after them. -/
def lines (bytes : ByteArray) : List Text × Bool :=
  match text? bytes with
  | some s => (Text.lines s, false)
  | none =>
    let before := (beforeCutOff? bytes).getD []
    let settled := if before.getLast? = some '\r' then before.dropLast else before
    ((Text.lines (Text.unifyLineEnds settled)).filter (·.getLast? = some '\n'), true)

end Content

end CommandShell

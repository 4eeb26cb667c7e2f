import CommandShell.Text

/-!
# White space

The characters that separate words and are trimmed from the ends of lines: blanks of every
width, tabs, line and page breaks, and the four ASCII information separators.
-/

namespace CommandShell

namespace Text

def isSpace (c : Char) : Bool :=
  let n := c.toNat
  (9 ≤ n && n ≤ 13) || (28 ≤ n && n ≤ 32) || n = 0x85 || n = 0xa0 || n = 0x1680
    || (0x2000 ≤ n && n ≤ 0x200a) || n = 0x2028 || n = 0x2029 || n = 0x202f || n = 0x205f
    || n = 0x3000

def trim (s : Text) : Text := dropEndWhile isSpace (s.dropWhile isSpace)

/-- The maximal runs of characters that are not white space. -/
def words (s : Text) : List Text := (splitWhere isSpace s).filter (· ≠ [])

end Text

end CommandShell

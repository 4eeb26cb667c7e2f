import CommandShell.Text.Category

/-!
# Quotations

How messages quote a text: between quotes, with everything escaped that could not be read back
from the page. Single quotes are used unless the text itself has some and no double ones.
-/

namespace CommandShell

namespace Quotation

def hex (width n : Nat) : Text :=
  (List.range width).reverse.map fun place => Nat.digitChar (n / Nat.pow 16 place % 16)

def escape (c : Char) : Text :=
  let n := c.toNat
  if n < 0x100 then '\\' :: 'x' :: hex 2 n
  else if n < 0x10000 then '\\' :: 'u' :: hex 4 n
  else '\\' :: 'U' :: hex 8 n

def encodeChar (quote c : Char) : Text :=
  if c = quote || c = '\\' then ['\\', c]
  else if c = '\t' then ['\\', 't']
  else if c = '\n' then ['\\', 'n']
  else if c = '\r' then ['\\', 'r']
  else if Text.isPrintable c then [c]
  else escape c

def quoteFor (s : Text) : Char := if s.contains '\'' && !s.contains '"' then '"' else '\''

end Quotation

def Text.quoted (s : Text) : Text :=
  let quote := Quotation.quoteFor s
  quote :: s.flatMap (Quotation.encodeChar quote) ++ [quote]

end CommandShell

import CommandShell.Text.Digit
import CommandShell.Text.Space

/-!
# Reading integers

An integer is written with an optional sign and decimal digits of any script, single underscores
between digits and white space around it. Numbers of more than 4300 digits are refused.
-/

namespace CommandShell

namespace Number

/-- White space around a number; the information separators do not count. -/
def isSpace (c : Char) : Bool := Text.isSpace c && !(28 ≤ c.toNat && c.toNat ≤ 31)

def trim (s : Text) : Text := Text.dropEndWhile isSpace (s.dropWhile isSpace)

/-- The digits of a run in which single underscores may stand between digits. -/
def digits? : Text → Option (List Nat)
  | [] => none
  | [c] => (Digit.value? c).map ([·])
  | c :: '_' :: rest => do
    let d ← Digit.value? c
    let ds ← digits? rest
    return d :: ds
  | c :: rest => do
    let d ← Digit.value? c
    let ds ← digits? rest
    return d :: ds

def ofDigits (digits : List Nat) : Nat := digits.foldl (fun n d => 10 * n + d) 0

/-- Splits off a sign; true stands for a minus. -/
def splitSign : Text → Bool × Text
  | '+' :: rest => (false, rest)
  | '-' :: rest => (true, rest)
  | rest => (false, rest)

/-- The most digits that are read as an integer. -/
def maxDigits : Nat := 4300

end Number

def Int.ofText? (s : Text) : Option Int := do
  let (negative, rest) := Number.splitSign (Number.trim s)
  let digits ← Number.digits? rest
  if digits.length ≤ Number.maxDigits then
    let n := Int.ofNat (Number.ofDigits digits)
    return if negative then -n else n
  else none

end CommandShell

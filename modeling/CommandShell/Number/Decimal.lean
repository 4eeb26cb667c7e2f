import CommandShell.Number.Binary64
import CommandShell.Number.Integer
import CommandShell.Text.Lowercase

/-!
# Reading floating-point numbers

A number is written with an optional sign, digits with at most one point among them, and an
optional exponent; single underscores may stand between digits. The infinities and the
not-a-number are written in words, in any case.
-/

namespace CommandShell

namespace Number

/-- The longest run of digits and underscores at the beginning of a text, and the rest. -/
def spanDigits (s : Text) : Text × Text :=
  s.span fun c => c = '_' || (Digit.value? c).isSome

def digitsOrNone? (run : Text) : Option (List Nat) :=
  if run.isEmpty then some [] else digits? run

/-- The exponent after its mark: a sign and digits. -/
def exponent? (s : Text) : Option Int := do
  let (negative, run) := splitSign s
  let digits ← digits? run
  let n := Int.ofNat (ofDigits digits)
  return if negative then -n else n

def decimal? (negative : Bool) (s : Text) : Option Binary64 := do
  let (wholeRun, rest) := spanDigits s
  let (fractionRun, rest) := match rest with
    | '.' :: rest => spanDigits rest
    | rest => ([], rest)
  let whole ← digitsOrNone? wholeRun
  let fraction ← digitsOrNone? fractionRun
  if whole.isEmpty && fraction.isEmpty then none
  else
    let exponent ← match rest with
      | [] => some 0
      | c :: rest => if c = 'e' || c = 'E' then exponent? rest else none
    return Binary64.ofDecimal negative (ofDigits (whole ++ fraction))
      (exponent - fraction.length)

end Number

def Binary64.ofText? (s : Text) : Option Binary64 :=
  let (negative, rest) := Number.splitSign (Number.trim s)
  let word := String.ofList (rest.map Lowercase.ofChar)
  if rest.all (·.toNat < 0x80) && (word = "inf" || word = "infinity") then some (.infinite negative)
  else if rest.all (·.toNat < 0x80) && word = "nan" then some .nan
  else Number.decimal? negative rest

end CommandShell

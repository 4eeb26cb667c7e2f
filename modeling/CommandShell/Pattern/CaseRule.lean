import CommandShell.Text.Lowercase

/-!
# Case rules

How a pattern compares characters: as they are, without regard to the case of ASCII letters, or
without regard to case at all. In the last comparison characters with the same capital count as
equal even where their lower-case forms differ.
-/

namespace CommandShell

/-- How characters are compared. -/
inductive CaseRule where
  | exact
  | ascii
  | full
deriving DecidableEq, Repr

namespace CaseRule

/-- Lower-case characters with the same capital. -/
def families : List (List Nat) := [
  [0x69, 0x131], [0x73, 0x17f], [0xb5, 0x3bc], [0x345, 0x3b9, 0x1fbe], [0x390, 0x1fd3],
  [0x3b0, 0x1fe3], [0x3b2, 0x3d0], [0x3b5, 0x3f5], [0x3b8, 0x3d1], [0x3ba, 0x3f0], [0x3c0, 0x3d6],
  [0x3c1, 0x3f1], [0x3c2, 0x3c3], [0x3c6, 0x3d5], [0x432, 0x1c80], [0x434, 0x1c81],
  [0x43e, 0x1c82], [0x441, 0x1c83], [0x442, 0x1c84, 0x1c85], [0x44a, 0x1c86], [0x463, 0x1c87],
  [0x1c88, 0xa64b], [0x1e61, 0x1e9b], [0xfb05, 0xfb06]]

/-- A lower-case character and those with the same capital. -/
def kin (code : Nat) : List Nat := (families.find? (·.contains code)).getD [code]

def lowerAscii (code : Nat) : Nat := if 0x41 ≤ code && code ≤ 0x5a then code + 32 else code

def lower : CaseRule → Nat → Nat
  | exact, code => code
  | ascii, code => lowerAscii code
  | full, code => Lowercase.ofCode code

/-- Whether a character of a text is the one that a pattern asks for. -/
def same (rule : CaseRule) (asked found : Nat) : Bool :=
  match rule with
  | full => (kin (rule.lower asked)).contains (rule.lower found)
  | _ => rule.lower asked = rule.lower found

/-- Whether a character of a text is in a range that a pattern asks for. -/
def within (rule : CaseRule) (first last found : Nat) : Bool :=
  let holds (code : Nat) : Bool := first ≤ code && code ≤ last
  let code := rule.lower found
  match rule with
  | exact => holds code
  | ascii => holds code || (0x61 ≤ code && code ≤ 0x7a && holds (code - 32))
  | full => (kin code).any fun code => (Lowercase.sources code).any holds

end CaseRule

end CommandShell

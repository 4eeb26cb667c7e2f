/-!
# Text

The shell reads, compares and writes lists of characters. Working on lists keeps every
definition about text open to induction.
-/

namespace CommandShell

/-- A piece of text: its characters in order. -/
abbrev Text := List Char

namespace Text

/-- Text in code-point order: by the first character that differs, a proper beginning first. -/
def le (s t : Text) : Bool := !List.lex t s fun c d => decide (c < d)

/-- Cuts a text at every character for which `isSeparator` holds; there is always one more piece
than separators. -/
def splitWhere (isSeparator : Char → Bool) : Text → List Text
  | [] => [[]]
  | c :: rest =>
    if isSeparator c then [] :: splitWhere isSeparator rest
    else match splitWhere isSeparator rest with
      | [] => [[c]]
      | piece :: pieces => (c :: piece) :: pieces

def splitAt (separator : Char) : Text → List Text := splitWhere (· = separator)

def join (separator : Text) : List Text → Text
  | [] => []
  | [piece] => piece
  | piece :: pieces => piece ++ separator ++ join separator pieces

/-- Replaces the two characters `a b` by `c`, scanning once from the left. -/
def replacePair (a b c : Char) : Text → Text
  | x :: y :: rest =>
    if x = a ∧ y = b then c :: replacePair a b c rest
    else x :: replacePair a b c (y :: rest)
  | rest => rest

def replaceChar (a : Char) (t : Text) (s : Text) : Text :=
  s.flatMap fun c => if c = a then t else [c]

def dropEndWhile (p : Char → Bool) (s : Text) : Text := (s.reverse.dropWhile p).reverse

def ofNat (n : Nat) : Text := Nat.toDigits 10 n

def ofInt : Int → Text
  | .ofNat n => ofNat n
  | .negSucc n => '-' :: ofNat (n + 1)

def byteLength (s : Text) : Nat := s.foldr (fun c n => c.utf8Size + n) 0

/-- The truth values as the shell writes them. -/
def ofBool (b : Bool) : Text := (if b then "True" else "False").toList

end Text

end CommandShell

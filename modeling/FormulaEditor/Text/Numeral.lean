import FormulaEditor.Text.Blank

/-!
# Whole numbers in text

Offsets and counts are read from an optional sign and ASCII digits, and refused outside a range.
Offsets fit into thirty-two bits with a sign, counts into sixty-four without one.
-/

namespace FormulaEditor.Text.Numeral

/-- The value of a digit string, most significant digit first. -/
def value (digits : List Char) : Nat :=
  digits.foldl (fun n c => 10 * n + (c.toNat - '0'.toNat)) 0

/-- Reads a non-empty string of digits. -/
def digits? (text : List Char) : Option Nat :=
  if !text.isEmpty && text.all isDigit then some (value text) else none

/-- Reads digits with at most one sign before them. -/
def signed? : List Char → Option Int
  | '+' :: rest => (digits? rest).map Int.ofNat
  | '-' :: rest => (digits? rest).map fun n => -Int.ofNat n
  | text => (digits? text).map Int.ofNat

/-- Reads an offset: a whole number of thirty-two bits. -/
def offset? (text : List Char) : Option Int :=
  (signed? text).filter fun n => -Int.pow 2 31 ≤ n && n < Int.pow 2 31

/-- Reads a count: a natural number of sixty-four bits, where a plus sign is allowed. -/
def count? (text : List Char) : Option Nat :=
  let digits := match text with
    | '+' :: rest => rest
    | _ => text
  (digits? digits).filter fun n => n < Nat.pow 2 64

/-- Writes a whole number in decimal. -/
def write : Int → List Char
  | .ofNat n => Nat.toDigits 10 n
  | .negSucc n => '-' :: Nat.toDigits 10 (n + 1)

end FormulaEditor.Text.Numeral

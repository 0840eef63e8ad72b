/-!
# Decimals with a fixed number of places

A finite double is `m * 2^e` for integers `m` and `e`. It is written with a given number of decimal
places by rounding that exact value, a tie going to the even neighbour. The sign is that of the
double, so a negative zero and a negative number that rounds to zero keep theirs.
-/

namespace FormulaEditor.Text.Decimal

/-- The quotient rounded to the nearest integer, ties to even. -/
def roundDiv (num den : Nat) : Nat :=
  let q := num / den
  let r := num % den
  if den < 2 * r then q + 1
  else if 2 * r = den then q + q % 2
  else q

/-- A finite double as a sign and an exact magnitude `mantissa * 2^(exponent - 1074)`. -/
structure Parts where
  negative : Bool
  mantissa : Nat
  exponent : Nat

/-- What the sixty-four bits of a double stand for. -/
inductive Reading where
  | finite (parts : Parts)
  | infinite (negative : Bool)
  | notANumber

/-- Takes the bits of a double apart: sign, eleven bits of exponent, fifty-two of fraction. -/
def read (x : Float) : Reading :=
  let bits := x.toBits.toNat
  let negative := bits / Nat.pow 2 63 == 1
  let exponent := bits / Nat.pow 2 52 % Nat.pow 2 11
  let fraction := bits % Nat.pow 2 52
  if exponent = 2047 then
    if fraction = 0 then .infinite negative else .notANumber
  else if exponent = 0 then .finite ⟨negative, fraction, 0⟩
  else .finite ⟨negative, Nat.pow 2 52 + fraction, exponent - 1⟩

/-- The magnitude in units of the last of `places` decimal places. -/
def Parts.units (p : Parts) (places : Nat) : Nat :=
  roundDiv (p.mantissa * Nat.pow 10 places * Nat.pow 2 p.exponent) (Nat.pow 2 1074)

/-- Writes a number of units of the last place with a decimal point. -/
def point (units places : Nat) : String :=
  let digits := Nat.toDigits 10 (units % Nat.pow 10 places)
  let fraction := List.replicate (places - digits.length) '0' ++ digits
  toString (units / Nat.pow 10 places) ++ "." ++ String.ofList fraction

/-- A double with `places` decimal places; `plus` writes the sign of a positive number too. -/
def write (plus : Bool) (places : Nat) (x : Float) : String :=
  let sign (negative : Bool) := if negative then "-" else if plus then "+" else ""
  match read x with
  | .finite p => sign p.negative ++ point (p.units places) places
  | .infinite negative => sign negative ++ "inf"
  | .notANumber => "NaN"

theorem roundDiv_mul (k : Nat) {den : Nat} (h : 0 < den) : roundDiv (k * den) den = k := by
  have hr : k * den % den = 0 := Nat.mul_mod_left k den
  simp [roundDiv, hr, Nat.mul_div_cancel k h]
  omega

theorem roundDiv_within_half {num den : Nat} (h : 0 < den) :
    2 * (roundDiv num den * den) ≤ 2 * num + den ∧
      2 * num ≤ 2 * (roundDiv num den * den) + den := by
  have hlt := Nat.mod_lt num h
  have hsplit := Nat.div_add_mod num den
  have hcomm : den * (num / den) = num / den * den := Nat.mul_comm _ _
  unfold roundDiv
  simp only
  split
  · rw [Nat.add_mul]; omega
  · split
    · have hq : num / den % 2 = 0 ∨ num / den % 2 = 1 := by omega
      rcases hq with hq | hq <;> rw [hq, Nat.add_mul] <;> omega
    · omega

end FormulaEditor.Text.Decimal

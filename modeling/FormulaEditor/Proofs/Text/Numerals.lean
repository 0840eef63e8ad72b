import FormulaEditor.Text.Numeral

/-!
# Numerals

A whole number has many texts: zeros may stand before its digits, and a sign before these. Each of
them is read as the number and no other text is, and the text that is written is one of them.
-/

namespace FormulaEditor.Text.Numeral

/-- Whether a text is that of a natural number: ASCII digits, and at least one of them. -/
def IsDigits (text : List Char) : Prop :=
  text ≠ [] ∧ ∀ c ∈ text, c.isDigit = true

/-- The texts of a whole number: digits with at most one sign before them. -/
inductive IsNumeral : Int → List Char → Prop where
  | unsigned {digits : List Char} : IsDigits digits →
      IsNumeral (Nat.ofDigitChars 10 digits 0) digits
  | plus {digits : List Char} : IsDigits digits →
      IsNumeral (Nat.ofDigitChars 10 digits 0) ('+' :: digits)
  | minus {digits : List Char} : IsDigits digits →
      IsNumeral (-Nat.ofDigitChars 10 digits 0) ('-' :: digits)

variable {text : List Char} {n : Int}

/-! ## Reading -/

theorem digits?_eq_some_iff {k : Nat} :
    digits? text = some k ↔ IsDigits text ∧ Nat.ofDigitChars 10 text 0 = k := by
  have hall : text.all isDigit = true ↔ ∀ c ∈ text, c.isDigit = true := List.all_eq_true
  rw [digits?, Option.ite_none_right_eq_some, Bool.and_eq_true, Bool.not_eq_true',
    List.isEmpty_eq_false_iff, hall, Option.some.injEq]
  rfl

theorem map_digits?_eq_some_iff {f : Nat → Int} :
    (digits? text).map f = some n ↔ IsDigits text ∧ f (Nat.ofDigitChars 10 text 0) = n := by
  rw [Option.map_eq_some_iff]
  constructor
  · rintro ⟨k, hk, hf⟩
    obtain ⟨hdigits, rfl⟩ := digits?_eq_some_iff.1 hk
    exact ⟨hdigits, hf⟩
  · rintro ⟨hdigits, hf⟩
    exact ⟨_, digits?_eq_some_iff.2 ⟨hdigits, rfl⟩, hf⟩

/-- A digit is no sign, so a text that starts with one is read as it is. -/
theorem signed?_of_isDigits (h : IsDigits text) : signed? text = (digits? text).map Int.ofNat := by
  cases text with
  | nil => exact absurd rfl h.1
  | cons c rest =>
      have hdigit : c.isDigit = true := h.2 c List.mem_cons_self
      have hplus : c ≠ '+' := by
        rintro rfl
        exact absurd hdigit (by decide)
      have hminus : c ≠ '-' := by
        rintro rfl
        exact absurd hdigit (by decide)
      unfold signed?
      split
      · rename_i heq
        exact absurd (List.cons.inj heq).1 hplus
      · rename_i heq
        exact absurd (List.cons.inj heq).1 hminus
      · rfl

theorem isNumeral_of_signed? (h : signed? text = some n) : IsNumeral n text := by
  unfold signed? at h
  split at h
  · obtain ⟨hdigits, rfl⟩ := map_digits?_eq_some_iff.1 h
    exact .plus hdigits
  · obtain ⟨hdigits, rfl⟩ := map_digits?_eq_some_iff.1 h
    exact .minus hdigits
  · obtain ⟨hdigits, rfl⟩ := map_digits?_eq_some_iff.1 h
    exact .unsigned hdigits

theorem IsNumeral.signed? (h : IsNumeral n text) : signed? text = some n := by
  cases h with
  | unsigned hdigits =>
      rw [signed?_of_isDigits hdigits]
      exact map_digits?_eq_some_iff.2 ⟨hdigits, rfl⟩
  | plus hdigits => exact map_digits?_eq_some_iff.2 ⟨hdigits, rfl⟩
  | minus hdigits => exact map_digits?_eq_some_iff.2 ⟨hdigits, rfl⟩

/-- An offset is read from exactly the numerals of a number of thirty-two bits. -/
theorem offset?_eq_some_iff :
    offset? text = some n ↔ IsNumeral n text ∧ -Int.pow 2 31 ≤ n ∧ n < Int.pow 2 31 := by
  have hsigned : signed? text = some n ↔ IsNumeral n text := ⟨isNumeral_of_signed?, IsNumeral.signed?⟩
  rw [offset?, Option.filter_eq_some_iff, hsigned, Bool.and_eq_true, decide_eq_true_iff,
    decide_eq_true_iff]

/-! ## Writing -/

theorem isDigits_toDigits (k : Nat) : IsDigits (Nat.toDigits 10 k) := by
  constructor
  · exact Nat.toDigits_ne_nil
  · intro c hc
    exact Nat.isDigit_of_mem_toDigits (by decide) (by decide) hc

theorem isNumeral_write (n : Int) : IsNumeral n (write n) := by
  cases n with
  | ofNat k =>
      have h := IsNumeral.unsigned (isDigits_toDigits k)
      rwa [Nat.ofDigitChars_ten_toDigits] at h
  | negSucc k =>
      have h := IsNumeral.minus (isDigits_toDigits (k + 1))
      rwa [Nat.ofDigitChars_ten_toDigits] at h

theorem IsNumeral.digit_or_sign (h : IsNumeral n text) :
    ∀ c ∈ text, c = '+' ∨ c = '-' ∨ c.isDigit = true := by
  intro c hc
  cases h with
  | unsigned hdigits => exact .inr (.inr (hdigits.2 c hc))
  | plus hdigits =>
      cases hc with
      | head => exact .inl rfl
      | tail _ hc => exact .inr (.inr (hdigits.2 c hc))
  | minus hdigits =>
      cases hc with
      | head => exact .inr (.inl rfl)
      | tail _ hc => exact .inr (.inr (hdigits.2 c hc))

end FormulaEditor.Text.Numeral

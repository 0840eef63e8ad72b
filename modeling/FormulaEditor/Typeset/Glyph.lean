/-!
# Glyph measures

The height, depth and width of characters in ems of the base size. The values follow Computer
Modern, with one measure for characters of one build.
-/

namespace FormulaEditor.Typeset

/-- The extent of a glyph above and below the baseline, and its advance. -/
structure Measure where
  height : Float
  depth : Float
  width : Float

namespace Measure

/-- The measure at another size. -/
def scaled (m : Measure) (k : Float) : Measure :=
  ⟨m.height * k, m.depth * k, m.width * k⟩

/-- Digits. -/
def digit : Measure :=
  ⟨0.644, 0.0, 0.5⟩

/-- Upper-case letters. -/
def upper : Measure :=
  ⟨0.683, 0.0, 0.75⟩

/-- Binary operators. -/
def binaryOperator : Measure :=
  ⟨0.583, 0.083, 0.778⟩

/-- Relations. -/
def relation : Measure :=
  ⟨0.54, 0.04, 0.778⟩

/-- Delimiters. -/
def fence : Measure :=
  ⟨0.75, 0.25, 0.389⟩

/-- Large operators. -/
def largeOperator : Measure :=
  ⟨0.75, 0.25, 1.0⟩

/-- Integral signs. -/
def integral : Measure :=
  ⟨0.805, 0.306, 0.417⟩

/-- Accent marks, with the space below the mark. -/
def accentMark : Measure :=
  ⟨0.694, 0.0, 0.5⟩

/-- The box of a placeholder. -/
def placeholder : Measure :=
  ⟨0.6, 0.0, 0.55⟩

/-- All other characters. -/
def other : Measure :=
  ⟨0.7, 0.2, 0.6⟩

/-- Whether a character is in a list of characters. -/
private def isOneOf (chars : String) (c : Char) : Bool :=
  chars.toList.contains c

/-- The measure of a character. The first rule that applies decides. -/
def ofChar (c : Char) : Measure :=
  if ('0' ≤ c && c ≤ '9') then digit
  else if isOneOf "bdfhklt" c then ⟨0.694, 0.0, 0.5⟩
  else if isOneOf "gpqy" c then ⟨0.431, 0.194, 0.5⟩
  else if isOneOf "j" c then ⟨0.66, 0.194, 0.35⟩
  else if isOneOf "i" c then ⟨0.66, 0.0, 0.35⟩
  else if isOneOf "mw" c then ⟨0.431, 0.0, 0.75⟩
  else if ('a' ≤ c && c ≤ 'z') then ⟨0.431, 0.0, 0.5⟩
  else if isOneOf "Q" c then ⟨0.683, 0.194, 0.778⟩
  else if ('A' ≤ c && c ≤ 'Z') then upper
  else if isOneOf "βζξ" c then ⟨0.694, 0.194, 0.6⟩
  else if isOneOf "δθλϑℓ∂" c then ⟨0.694, 0.0, 0.6⟩
  else if isOneOf "γημρφϕχψϱ" c then ⟨0.431, 0.194, 0.6⟩
  else if ('α' ≤ c && c ≤ 'ω') || isOneOf "ϵϖ" c then ⟨0.431, 0.0, 0.6⟩
  else if ('Α' ≤ c && c ≤ 'Ω') then upper
  else if isOneOf "+-−×÷±∓·⋅∘∗∪∩∧∨⊕⊗" c then binaryOperator
  else if isOneOf "=≡≈∼≃≅" c then ⟨0.367, 0.0, 0.778⟩
  else if isOneOf "<>≤≥≠≪≫∈∉∋⊂⊃⊆⊇∝∣∥⊥" c then relation
  else if isOneOf "→←↔⇒⇐⇔↦↑↓" c then ⟨0.511, 0.011, 1.0⟩
  else if isOneOf "()[]\x7b\x7d⟨⟩⌊⌋⌈⌉" c then fence
  else if isOneOf "|‖" c then ⟨0.75, 0.25, 0.278⟩
  else if isOneOf ",;" c then ⟨0.431, 0.194, 0.278⟩
  else if isOneOf "." c then ⟨0.12, 0.0, 0.278⟩
  else if isOneOf ":" c then ⟨0.431, 0.0, 0.278⟩
  else if isOneOf "!?" c then ⟨0.694, 0.0, 0.278⟩
  else if isOneOf "/\\" c then fence
  else if isOneOf "∑∏∐⋃⋂⨁⨂" c then largeOperator
  else if isOneOf "∫∬∭∮" c then integral
  else if isOneOf "∞" c then ⟨0.431, 0.0, 1.0⟩
  else if isOneOf "∅∇∀∃¬" c then ⟨0.694, 0.0, 0.556⟩
  else if isOneOf "′" c then ⟨0.56, 0.0, 0.275⟩
  else if isOneOf "…⋯" c then ⟨0.31, 0.0, 1.172⟩
  else if isOneOf "ˆ˜¯˙¨˘ˇ´\x60\u20d7" c then accentMark
  else if isOneOf " " c then ⟨0.0, 0.0, 0.25⟩
  else other

end Measure

/-- The advance of the sign of a radical. -/
def radicalSignWidth : Float :=
  0.833

/-- The sign of a radical. -/
def radicalSign : Char :=
  '√'

/-- The glyph of a placeholder. -/
def placeholderGlyph : Char :=
  '⬚'

/-- Whether a character is an operator that grows in display style. -/
def isLargeOperator (c : Char) : Bool :=
  "∑∏∐⋃⋂⨁⨂∫∬∭∮".toList.contains c

/-- The width of a spacing command in math units, of which an em has eighteen. -/
def spaceUnits : String → Float
  | "\\," | "\\thinspace" => 3.0
  | "\\:" | "\\>" | "\\medspace" => 4.0
  | "\\;" | "\\thickspace" => 5.0
  | "\\!" | "\\negthinspace" => -3.0
  | "\\ " | "~" => 6.0
  | "\\quad" => 18.0
  | "\\qquad" => 36.0
  | _ => 0.0

end FormulaEditor.Typeset

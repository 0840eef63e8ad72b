import FormulaEditor.Text.Unprintable

/-!
# Quoted characters and strings

Characters in messages and listings are written so that every one of them can be seen: the usual
backslash escapes, and the code point in hexadecimal for what would not be visible.
-/

namespace FormulaEditor.Text.Quoted

/-- The single quote. -/
def singleQuote : Char := Char.ofNat 39

/-- A number in lower-case hexadecimal. -/
def hexadecimal (n : Nat) : List Char :=
  Nat.toDigits 16 n

/-- A code point as a braced escape. -/
def codePoint (c : Char) : List Char :=
  ['\\', 'u', Char.ofNat 0x7b] ++ hexadecimal c.toNat ++ [Char.ofNat 0x7d]

/-- Which of the two quotes need a backslash. -/
structure Style where
  single : Bool
  double : Bool

/-- Inside single quotes only the single quote is escaped. -/
def inSingle : Style := ⟨true, false⟩

/-- Inside double quotes only the double quote is escaped. -/
def inDouble : Style := ⟨false, true⟩

/-- Outside a quotation of known kind both quotes are escaped. -/
def inEither : Style := ⟨true, true⟩

/-- One character with its escape, if it needs one. -/
def escape (style : Style) (c : Char) : List Char :=
  if c.toNat = 0 then ['\\', '0']
  else if c = '\t' then ['\\', 't']
  else if c = '\r' then ['\\', 'r']
  else if c = '\n' then ['\\', 'n']
  else if c = '\\' then ['\\', '\\']
  else if c = '"' && style.double then ['\\', '"']
  else if c = singleQuote && style.single then ['\\', singleQuote]
  else if isCombining c || isInvisible c then codePoint c
  else [c]

/-- A character in single quotes. -/
def character (c : Char) : String :=
  String.ofList (singleQuote :: escape inSingle c ++ [singleQuote])

/-- A string in double quotes. -/
def string (s : String) : String :=
  String.ofList ('"' :: s.toList.flatMap (escape inDouble) ++ ['"'])

/-- A character as it stands in a message that puts its own quotes around it. -/
def bare (c : Char) : String :=
  String.ofList (escape inEither c)

end FormulaEditor.Text.Quoted

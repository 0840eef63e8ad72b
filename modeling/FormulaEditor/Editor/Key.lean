import FormulaEditor.Text.Quoted
import FormulaEditor.Text.Split

/-!
# Keys

Typed input is a sequence of keys: characters, and named keys such as an arrow. In the text of a key
sequence a named key stands in braces, and a doubled brace types one.
-/

namespace FormulaEditor

/-- One key. -/
inductive Key where
  | char (c : Char)
  | named (name : List Char)
  deriving DecidableEq, Repr

namespace Key

/-- The brace that opens the name of a key. -/
def openBrace : Char :=
  Char.ofNat 0x7b

/-- The brace that closes the name of a key. -/
def closeBrace : Char :=
  Char.ofNat 0x7d

/-- The name of a named key as text. -/
def nameText (name : List Char) : String :=
  String.ofList name

/-- How a key is shown in a message. -/
def listing : Key → String
  | char c => "Char(" ++ Text.Quoted.character c ++ ")"
  | named name => "Named(" ++ Text.Quoted.string (nameText name) ++ ")"

/-- Reads the keys of a text. An opening brace that is never closed is a character. -/
def read : List Char → List Key
  | [] => []
  | c :: rest =>
      if (c = openBrace || c = closeBrace) && rest.head? == some c then
        char c :: read rest.tail
      else if c = openBrace then
        match _hcut : Text.cutAtFirst? closeBrace rest with
        | some (name, after) => named name :: read after
        | none => char c :: read rest
      else char c :: read rest
termination_by text => text.length
decreasing_by
  · simp only [List.length_tail, List.length_cons]
    omega
  · have hlen := Text.length_of_cutAtFirst? _hcut
    simp only [List.length_cons]
    omega
  · simp
  · simp

/-- Writes a key the way it is read. -/
def write : Key → List Char
  | char c => if c = openBrace || c = closeBrace then [c, c] else [c]
  | named name => openBrace :: name ++ [closeBrace]

end Key

end FormulaEditor

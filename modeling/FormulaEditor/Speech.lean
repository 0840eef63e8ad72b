import FormulaEditor.Formula.Atom
import FormulaEditor.Latex.Vocabulary
import FormulaEditor.Text.Blank

/-!
# Speech

A formula is read out in words. Each atom gives utterances, which are then joined: words with spaces
between them, and endings that stick to the word before. Digits in a row are one number, which a
digit with scripts ends.
-/

namespace FormulaEditor

/-- A part of speech. -/
inductive Utterance where
  /-- A word or several; blanks around it are dropped, and so is a word without characters. -/
  | word (text : List Char)
  /-- An ending that is glued to what was said before. -/
  | ending (text : List Char)
  deriving DecidableEq, Repr

namespace Speech

/-- The digits in words. -/
def digitNames : List String :=
  ["zero", "one", "two", "three", "four", "five", "six", "seven", "eight", "nine"]

/-- The ordinals of the digits. -/
def ordinals : List String :=
  ["zeroth", "first", "second", "third", "fourth", "fifth", "sixth", "seventh", "eighth", "ninth"]

/-- The name of a literal character, if it is not read as itself. -/
def charName? : Char → Option String
  | '+' => "plus"
  | '-' | '−' => "minus"
  | '=' => "equals"
  | '<' => "is less than"
  | '>' => "is greater than"
  | '*' | '∗' => "times"
  | '/' => "divided by"
  | '(' => "open paren"
  | ')' => "close paren"
  | '[' => "open bracket"
  | ']' => "close bracket"
  | '|' => "vertical bar"
  | ',' => "comma"
  | ';' => "semicolon"
  | ':' => "colon"
  | '!' => "factorial"
  | '?' => "question mark"
  | '.' => "point"
  | _ => none

/-- Says fixed words. -/
def say (s : String) : Utterance :=
  .word s.toList

/-- The digit that an atom stands for. -/
def digit? (label : Label) : Option Char :=
  if label.kind = .ordinary then
    match (label.value.getD "").toList with
    | [c] => if Text.isDigit c then some c else none
    | _ => none
  else none

/-- The value of a digit. -/
def digitValue (c : Char) : Nat :=
  c.toNat - '0'.toNat

/-- A number: a single digit has a name, others are said digit by digit as they stand. -/
def number : List Char → List Utterance
  | [] => []
  | [c] => [say (digitNames.getD (digitValue c) "")]
  | digits => [.word digits]

/-- The spoken name of a command, if it has a meaning. -/
def note? (value : List Char) : Option String :=
  match value with
  | '\\' :: name => (Latex.Vocabulary.find? (String.ofList name)).map Latex.Meaning.note
  | _ => none

/-- A leaf by the name of its command or character, or as it stands. -/
def leaf (value : List Char) : Utterance :=
  match note? value with
  | some note => say note
  | none =>
      match value with
      | [c] => ((charName? c).map say).getD (.word value)
      | _ => .word value

/-- Whether a script is the given single character, so that it has a name of its own. -/
def isPower (text : String) : List Atom → Bool
  | [a] => a.isLeaf && a.value == some text
  | _ => false

/-- The value of an index that is a single digit without scripts. -/
def indexDigit? : List Atom → Option Char
  | [a] => if a.isLeaf then digit? a.label else none
  | _ => none

mutual

/-- What is said for an atom. -/
def atom : Atom → List Utterance
  | .node label ⟨body, sup, sub, numerator, denominator, index, radicand⟩ =>
      let value := (label.value.getD "").toList
      let nucleus := match label.kind with
        | .command | .space => []
        | .placeholder => [say "placeholder"]
        | .unknownCommand => [say "unknown command", .word (value.dropWhile (· == '\\'))]
        | .fraction =>
            say "the fraction" :: branch numerator ++ [say "over"] ++ branch denominator ++
              [say "end fraction"]
        | .radical => root index ++ branch radicand
        | .accent => branch body ++ [say ((note? value).getD "accent")]
        | .font => ((note? value).map say).toList ++ branch body
        | .text => [.word ((body.getD []).flatMap fun a => (a.value.getD "").toList)]
        | .array => [say "the", .word value] ++ rows 1 body ++ [say "end", .word value]
        | .root | .group | .row | .cell => branch body
        | _ => [leaf value]
      nucleus ++ subscript sub ++ superscript sup

/-- What is said for a branch. -/
def branch : Option (List Atom) → List Utterance
  | none => []
  | some atoms => sequence [] atoms

/-- What is said for a sequence after digits that are part of a number. -/
def sequence (digits : List Char) : List Atom → List Utterance
  | [] => number digits
  | .node label ⟨body, sup, sub, numerator, denominator, index, radicand⟩ :: rest =>
      match digit? label with
      | some c =>
          if sup.isNone && sub.isNone then sequence (digits ++ [c]) rest
          else number (digits ++ [c]) ++ subscript sub ++ superscript sup ++ sequence [] rest
      | none =>
          number digits ++
            atom (.node label ⟨body, sup, sub, numerator, denominator, index, radicand⟩) ++
            sequence [] rest

/-- What is said for a subscript. -/
def subscript : Option (List Atom) → List Utterance
  | none => []
  | some atoms => say "sub" :: sequence [] atoms

/-- What is said for a superscript: the square and the cube have names. -/
def superscript : Option (List Atom) → List Utterance
  | none => []
  | some atoms =>
      if isPower "2" atoms then [say "squared"]
      else if isPower "3" atoms then [say "cubed"]
      else say "to the power of" :: sequence [] atoms ++ [say "end exponent"]

/-- What is said for the sign of a radical: an index that is a digit has a name. -/
def root : Option (List Atom) → List Utterance
  | none => [say "the square root of"]
  | some atoms =>
      let index := match indexDigit? atoms with
        | some c => [say (ordinals.getD (digitValue c) "")]
        | none => sequence [] atoms ++ [.ending "-th".toList]
      say "the" :: index ++ [say "root of"]

/-- What is said for the rows of an array, from the given number on. -/
def rows (n : Nat) : Option (List Atom) → List Utterance
  | none => []
  | some atoms => rowList n atoms

/-- What is said for a list of rows. -/
def rowList (n : Nat) : List Atom → List Utterance
  | [] => []
  | .node _ ⟨cells, _, _, _, _, _, _⟩ :: rest =>
      say ("row " ++ toString n) :: row cells ++ rowList (n + 1) rest

/-- What is said for the cells of a row. -/
def row : Option (List Atom) → List Utterance
  | none => []
  | some cells => cellList true cells

/-- What is said for a list of cells, with a comma before all but the first. -/
def cellList (first : Bool) : List Atom → List Utterance
  | [] => []
  | .node _ ⟨content, _, _, _, _, _, _⟩ :: rest =>
      (if first then [] else [.ending [',']]) ++ branch content ++ cellList false rest

end

/-- Appends an utterance to what was said. -/
def join (said : List Char) : Utterance → List Char
  | .ending text => said ++ text
  | .word text =>
      let text := Text.trim text
      if text.isEmpty then said
      else if said.isEmpty then text
      else said ++ ' ' :: text

/-- What is said for utterances one after the other. -/
def joinAll (utterances : List Utterance) : List Char :=
  utterances.foldl join []

end Speech

/-- A sequence of atoms in words. -/
def speak (atoms : List Atom) : String :=
  String.ofList (Speech.joinAll (Speech.sequence [] atoms))

end FormulaEditor

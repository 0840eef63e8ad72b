import FormulaEditor.Formula.Atom
import FormulaEditor.Text.Blank

/-!
# Writing formulas

A formula is written in a normal form: arguments and scripts always have braces, a subscript comes
before a superscript, and characters with a special meaning are escaped. Characters of a command
that is being typed are not written.

Writing has two steps. An atom gives pieces of text, which depend on nothing but the atom. The
pieces are then put together; a piece that starts with a letter is kept apart by a space from a
control word before it.
-/

namespace FormulaEditor.Latex

/-- A piece of written text. -/
inductive Piece where
  /-- Text that is written as it stands. -/
  | exact (text : List Char)
  /-- Text that may not run into a control word before it. -/
  | word (text : List Char)
  deriving DecidableEq, Repr

namespace Writer

/-- Whether a text, given from its end, ends with a control word: with letters after an odd number
of backslashes. An even number of backslashes is a sequence of row separators. -/
def endsWithControlWord (reversed : List Char) : Bool :=
  let letters := reversed.takeWhile Text.isLetter
  let backslashes := (reversed.dropWhile Text.isLetter).takeWhile (· == '\\')
  !letters.isEmpty && backslashes.length % 2 == 1

/-- Whether a text starts with a letter. -/
def startsWithLetter : List Char → Bool
  | [] => false
  | c :: _ => Text.isLetter c

/-- Appends a piece to a text, which is given from its end. -/
def append (reversed : List Char) : Piece → List Char
  | .exact text => text.reverse ++ reversed
  | .word text =>
      if startsWithLetter text && endsWithControlWord reversed then
        text.reverse ++ ' ' :: reversed
      else text.reverse ++ reversed

/-- Puts pieces together. -/
def assemble (pieces : List Piece) : List Char :=
  (pieces.foldl append []).reverse

/-- A character as it stands. -/
def mark (c : Char) : Piece :=
  .exact [c]

/-- Pieces between braces. -/
def braced (pieces : List Piece) : List Piece :=
  mark '{' :: pieces ++ [mark '}']

/-- The characters that are written with a backslash. -/
def special : List Char :=
  ['#', '$', '%', '&', '_', '{', '}']

/-- The spelling of a leaf. -/
def escaped (value : List Char) : Piece :=
  match value with
  | [c] => if special.contains c then .exact ['\\', c] else .word [c]
  | _ => .word value

/-- A command with the name of an environment. -/
def environmentMark (command : String) (name : List Char) : Piece :=
  .exact (command.toList ++ '{' :: name ++ ['}'])

/-- Whether the index of a radical is written in braces: a closing bracket would end it early, and a
lone group would lose its braces. -/
def needsBraces (index : List Atom) : Bool :=
  (match index with
    | [a] => a.isBareGroup
    | _ => false) ||
    index.any fun a => a.value == some "]"

mutual

/-- The pieces of an atom. -/
def pieces : Atom → List Piece
  | .node label ⟨body, sup, sub, numerator, denominator, index, radicand⟩ =>
      let value := (label.value.getD "").toList
      let nucleus := match label.kind with
        | .root | .row | .cell => branchPieces body
        | .group => braced (branchPieces body)
        | .command => []
        | .placeholder => [.word "\\placeholder\x7b\x7d".toList]
        | .fraction =>
            .word value :: braced (branchPieces numerator) ++ braced (branchPieces denominator)
        | .radical =>
            .word Atom.radicalCommand.toList :: indexPieces index ++ braced (branchPieces radicand)
        | .array =>
            environmentMark "\\begin" value :: arrayPieces body ++ [environmentMark "\\end" value]
        | .accent | .font | .text => .word value :: braced (branchPieces body)
        | _ => [escaped value]
      nucleus ++ scriptPieces '_' sub ++ scriptPieces '^' sup

/-- The pieces of a branch, none if it is absent. -/
def branchPieces : Option (List Atom) → List Piece
  | none => []
  | some atoms => listPieces atoms

/-- The pieces of a sequence. -/
def listPieces : List Atom → List Piece
  | [] => []
  | a :: rest => pieces a ++ listPieces rest

/-- The pieces of a script after its mark. -/
def scriptPieces (c : Char) : Option (List Atom) → List Piece
  | none => []
  | some atoms => mark c :: braced (listPieces atoms)

/-- The pieces of the index of a radical, in brackets. -/
def indexPieces : Option (List Atom) → List Piece
  | none => []
  | some atoms =>
      let content := listPieces atoms
      mark '[' :: (if needsBraces atoms then braced content else content) ++ [mark ']']

/-- The pieces of the rows of an array. -/
def arrayPieces : Option (List Atom) → List Piece
  | none => []
  | some rows => rowsPieces true rows

/-- The pieces of rows, with a separator before all but the first. -/
def rowsPieces (first : Bool) : List Atom → List Piece
  | [] => []
  | .node _ ⟨cells, _, _, _, _, _, _⟩ :: rest =>
      (if first then [] else [.exact ['\\', '\\']]) ++ rowPieces cells ++ rowsPieces false rest

/-- The pieces of a row. -/
def rowPieces : Option (List Atom) → List Piece
  | none => []
  | some cells => cellsPieces true cells

/-- The pieces of cells, with a separator before all but the first. -/
def cellsPieces (first : Bool) : List Atom → List Piece
  | [] => []
  | cell :: rest => (if first then [] else [mark '&']) ++ pieces cell ++ cellsPieces false rest

end

theorem listPieces_append (as bs : List Atom) :
    listPieces (as ++ bs) = listPieces as ++ listPieces bs := by
  induction as with
  | nil => rfl
  | cons a as ih => simp [listPieces, ih]

end Writer

/-- A sequence of atoms as LaTeX. -/
def write (atoms : List Atom) : String :=
  String.ofList (Writer.assemble (Writer.listPieces atoms))

/-- An atom as LaTeX. -/
def writeAtom (a : Atom) : String :=
  write [a]

end FormulaEditor.Latex

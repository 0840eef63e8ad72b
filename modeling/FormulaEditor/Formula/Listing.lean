import FormulaEditor.Formula.Atom

/-!
# Listings of a formula

A listing shows everything about a formula but its identities on one line: the kind of an atom, its
value and glyph, its marks, and its branches in brackets.
-/

namespace FormulaEditor.Atom

/-- The label of an atom in a listing. -/
def listLabel (l : Label) : String :=
  let value := match l.value with
    | some v => "<" ++ v ++ ">"
    | none => ""
  let glyph := match l.glyph with
    | some c => String.ofList [Char.ofNat 39, c, Char.ofNat 39]
    | none => ""
  l.kind.name ++ value ++ glyph ++ String.join (l.marks.names.map ("+" ++ ·))

mutual

/-- The listing of an atom. -/
def listing : Atom → String
  | node label ⟨body, sup, sub, numerator, denominator, index, radicand⟩ =>
      listLabel label ++ branchListing .body body ++ branchListing .superscript sup ++
        branchListing .subscript sub ++ branchListing .numerator numerator ++
        branchListing .denominator denominator ++ branchListing .index index ++
        branchListing .radicand radicand

/-- The listing of a branch, empty if it is absent. -/
def branchListing (slot : Slot) : Option (List Atom) → String
  | none => ""
  | some atoms => "/" ++ slot.name ++ "[" ++ String.intercalate " " (listings atoms) ++ "]"

/-- The listings of the atoms of a sequence. -/
def listings : List Atom → List String
  | [] => []
  | a :: rest => listing a :: listings rest

end

/-- The listing of a sequence: its atoms separated by single spaces. -/
def sequenceListing (atoms : List Atom) : String :=
  String.intercalate " " (listings atoms)

end FormulaEditor.Atom

import FormulaEditor.Formula.Walk

/-!
# Well-formed formulas

In a well-formed formula every atom has exactly the branches that its kind prescribes, no branch
that requires content or can disappear is empty, and grids hold rows and rows hold cells.
-/

namespace FormulaEditor.Atom

/-- Whether the branches other than scripts are those of the shape. -/
def hasShape (a : Atom) (shape : Shape) : Bool :=
  let present := [Slot.body, .numerator, .denominator, .radicand, .index].filter fun slot =>
    (a.branch slot).isSome
  match shape with
  | .leaf => present == []
  | .sequence => present == [.body]
  | .fraction => present == [.numerator, .denominator]
  | .radical => present == [.radicand] || present == [.radicand, .index]

/-- Whether the content of a grid is of the right kind. -/
def hasGridContent (a : Atom) : Bool :=
  match a.kind with
  | .array => a.body.all fun row => row.kind == .row
  | .row => a.body.all fun cell => cell.kind == .cell
  | _ => true

/-- Whether no branch is empty that may not be. -/
def hasFilledBranches (a : Atom) : Bool :=
  a.slots.all fun slot =>
    !((a.branch slot).getD []).isEmpty || !(slot.isOptional || a.requiresContent slot)

/-- The conditions of well-formedness on one atom, its descendants left aside. -/
def isSound (a : Atom) : Bool :=
  a.hasShape a.kind.shape && (a.kind.allowsScripts || !a.hasScripts) && a.hasGridContent &&
    a.hasFilledBranches

/-- Whether the atom and everything below it satisfy the conditions. -/
def isWellFormed (a : Atom) : Bool :=
  a.subatoms.all isSound

end FormulaEditor.Atom

import FormulaEditor.Formula.Placeholders

/-!
# Stops

A walk over a formula in document order meets caret positions and placeholders. Every branch starts
with its leading gap; each of its atoms is followed by the gap after it, with the stops inside the
atom in between. A branch that counts as empty has only its leading gap, and the gaps of grid bodies
are no stops.
-/

namespace FormulaEditor

/-- What the walk meets. -/
inductive CaretStop where
  | caret (p : Path)
  | placeholder (p : Path)
  deriving DecidableEq, Repr

/-- The caret position of a stop. -/
def CaretStop.caret? : CaretStop → Option Path
  | caret p => some p
  | placeholder _ => none

/-- The placeholder of a stop. -/
def CaretStop.placeholder? : CaretStop → Option Path
  | caret _ => none
  | placeholder p => some p

mutual

/-- The stops in the branches of the atom at a position. -/
def Atom.stopsInside (p : Path) : Atom → List CaretStop
  | .node label ⟨body, sup, sub, numerator, denominator, index, radicand⟩ =>
      branchStops p label.kind .body body ++ branchStops p label.kind .superscript sup ++
        branchStops p label.kind .subscript sub ++ branchStops p label.kind .numerator numerator ++
        branchStops p label.kind .denominator denominator ++
        branchStops p label.kind .index index ++ branchStops p label.kind .radicand radicand

/-- The stops in a branch of an atom of the given kind. -/
def branchStops (p : Path) (kind : Kind) (slot : Slot) : Option (List Atom) → List CaretStop
  | none => []
  | some atoms =>
      if isGridBody kind slot then gridStops p slot 0 atoms
      else
        .caret (p.child slot leadingGap) ::
          if isPlaceholderOnly atoms then [.placeholder (p.child slot 0)]
          else itemStops p slot 0 atoms

/-- The stops from an index of a branch on. -/
def itemStops (p : Path) (slot : Slot) (i : Nat) : List Atom → List CaretStop
  | [] => []
  | a :: rest =>
      (if a.isPlaceholder then [.placeholder (p.child slot i)] else []) ++
        a.stopsInside (p.child slot i) ++ [.caret (p.child slot i)] ++
        itemStops p slot (i + 1) rest

/-- The stops inside the atoms of a grid body. -/
def gridStops (p : Path) (slot : Slot) (i : Nat) : List Atom → List CaretStop
  | [] => []
  | a :: rest => a.stopsInside (p.child slot i) ++ gridStops p slot (i + 1) rest

end

/-- The stops of a formula in document order. -/
def Atom.stops (root : Atom) : List CaretStop :=
  root.stopsInside Path.root

/-- The caret positions of a formula in document order. -/
def Atom.caretStops (root : Atom) : List Path :=
  root.stops.filterMap CaretStop.caret?

end FormulaEditor

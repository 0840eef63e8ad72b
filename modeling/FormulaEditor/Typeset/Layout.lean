import FormulaEditor.Formula.Atom
import FormulaEditor.Typeset.Grid
import FormulaEditor.Typeset.Spacing

/-!
# Layout of formulas

Every atom becomes a box, and every sequence a row of boxes with glue between them. The style is
handed down: each branch is laid out in the style that its atom prescribes.
-/

namespace FormulaEditor.Typeset

/-- The classes that the marks of an atom give to its box. -/
def markClasses (m : Marks) : List BoxClass :=
  (if m.selected then [.selected] else []) ++ (if m.error then [.error] else []) ++
    (if m.suggestion then [.suggestion] else [])

/-- The carets of a mark. -/
def caretIf (style : Style) (present : Bool) : List MathBox :=
  if present then [caretIn style] else []

/-- The glue before an atom of class `right` after one of class `left`. -/
def glueBoxes (style : Style) (left right : Option SpacingClass) : List MathBox :=
  match left, right with
  | some left, some right =>
      let glue := glueBetween left right style.isTight
      if glue = .none then [] else [MathBox.kern (glue.units * style.unit)]
  | _, _ => []

/-- The spacing classes of siblings. -/
def classesOf (atoms : List Atom) : List (Option SpacingClass) :=
  resolveOperators (atoms.map fun a => a.kind.spacingClass)

mutual

/-- The box of an atom whose class among its siblings is `cls`. -/
def layoutAtom (style : Style) (cls : Option SpacingClass) : Atom → MathBox
  | .node label ⟨body, sup, sub, numerator, denominator, index, radicand⟩ =>
      let value := label.value.getD ""
      let nucleus : MathBox := match label.kind with
        | .operator => operatorBox style label.glyph value
        | .space => MathBox.kern (spaceUnits value * style.unit)
        | .placeholder => placeholderIn style
        | .unknownCommand => (textRun style value).withClasses [.error]
        | .command => ((label.glyph.map (glyphIn style)).getD MathBox.empty).withClasses [.command]
        | .fraction =>
            let style := fractionStyle style value
            fractionBox style
              ((layoutBranch style.numerator false numerator).withClasses [.numerator])
              ((layoutBranch style.denominator false denominator).withClasses [.denominator])
        | .radical =>
            radicalBox style (layoutBranch style.cramp false radicand)
              (layoutOptional Style.scriptscript index)
        | .accent => accentBox style label.glyph (layoutBranch style.cramp false body)
        | .array => gridBox style value (layoutRowsOfBranch style.inArray body)
        | .font => (layoutBranch style label.marks.caretInside body).withClasses (fontClasses value)
        | .text => (layoutBranch style label.marks.caretInside body).withClasses [.text, .upright]
        | .root | .group | .row | .cell => layoutBranch style label.marks.caretInside body
        | .ordinary | .binary | .relation | .punctuation | .opening | .closing =>
            symbolBox style label.glyph value (cls == some .ordinary)
      let nucleus := nucleus.ownedBy label.id
      let whole := if sup.isSome || sub.isSome then
          (withScripts style nucleus
            ((layoutOptional style.superscript sup).map fun b => b.withClasses [.superscript])
            ((layoutOptional style.subscript sub).map fun b => b.withClasses [.subscript])).ownedBy
              label.id
        else nucleus
      whole.withClasses (markClasses label.marks)

/-- The rows of a branch as a grid. -/
def layoutRowsOfBranch (style : Style) : Option (List Atom) → List GridRow
  | none => []
  | some rows => layoutRows style rows

/-- The rows of a grid. -/
def layoutRows (style : Style) : List Atom → List GridRow
  | [] => []
  | row :: rest => layoutRow style row :: layoutRows style rest

/-- A row of a grid. -/
def layoutRow (style : Style) : Atom → GridRow
  | .node label ⟨body, _, _, _, _, _, _⟩ => ⟨label.id, layoutCellsOfBranch style body⟩

/-- The cells of a branch. -/
def layoutCellsOfBranch (style : Style) : Option (List Atom) → List MathBox
  | none => []
  | some cells => layoutCells style cells

/-- The cells of a row. -/
def layoutCells (style : Style) : List Atom → List MathBox
  | [] => []
  | cell :: rest => layoutCell style cell :: layoutCells style rest

/-- A cell of a row. -/
def layoutCell (style : Style) : Atom → MathBox
  | .node label ⟨body, _, _, _, _, _, _⟩ =>
      ((layoutBranch style label.marks.caretInside body).ownedBy label.id).withClasses
        (markClasses label.marks)

/-- The row of boxes of a branch, led by a caret if it stands before the first atom. -/
def layoutBranch (style : Style) (caretInside : Bool) : Option (List Atom) → MathBox
  | none => MathBox.row (caretIf style caretInside)
  | some atoms =>
      MathBox.row (caretIf style caretInside ++ layoutItems style none (classesOf atoms) atoms)

/-- The row of boxes of a branch that may be absent. -/
def layoutOptional (style : Style) : Option (List Atom) → Option MathBox
  | none => none
  | some atoms => some (MathBox.row (layoutItems style none (classesOf atoms) atoms))

/-- The boxes of siblings with glue and carets between them. `previous` is the class of the latest
atom that has one, and `classes` are those of the siblings. -/
def layoutItems (style : Style) (previous : Option SpacingClass)
    (classes : List (Option SpacingClass)) : List Atom → List MathBox
  | [] => []
  | a :: rest =>
      let cls := classes.head?.join
      glueBoxes style previous cls ++ caretIf style a.marks.caretBefore ++
        [layoutAtom style cls a] ++ caretIf style a.marks.caretAfter ++
        layoutItems style (cls.or previous) classes.tail rest

end

/-- The box of a formula. A whole formula is a row; any other atom is laid out for itself. -/
def layout (style : Style) (a : Atom) : MathBox :=
  if a.kind = .root then
    (layoutBranch style a.marks.caretInside (a.branch .body)).ownedBy a.id
  else layoutAtom style none a

end FormulaEditor.Typeset

import FormulaEditor.Formula.Kind

/-!
# Spacing between atoms

TeX's glue between neighbouring atoms depends on their spacing classes. A binary operator without an
operand on either side is treated as an ordinary atom; atoms without a class are looked through.
-/

namespace FormulaEditor.Typeset

/-- The amounts of glue. -/
inductive Glue where
  | none
  | thin
  | medium
  | thick
  deriving DecidableEq, Repr

/-- The width of glue in math units, of which an em has eighteen. -/
def Glue.units : Glue → Float
  | none => 0.0
  | thin => 3.0
  | medium => 4.0
  | thick => 5.0

/-- An amount of glue, and whether it is left out in script styles. -/
structure GlueRule where
  glue : Glue
  looseOnly : Bool
  deriving DecidableEq, Repr

/-- The glue between a class on the left and one on the right. -/
def glueRule (left right : SpacingClass) : GlueRule :=
  let no : GlueRule := ⟨.none, false⟩
  let thin : GlueRule := ⟨.thin, false⟩
  let thinLoose : GlueRule := ⟨.thin, true⟩
  let medium : GlueRule := ⟨.medium, true⟩
  let thick : GlueRule := ⟨.thick, true⟩
  match left, right with
  | .ordinary, .operator => thin
  | .ordinary, .binary => medium
  | .ordinary, .relation => thick
  | .ordinary, .inner => thinLoose
  | .ordinary, _ => no
  | .operator, .ordinary | .operator, .operator => thin
  | .operator, .relation => thick
  | .operator, .inner => thinLoose
  | .operator, _ => no
  | .binary, .ordinary | .binary, .operator | .binary, .opening | .binary, .inner => medium
  | .binary, _ => no
  | .relation, .ordinary | .relation, .operator | .relation, .opening | .relation, .inner => thick
  | .relation, _ => no
  | .opening, _ => no
  | .closing, .operator => thin
  | .closing, .binary => medium
  | .closing, .relation => thick
  | .closing, .inner => thinLoose
  | .closing, _ => no
  | .punctuation, .binary => no
  | .punctuation, _ => thinLoose
  | .inner, .operator => thin
  | .inner, .binary => medium
  | .inner, .relation => thick
  | .inner, .closing => no
  | .inner, _ => thinLoose

/-- The glue between two classes in a style that is tight or not. -/
def glueBetween (left right : SpacingClass) (tight : Bool) : Glue :=
  let rule := glueRule left right
  if rule.looseOnly && tight then .none else rule.glue

/-- Whether no operand can end here, so that an operator after it is not binary. -/
def lacksLeftOperand : Option SpacingClass → Bool
  | none => true
  | some .binary | some .operator | some .relation | some .opening | some .punctuation => true
  | some _ => false

/-- Whether no operand can start here, so that an operator before it is not binary. -/
def lacksRightOperand : SpacingClass → Bool
  | .relation | .closing | .punctuation => true
  | _ => false

/-- Makes the latest class of a reversed list ordinary. -/
def demoteLatest : List (Option SpacingClass) → List (Option SpacingClass)
  | [] => []
  | none :: rest => none :: demoteLatest rest
  | some _ :: rest => some .ordinary :: rest

/-- Resolves operators from left to right. `done` holds the classes so far, the latest first, and
`latest` the class that was resolved last. -/
def resolveFrom (done : List (Option SpacingClass)) (latest : Option SpacingClass) :
    List (Option SpacingClass) → List (Option SpacingClass)
  | [] => if latest = some .binary then (demoteLatest done).reverse else done.reverse
  | none :: rest => resolveFrom (none :: done) latest rest
  | some c :: rest =>
      let resolved := if c = .binary && lacksLeftOperand latest then .ordinary else c
      let done :=
        if lacksRightOperand resolved && latest = some .binary then demoteLatest done else done
      resolveFrom (some resolved :: done) (some resolved) rest

/-- The classes in which every binary operator has an operand on both sides; those that have not are
ordinary. -/
def resolveOperators (classes : List (Option SpacingClass)) : List (Option SpacingClass) :=
  resolveFrom [] none classes

end FormulaEditor.Typeset

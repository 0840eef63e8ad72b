import FormulaEditor.Editor.State
import FormulaEditor.Editor.Stops

/-!
# Movement

The caret moves from stop to stop in document order, to the ends of its branch or of the formula,
and up and down in fractions and scripts. At either end of the formula the boundary decides.
-/

namespace FormulaEditor.Editor

/-- The stop that one step leads to from a stop within the formula, if there is one. -/
def neighbour? (d : Direction) (stops : List Path) (i : Nat) : Option Path :=
  match d with
  | .forward => stops[i + 1]?
  | .backward => if i = 0 then none else stops[i - 1]?

/-- The stop at the other end of the formula. -/
def wrapped? (d : Direction) (stops : List Path) : Option Path :=
  match d with
  | .forward => stops.head?
  | .backward => stops.getLast?

/-- Puts the caret at a stop, if there is one. -/
def moveTo? (e : Editor) : Option Path → Editor
  | some p => e.setCaret p
  | none => e

/-- Moves the caret by one stop. At either end the boundary is asked if `wrap` allows it. A caret
that is at no stop goes to the first one. -/
def stepCaret (e : Editor) (d : Direction) (wrap : Bool) : Editor :=
  let stops := e.root.caretStops
  match stops.findIdx? (· == e.caret) with
  | none => e.moveTo? stops.head?
  | some i =>
      match neighbour? d stops i with
      | some p => e.setCaret p
      | none =>
          if wrap then
            let (goOn, e) := e.ask d
            if goOn then e.moveTo? (wrapped? d stops) else e
          else e

/-- The caret position at an end of the selection. -/
def edge (e : Editor) (d : Direction) : Path :=
  let edge := match d with
    | .forward => e.selection.stopPath
    | .backward => e.selection.startPath
  if (edge.branch? e.root).any isPlaceholderOnly then edge.withOffset leadingGap else edge

/-- Collapses the selection to one of its ends. -/
def collapse (e : Editor) (d : Direction) : Editor :=
  if e.selection.isCollapsed then e else e.setCaret (e.edge d)

/-- Moves the caret by one stop, or collapses the selection. -/
def move (e : Editor) (d : Direction) : Editor :=
  if e.selection.isCollapsed then e.stepCaret d true else e.collapse d

/-- Moves the caret to the next stop. -/
def moveToNext (e : Editor) : Outcome Editor Unit :=
  e.whenValid fun e => .done (e.move .forward)

/-- Moves the caret to the previous stop. -/
def moveToPrevious (e : Editor) : Outcome Editor Unit :=
  e.whenValid fun e => .done (e.move .backward)

/-! ## Placeholders -/

/-- The placeholder that is the whole selection. -/
def selectedPlaceholder? (e : Editor) : Option Path :=
  if e.selection.stopIndex - e.selection.startIndex = 1 then
    let p := e.selection.stopPath
    if (p.atom? e.root).any Atom.isPlaceholder then some p else none
  else none

/-- The stop that the selection or caret is at. -/
def currentStop (e : Editor) : CaretStop :=
  match e.selectedPlaceholder? with
  | some p => .placeholder p
  | none => .caret e.caret

/-- The next placeholder from a stop on, in the given direction. -/
def nextPlaceholder? (d : Direction) (stops : List CaretStop) (i : Nat) : Option Path :=
  match d with
  | .forward => (stops.drop (i + 1)).findSome? CaretStop.placeholder?
  | .backward => (stops.take i).reverse.findSome? CaretStop.placeholder?

/-- The first placeholder from an end of the formula, in the given direction. -/
def outermostPlaceholder? (d : Direction) (stops : List CaretStop) : Option Path :=
  match d with
  | .forward => stops.findSome? CaretStop.placeholder?
  | .backward => stops.reverse.findSome? CaretStop.placeholder?

/-- Selects the atom that a path addresses, if there is one. -/
def selectAtom? (e : Editor) : Option Path → Editor
  | some p => e.selectAtom p
  | none => e

/-- Selects the next placeholder in a direction. The boundary is asked if there is none. -/
def stepPlaceholder (e : Editor) (d : Direction) : Editor :=
  let stops := e.root.stops
  let found := (stops.findIdx? (· == e.currentStop)).bind (nextPlaceholder? d stops)
  match found with
  | some p => e.selectAtom p
  | none =>
      let (goOn, e) := e.ask d
      if goOn then e.selectAtom? (outermostPlaceholder? d stops) else e

/-- Selects the next placeholder. -/
def moveToNextPlaceholder (e : Editor) : Outcome Editor Unit :=
  e.whenValid fun e => .done (e.stepPlaceholder .forward)

/-- Selects the previous placeholder. -/
def moveToPreviousPlaceholder (e : Editor) : Outcome Editor Unit :=
  e.whenValid fun e => .done (e.stepPlaceholder .backward)

/-! ## Up and down -/

/-- The slot above or below a slot. -/
def verticalTarget? : Direction → Slot → Option Slot
  | .backward, .denominator => some .numerator
  | .backward, .subscript => some .superscript
  | .forward, .numerator => some .denominator
  | .forward, .superscript => some .subscript
  | _, _ => none

/-- The position that moving up or down from one level of the caret's path leads to. -/
def verticalMove? (e : Editor) (d : Direction) (level : Nat) : Option Path := do
  let step ← e.caret.steps[level]?
  let slot ← verticalTarget? d step.slot
  let owner := e.caret.take level
  let atom ← owner.atom? e.root
  let branch ← atom.branch slot
  return owner.child slot (lastOffset branch)

/-- Moves to the neighbour of the innermost branch around the caret that has one. -/
def moveVertically (e : Editor) (d : Direction) : Editor :=
  e.moveTo? ((List.range e.caret.depth).reverse.findSome? (e.verticalMove? d))

/-- Moves from a denominator to its numerator, or from a subscript to the superscript. -/
def moveUp (e : Editor) : Outcome Editor Unit :=
  e.whenValid fun e => .done (e.moveVertically .backward)

/-- Moves from a numerator to its denominator, or from a superscript to the subscript. -/
def moveDown (e : Editor) : Outcome Editor Unit :=
  e.whenValid fun e => .done (e.moveVertically .forward)

/-! ## Ends -/

/-- Moves to the start of the branch. -/
def moveToGroupStart (e : Editor) : Outcome Editor Unit :=
  e.whenValid fun e => .done (e.setCaret (e.caret.withOffset leadingGap))

/-- Moves to the end of the branch. -/
def moveToGroupEnd (e : Editor) : Outcome Editor Unit :=
  e.whenValid fun e => .done (e.setCaret (e.branchEnd e.caret))

/-- Moves to the start of the formula. -/
def moveToFieldStart (e : Editor) : Outcome Editor Unit :=
  e.whenValid fun e => .done (e.setCaret (Path.inRoot leadingGap))

/-- Moves to the end of the formula. -/
def moveToFieldEnd (e : Editor) : Outcome Editor Unit :=
  e.whenValid fun e => .done (e.setCaret e.fieldEnd)

end FormulaEditor.Editor

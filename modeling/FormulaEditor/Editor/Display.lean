import FormulaEditor.Editor.State
import FormulaEditor.Typeset.Layout

/-!
# Showing the selection

Before a formula is laid out, the selected atoms are marked, or else the one atom that tells where
the caret is: the atom before it, the first atom of the branch, or the owner of an empty branch.
-/

namespace FormulaEditor

/-- The mark of selected atoms. -/
def Marks.forSelected : Marks :=
  { none with selected := true }

/-- The mark of the atom before the caret. -/
def Marks.forCaretAfter : Marks :=
  { none with caretAfter := true }

/-- The mark of the atom after a caret in the leading gap. -/
def Marks.forCaretBefore : Marks :=
  { none with caretBefore := true }

/-- The mark of the owner of an empty branch with the caret. -/
def Marks.forCaretInside : Marks :=
  { none with caretInside := true }

/-- The atoms with those from `start` up to `stop` marked as selected. -/
def markSelected (start stop : Nat) (atoms : List Atom) : List Atom :=
  if stop ≤ atoms.length then
    splice atoms start stop ((slice atoms start stop).map fun a => a.mark Marks.forSelected)
  else atoms

/-- The atoms with the first one marked as standing after the caret. -/
def markFirst : List Atom → List Atom
  | [] => []
  | a :: rest => a.mark Marks.forCaretBefore :: rest

namespace Editor

/-- The formula with the mark for a caret at a position. -/
def markCaret (root : Atom) (p : Path) : Atom :=
  if (p.atom? root).isSome then p.modifyAtom (fun a => a.mark Marks.forCaretAfter) root
  else if ((p.branch? root).getD []).isEmpty then
    p.modifyOwner (fun a => a.mark Marks.forCaretInside) root
  else p.modifyBranch markFirst root

/-- Marks the selection or the caret, and nothing else. -/
def prepareForLayout (e : Editor) : Editor :=
  let e := e.withRoot e.root.clearTransientMarks
  match e.validate with
  | .error _ => e
  | .ok () =>
      let s := e.selection
      if s.isCollapsed then e.withRoot (markCaret e.root s.focus)
      else e.withRoot (s.focus.modifyBranch (markSelected s.startIndex s.stopIndex) e.root)

/-- Lays out the formula with the selection marked. -/
def layout (e : Editor) (style : Typeset.Style) : Typeset.MathBox × Editor :=
  let e := e.prepareForLayout
  (Typeset.layout style e.root, e)

end Editor

end FormulaEditor

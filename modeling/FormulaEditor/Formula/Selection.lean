import FormulaEditor.Formula.Path

/-!
# Selections

A selection lies between two positions of one branch, the anchor and the focus. It holds the atoms
with an offset above its start and up to its end, with everything below them. A collapsed selection
is a caret.
-/

namespace FormulaEditor

/-- A movement in document order. -/
inductive Direction where
  | forward
  | backward
  deriving DecidableEq, Repr

/-- The direction with a given name. -/
def Direction.ofName? : String → Option Direction
  | "forward" => some .forward
  | "backward" => some .backward
  | _ => none

/-- An anchor that stays and a focus that moves. -/
structure Selection where
  anchor : Path
  focus : Path
  deriving DecidableEq, Repr

namespace Selection

/-- A caret. -/
def caret (p : Path) : Selection :=
  ⟨p, p⟩

/-- Whether anchor and focus coincide. -/
def isCollapsed (s : Selection) : Bool :=
  s.anchor == s.focus

/-- The direction from anchor to focus, if they differ. -/
def direction? (s : Selection) : Option Direction :=
  match s.anchor.compare s.focus with
  | .lt => some .forward
  | .gt => some .backward
  | .eq => none

/-- The offset of the gap where the selection starts. -/
def start (s : Selection) : Int :=
  min s.anchor.offset s.focus.offset

/-- The offset of the last selected atom. -/
def stop (s : Selection) : Int :=
  max s.anchor.offset s.focus.offset

/-- The position before the selection. -/
def startPath (s : Selection) : Path :=
  s.focus.withOffset s.start

/-- The position after the selection. -/
def stopPath (s : Selection) : Path :=
  s.focus.withOffset s.stop

/-- The index of the first selected atom. -/
def startIndex (s : Selection) : Nat :=
  (s.start + 1).toNat

/-- The index after the last selected atom. -/
def stopIndex (s : Selection) : Nat :=
  (s.stop + 1).toNat

theorem eq_caret_of_isCollapsed {s : Selection} (h : s.isCollapsed = true) : s = caret s.focus := by
  obtain ⟨anchor, focus⟩ := s
  cases beq_iff_eq.1 h
  rfl

end Selection

end FormulaEditor

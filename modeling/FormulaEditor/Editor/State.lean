import FormulaEditor.Editor.Journal
import FormulaEditor.Formula.Placeholders
import FormulaEditor.Formula.Selection
import FormulaEditor.Formula.Splice
import FormulaEditor.Formula.Walk

/-!
# The editor

An editor holds a formula and a selection in it. Operations address the formula through paths, which
are checked before every operation: with a selection that does not resolve, the operation is
refused.
-/

namespace FormulaEditor

/-- Whether characters are symbols or spell a command. -/
inductive Mode where
  | math
  | command
  deriving DecidableEq, Repr

/-- What to do when a movement runs past the first or last position. -/
inductive BoundaryAction where
  /-- Go on at the other end. -/
  | wrap
  | stay
  deriving DecidableEq, Repr

/-- A formula being edited. -/
structure Editor where
  root : Atom
  selection : Selection
  mode : Mode
  /-- Decides what happens at either end of the formula. -/
  boundary : Direction → BoundaryAction
  /-- The decisions that were asked for so far. -/
  asked : List Direction
  journal : List Event
  /-- The supply of identities. -/
  supply : Nat

namespace Editor

/-- The atoms at the top level. -/
def atoms (e : Editor) : List Atom :=
  e.root.body

/-- The position of the caret: the focus of the selection. -/
def caret (e : Editor) : Path :=
  e.selection.focus

/-- The caret position at the end of a formula. -/
def endOf (root : Atom) : Path :=
  Path.inRoot (lastOffset root.body)

/-- The caret position at the end of the formula. -/
def fieldEnd (e : Editor) : Path :=
  endOf e.root

/-- The caret position at the end of the branch that a path points into. -/
def branchEnd (e : Editor) (p : Path) : Path :=
  p.withOffset ((p.branch? e.root).elim leadingGap lastOffset)

/-- An editor for a formula, with the caret at its end. No identity in the formula may be as great
as `supply`. -/
def ofRoot (root : Atom) (supply : Nat) : Editor :=
  ⟨root, Selection.caret (endOf root), .math, fun _ => .wrap, [], [], supply⟩

/-- An editor for an empty formula. -/
def empty : Editor :=
  let (root, supply) := Atom.newRoot [] 0
  ofRoot root supply

/-- The editor with a caret in place of its selection. -/
def setCaret (e : Editor) (p : Path) : Editor :=
  { e with selection := Selection.caret p }

/-- The editor with another formula. -/
def withRoot (e : Editor) (root : Atom) : Editor :=
  { e with root := root }

/-- The editor with the branch that a path points into replaced. -/
def putBranch (e : Editor) (p : Path) (atoms : List Atom) : Editor :=
  e.withRoot (p.putBranch atoms e.root)

/-- Makes atoms with new identities. -/
def mint {α : Type} (e : Editor) (m : Minting α) : α × Editor :=
  let (made, supply) := m e.supply
  (made, { e with supply := supply })

/-- Adds an entry to the journal. -/
def note (e : Editor) (event : Event) : Editor :=
  { e with journal := e.journal ++ [event] }

/-- Asks what to do at an end of the formula. The answer is whether to go on at the other end. -/
def ask (e : Editor) (d : Direction) : Bool × Editor :=
  (e.boundary d == .wrap, { e with asked := e.asked ++ [d] })

/-- Selects the atoms from index `first` to index `last` of the branch that a path points into. -/
def selectRun (e : Editor) (p : Path) (first last : Nat) : Editor :=
  { e with selection := ⟨p.withOffset ((first : Int) - 1), p.withOffset last⟩ }

/-- Selects the atom that a path addresses. -/
def selectAtom (e : Editor) (p : Path) : Editor :=
  { e with selection := ⟨p.withOffset (p.offset - 1), p⟩ }

/-! ## Checking the selection -/

/-- Whether a path points into the body of a grid, where only the content of cells is edited. -/
def inGridBody (e : Editor) (p : Path) : Bool :=
  match p.slot?, p.owner? e.root with
  | some slot, some owner => isGridBody owner.kind slot
  | _, _ => false

/-- Whether a path is a position of the formula: it resolves, and is neither that of the root nor
one in the body of a grid. -/
def isPosition (e : Editor) (p : Path) : Bool :=
  !p.isRoot && (p.resolve? e.root).isSome && !e.inGridBody p

/-- The first reason why the selection is not valid: both ends must be positions of one branch. -/
def validate (e : Editor) : Except EditError Unit :=
  if !e.isPosition e.selection.anchor then .error (.invalidPath e.selection.anchor)
  else if !e.isPosition e.selection.focus then .error (.invalidPath e.selection.focus)
  else if !e.selection.anchor.sameBranch e.selection.focus then
    .error (.invalidPath e.selection.focus)
  else .ok ()

/-- Carries out an operation if the selection is valid. -/
def whenValid (e : Editor) (operation : Editor → Outcome Editor Unit) : Outcome Editor Unit :=
  match e.validate with
  | .ok () => operation e
  | .error reason => .refused e reason

/-! ## Whole states -/

/-- Replaces formula, selection and mode. A selection that is not valid becomes a caret at the end.
-/
def restore (e : Editor) (root : Atom) (selection : Selection) (mode : Mode) : Editor :=
  let e := { e with root := root, selection := selection, mode := mode }
  match e.validate with
  | .ok () => e
  | .error _ => e.setCaret e.fieldEnd

/-- Replaces the content and puts the caret at its end. -/
def setAtoms (e : Editor) (atoms : List Atom) : Editor :=
  let (root, e) := e.mint (Atom.newRoot atoms)
  { e with root := root, mode := .math, selection := Selection.caret (endOf root) }

/-! ## Inside atoms -/

/-- Whether a position is inside an atom of a kind, at any depth. -/
def isInside (e : Editor) (p : Path) (kind : Kind) : Bool :=
  (List.range (p.depth - 1)).any fun d =>
    ((p.take (d + 1)).atom? e.root).any fun a => a.kind == kind

/-- Whether the caret is inside text, where characters are taken literally. -/
def inText (e : Editor) : Bool :=
  e.isInside e.caret .text

/-- Whether the atom with an identity is selected, directly or below a selected atom. -/
def isSelected (e : Editor) (id : Nat) : Bool :=
  match e.selection.focus.branch? e.root with
  | none => false
  | some branch =>
      e.selection.stopIndex ≤ branch.length &&
        (slice branch e.selection.startIndex e.selection.stopIndex).any fun a => (a.find? id).isSome

/-! ## Settling branches -/

/-- Mends the branch that a path points into after atoms were taken from it, and tells where the
caret goes: to `offset` if atoms are left. An emptied optional branch is removed, and the caret goes
behind its owner; any other emptied branch is refilled. -/
def settle (e : Editor) (p : Path) (offset : Int) : Path × Editor :=
  match p.slot?, p.owner? e.root with
  | some slot, some owner =>
      if ((owner.branch slot).getD []).isEmpty then
        if slot.isOptional then
          (p.parent, e.withRoot (p.modifyOwner (fun a => (a.removeBranch slot).2) e.root))
        else
          let (filler, e) := e.mint newIdentity
          (p.withOffset leadingGap,
            e.withRoot (p.modifyOwner (fun a => (a.setBranch slot [] filler).getD a) e.root))
      else (p.withOffset offset, e)
  | _, _ => (e.fieldEnd, e)

/-- Settles a branch and puts the caret where it goes. -/
def settleCaret (e : Editor) (p : Path) (offset : Int) : Editor :=
  let (caret, e) := e.settle p offset
  e.setCaret caret

end Editor

end FormulaEditor

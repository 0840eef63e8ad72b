import FormulaEditor.Editor.State

/-!
# Selecting

A selection between two positions of different branches is lifted to the deepest branch around both,
outside of grid bodies; a position below that branch stands for the whole atom that it is in.
Selections grow atom by atom, and from a run between separators to the branch and on to its owner.
-/

namespace FormulaEditor

/-- Where a position lies relative to a branch around it. -/
inductive BranchPosition where
  /-- In a gap of the branch. -/
  | gap (offset : Int)
  /-- Inside the atom with this offset. -/
  | inside (offset : Int)
  deriving DecidableEq, Repr

namespace BranchPosition

/-- The place of a position among the gaps and atoms of the branch. -/
def rank : BranchPosition → Int
  | gap offset => 2 * offset + 2
  | inside offset => 2 * offset + 1

/-- The gap at or before the position. -/
def before : BranchPosition → Int
  | gap offset => offset
  | inside offset => offset - 1

/-- The gap at or after the position. -/
def after : BranchPosition → Int
  | gap offset => offset
  | inside offset => offset

/-- Where a path lies relative to the branch that its first `depth` steps lead into. -/
def ofPath (p : Path) (depth : Nat) : BranchPosition :=
  let offset := ((p.steps[depth - 1]?).map Step.offset).getD leadingGap
  if depth < p.depth then inside offset else gap offset

end BranchPosition

/-- The depth of the deepest branch around both positions. -/
def commonDepth : List Step → List Step → Nat
  | s :: rest, t :: rest' =>
      if s.slot ≠ t.slot then 0
      else if s.offset ≠ t.offset then 1
      else commonDepth rest rest' + 1
  | _, _ => 0

/-- The greatest depth up to the given one at which a path is not in the body of a grid. -/
def depthOutsideGrids (root : Atom) (p : Path) : Nat → Nat
  | d + 2 =>
      let inGrid := ((p.take (d + 1)).atom? root).any fun a => a.kind.isGrid
      if inGrid then depthOutsideGrids root p (d + 1) else d + 2
  | d => d

/-- The selection of the atoms from one position to the other in the branch that the first `depth`
steps of the anchor lead into. -/
def liftedSelection (anchor focus : Path) (depth : Nat) : Selection :=
  let a := BranchPosition.ofPath anchor depth
  let f := BranchPosition.ofPath focus depth
  let branch := anchor.take depth
  if a.rank < f.rank then ⟨branch.withOffset a.before, branch.withOffset f.after⟩
  else if f.rank < a.rank then ⟨branch.withOffset a.after, branch.withOffset f.before⟩
  else ⟨branch.withOffset a.before, branch.withOffset a.after⟩

namespace Editor

/-- Selects from one position to another. -/
def select (e : Editor) (anchor focus : Path) : Outcome Editor Unit :=
  if !e.isPosition anchor then .refused e (.invalidPath anchor)
  else if !e.isPosition focus then .refused e (.invalidPath focus)
  else if anchor = focus && (focus.branch? e.root).any isPlaceholderOnly then
    .done (e.setCaret (focus.withOffset leadingGap))
  else if anchor.sameBranch focus then .done { e with selection := ⟨anchor, focus⟩ }
  else
    let depth := depthOutsideGrids e.root anchor (commonDepth anchor.steps focus.steps)
    if depth = 0 then .refused e (.invalidPath focus)
    else .done { e with selection := liftedSelection anchor focus depth }

/-- Selects the whole content, if there is any. -/
def selectContent (e : Editor) : Editor :=
  if e.atoms.isEmpty then e else e.selectRun (Path.inRoot leadingGap) 0 (e.atoms.length - 1)

/-- Selects the whole formula. -/
def selectAll (e : Editor) : Outcome Editor Unit :=
  e.whenValid fun e =>
    if e.atoms.isEmpty then .done (e.setCaret (Path.inRoot leadingGap)) else .done e.selectContent

/-- Whether an atom separates the runs that are selected together. -/
def isSeparator (a : Atom) : Bool :=
  a.kind == .relation || a.kind == .punctuation

/-- The owner of the branch that a path points into, or the array around it for a row or cell. -/
def ownerOutsideGrid (root : Atom) (p : Path) : Path :=
  let owners := (List.range p.depth).reverse.map p.take
  (owners.find? fun q =>
    !((q.atom? root).any fun a => a.kind == .row || a.kind == .cell)).getD Path.root

/-- Selects the owner of the branch that a path points into, or everything at the top level. -/
def selectOwner (e : Editor) (p : Path) (d : Direction) : Editor :=
  let owner := ownerOutsideGrid e.root p
  if owner.isRoot then e.selectContent
  else
    let before := owner.withOffset (owner.offset - 1)
    match d with
    | .forward => { e with selection := ⟨before, owner⟩ }
    | .backward => { e with selection := ⟨owner, before⟩ }

/-- Grows the selection in a branch: to the run between the nearest separators, or to the whole
branch, or to the owner of the branch. -/
def growSelection (e : Editor) (branch : List Atom) : Editor :=
  let p := e.selection.focus
  let start := e.selection.startIndex
  let stop := e.selection.stopIndex
  let runStart := start - countAtEnd (fun a => !isSeparator a) (branch.take start)
  let runStop := stop + countAtStart (fun a => !isSeparator a) (branch.drop stop)
  if runStart < runStop && (runStart ≠ start || runStop ≠ stop) then
    e.selectRun p runStart (runStop - 1)
  else if !branch.isEmpty && (start ≠ 0 || stop ≠ branch.length) then
    e.selectRun p 0 (branch.length - 1)
  else e.selectOwner p .forward

/-- Grows the selection to the next larger group. -/
def selectGroup (e : Editor) : Outcome Editor Unit :=
  e.whenValid fun e =>
    match e.selection.focus.branch? e.root with
    | none => .refused e (.invalidPath e.selection.focus)
    | some branch => .done (e.growSelection branch)

/-- Moves the focus by one atom. Past either end of the branch its owner is selected. -/
def extend (e : Editor) (d : Direction) : Editor :=
  let focus := e.selection.focus
  let length : Nat := ((focus.branch? e.root).map List.length).getD 0
  let next := match d with
    | .forward => focus.offset + 1
    | .backward => focus.offset - 1
  if leadingGap ≤ next && next < length then
    { e with selection := { e.selection with focus := focus.withOffset next } }
  else e.selectOwner focus d

/-- Extends the selection to the next atom. -/
def extendToNext (e : Editor) : Outcome Editor Unit :=
  e.whenValid fun e => .done (e.extend .forward)

/-- Extends the selection to the previous atom. -/
def extendToPrevious (e : Editor) : Outcome Editor Unit :=
  e.whenValid fun e => .done (e.extend .backward)

end Editor

end FormulaEditor

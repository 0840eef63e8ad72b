import FormulaEditor.Formula.Atom
import FormulaEditor.Text.Numeral
import FormulaEditor.Text.Split

/-!
# Paths

A path is a position in a formula, given as steps from the root. It refers to no tree and is
resolved against one. Each step names a slot and an offset in it; the offset of an atom stands for
the atom and for the gap right after it, and `-1` for the gap before the first atom.

A path reads and replaces the atom it addresses, or the branch that its last step is in.
-/

namespace FormulaEditor

/-- One level of a path: a slot of the current atom and an offset in its branch. -/
structure Step where
  slot : Slot
  offset : Int
  deriving DecidableEq, Repr

/-- The offset of the gap before the first atom of a branch. -/
def leadingGap : Int :=
  -1

/-- The index of the atom that a step addresses, or `none` for the leading gap. -/
def Step.index? (s : Step) : Option Nat :=
  if 0 ≤ s.offset then some s.offset.toNat else none

/-- A position in a formula. Without steps it is the root itself. -/
structure Path where
  steps : List Step
  deriving DecidableEq, Repr

/-- What a path resolves to. -/
inductive Place where
  | atom (a : Atom)
  /-- The gap before the first atom of a branch of `owner`. -/
  | gap (owner : Atom) (slot : Slot)

namespace Atom

/-- Follows steps down from an atom. -/
def descend? : Atom → List Step → Option Atom
  | a, [] => some a
  | a, s :: rest => do
      let atoms ← a.branch s.slot
      let i ← s.index?
      let child ← atoms[i]?
      child.descend? rest

/-- Changes the atom that steps lead to. -/
def modifyAt? (f : Atom → Atom) : Atom → List Step → Option Atom
  | a, [] => some (f a)
  | a, s :: rest => do
      let atoms ← a.branch s.slot
      let i ← s.index?
      let child ← atoms[i]?
      let child ← child.modifyAt? f rest
      return a.putBranch s.slot (some (atoms.set i child))

end Atom

namespace Path

/-- The path of the root. -/
def root : Path :=
  ⟨[]⟩

/-- The number of steps. -/
def depth (p : Path) : Nat :=
  p.steps.length

/-- Whether the path is that of the root. -/
def isRoot (p : Path) : Bool :=
  p.steps.isEmpty

/-- The last step. -/
def last? (p : Path) : Option Step :=
  p.steps.getLast?

/-- The offset of the last step. -/
def offset (p : Path) : Int :=
  (p.last?.map Step.offset).getD leadingGap

/-- The slot of the last step. -/
def slot? (p : Path) : Option Slot :=
  p.last?.map Step.slot

/-- The index of the atom that the last step addresses. -/
def index? (p : Path) : Option Nat :=
  p.last?.bind Step.index?

/-- The path of the atom that owns the branch of the last step. -/
def parent (p : Path) : Path :=
  ⟨p.steps.dropLast⟩

/-- The same branch at another offset. -/
def withOffset (p : Path) (offset : Int) : Path :=
  match p.last? with
  | some s => ⟨p.steps.dropLast ++ [{ s with offset := offset }]⟩
  | none => p

/-- A position in a branch of the atom that the path addresses. -/
def child (p : Path) (slot : Slot) (offset : Int) : Path :=
  ⟨p.steps ++ [⟨slot, offset⟩]⟩

/-- A position in the body of the root. -/
def inRoot (offset : Int) : Path :=
  root.child .body offset

/-- The first steps of a path. -/
def take (p : Path) (depth : Nat) : Path :=
  ⟨p.steps.take depth⟩

/-- The path of the branch without the offset of its last step. -/
def branchKey? (p : Path) : Option (List Step × Slot) :=
  p.last?.map fun s => (p.steps.dropLast, s.slot)

/-- Whether both paths point into the same branch. -/
def sameBranch (p q : Path) : Bool :=
  p.branchKey?.isSome && p.branchKey? == q.branchKey?

/-- Whether the path begins with all steps of another one. -/
def startsWith (p q : Path) : Bool :=
  q.steps.isPrefixOf p.steps

/-- Compares two steps: by slot in document order, then by offset. -/
def compareSteps (s t : Step) : Ordering :=
  (compare s.slot.rank t.slot.rank).then (compare s.offset t.offset)

/-- Compares two lists of steps, the first difference deciding. -/
def compareLists : List Step → List Step → Ordering
  | [], [] => .eq
  | [], _ :: _ => .lt
  | _ :: _, [] => .gt
  | s :: rest, t :: rest' => (compareSteps s t).then (compareLists rest rest')

/-- The order of paths. A path comes before its extensions. -/
def compare (p q : Path) : Ordering :=
  compareLists p.steps q.steps

/-! ## Resolving -/

/-- The atom that the path addresses, or `none` for a gap or an invalid path. -/
def atom? (p : Path) (root : Atom) : Option Atom :=
  root.descend? p.steps

/-- The atom that owns the branch of the last step. -/
def owner? (p : Path) (root : Atom) : Option Atom :=
  if p.isRoot then none else p.parent.atom? root

/-- The branch that the last step is in. -/
def branch? (p : Path) (root : Atom) : Option (List Atom) := do
  let slot ← p.slot?
  let owner ← p.owner? root
  owner.branch slot

/-- What the path leads to: an atom, or the leading gap of a branch. -/
def resolve? (p : Path) (root : Atom) : Option Place :=
  match p.last? with
  | none => some (.atom root)
  | some s => do
      let owner ← p.owner? root
      let atoms ← owner.branch s.slot
      match s.index? with
      | some i => (atoms[i]?).map .atom
      | none => if s.offset = leadingGap then some (.gap owner s.slot) else none

/-- The tree with the addressed atom changed, if there is one. -/
def modifyAtom? (p : Path) (f : Atom → Atom) (root : Atom) : Option Atom :=
  root.modifyAt? f p.steps

/-- The tree with the owner of the addressed branch changed, if there is one. -/
def modifyOwner? (p : Path) (f : Atom → Atom) (root : Atom) : Option Atom :=
  if p.isRoot then none else p.parent.modifyAtom? f root

/-- The tree with the addressed branch changed, if there is one. -/
def modifyBranch? (p : Path) (f : List Atom → List Atom) (root : Atom) : Option Atom := do
  let slot ← p.slot?
  let owner ← p.owner? root
  let atoms ← owner.branch slot
  p.modifyOwner? (fun a => a.putBranch slot (some (f atoms))) root

/-- The tree with the addressed atom changed, or the same tree if there is none. -/
def modifyAtom (p : Path) (f : Atom → Atom) (root : Atom) : Atom :=
  (p.modifyAtom? f root).getD root

/-- The tree with the owner of the addressed branch changed, or the same tree. -/
def modifyOwner (p : Path) (f : Atom → Atom) (root : Atom) : Atom :=
  (p.modifyOwner? f root).getD root

/-- The tree with the addressed branch changed, or the same tree if there is none. -/
def modifyBranch (p : Path) (f : List Atom → List Atom) (root : Atom) : Atom :=
  (p.modifyBranch? f root).getD root

/-- The tree with the content of the addressed branch replaced. -/
def putBranch (p : Path) (atoms : List Atom) (root : Atom) : Atom :=
  p.modifyBranch (fun _ => atoms) root

/-! ## Text -/

/-- The text of a step: its slot and offset with a colon between. -/
def stepText (s : Step) : List Char :=
  s.slot.name.toList ++ ':' :: Text.Numeral.write s.offset

/-- The text of a path: its steps separated by slashes. -/
def text (p : Path) : String :=
  String.ofList (Text.joinWith '/' (p.steps.map stepText))

/-- Reads a step. Offsets below the leading gap are refused. -/
def readStep? (text : List Char) : Option Step := do
  let (name, offset) ← Text.cutAtFirst? ':' text
  let slot ← Slot.ofName? (String.ofList name)
  let offset ← Text.Numeral.offset? offset
  if offset < leadingGap then none else some ⟨slot, offset⟩

/-- Reads a path. The empty text is the root. -/
def read? (text : String) : Option Path :=
  if text.isEmpty then some root
  else ((Text.splitAtEach '/' text.toList).mapM readStep?).map Path.mk

end Path

end FormulaEditor

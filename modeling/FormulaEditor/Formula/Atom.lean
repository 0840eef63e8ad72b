import FormulaEditor.Formula.Kind
import FormulaEditor.Formula.Branches

/-!
# Atoms

A formula is a tree of atoms. An atom has a label (its identity, kind, spelling, glyph and marks)
and branches that hold sequences of atoms. Identities come from a supply: a number that no atom made
so far carries and that grows with every atom that is made.
-/

namespace FormulaEditor

/-- Marks on an atom. Caret and selection marks are set anew for every layout; the other two show
unresolved input and completions that have not been accepted. -/
structure Marks where
  caretAfter : Bool
  caretBefore : Bool
  caretInside : Bool
  selected : Bool
  error : Bool
  suggestion : Bool
  deriving DecidableEq, Repr

namespace Marks

/-- No mark. -/
def none : Marks :=
  ⟨false, false, false, false, false, false⟩

/-- The marks of either. -/
def union (m n : Marks) : Marks :=
  ⟨m.caretAfter || n.caretAfter, m.caretBefore || n.caretBefore, m.caretInside || n.caretInside,
    m.selected || n.selected, m.error || n.error, m.suggestion || n.suggestion⟩

/-- The marks without those of the caret and the selection. -/
def lasting (m : Marks) : Marks :=
  { none with error := m.error, suggestion := m.suggestion }

/-- The names of the marks that are set, in their fixed order. -/
def names (m : Marks) : List String :=
  (if m.caretAfter then ["after"] else []) ++ (if m.caretBefore then ["before"] else []) ++
    (if m.caretInside then ["inside"] else []) ++ (if m.selected then ["selected"] else []) ++
    (if m.error then ["error"] else []) ++ (if m.suggestion then ["suggestion"] else [])

/-- Sets the mark with a given name. -/
def add (m : Marks) (name : String) : Marks :=
  match name with
  | "after" => { m with caretAfter := true }
  | "before" => { m with caretBefore := true }
  | "inside" => { m with caretInside := true }
  | "selected" => { m with selected := true }
  | "error" => { m with error := true }
  | "suggestion" => { m with suggestion := true }
  | _ => m

@[simp] theorem lasting_lasting (m : Marks) : m.lasting.lasting = m.lasting := rfl

end Marks

/-- What an atom is apart from its branches. -/
structure Label where
  /-- The identity, which survives copying. -/
  id : Nat
  kind : Kind
  /-- The character, command or environment that the atom is written as. -/
  value : Option String
  /-- The character that the atom is drawn as. -/
  glyph : Option Char
  marks : Marks
  deriving DecidableEq, Repr

/-- A node of a formula. -/
inductive Atom where
  | node (label : Label) (branches : Branches Atom)

/-- Making atoms: a function of the supply of identities that also gives the supply left over. -/
abbrev Minting (α : Type) :=
  StateM Nat α

/-- An identity that no atom carries yet. -/
def newIdentity : Minting Nat := fun supply =>
  (supply, supply + 1)

namespace Atom

/-- The label of an atom. -/
def label : Atom → Label
  | node label _ => label

/-- The branches of an atom. -/
def branches : Atom → Branches Atom
  | node _ branches => branches

/-- The identity of an atom. -/
def id (a : Atom) : Nat :=
  a.label.id

/-- The kind of an atom. -/
def kind (a : Atom) : Kind :=
  a.label.kind

/-- What the atom is written as. -/
def value (a : Atom) : Option String :=
  a.label.value

/-- What the atom is drawn as. -/
def glyph (a : Atom) : Option Char :=
  a.label.glyph

/-- The marks of an atom. -/
def marks (a : Atom) : Marks :=
  a.label.marks

/-- The branch in a slot, if the atom has it. -/
def branch (a : Atom) (slot : Slot) : Option (List Atom) :=
  a.branches.get slot

/-- The body of an atom, empty if it has none. -/
def body (a : Atom) : List Atom :=
  (a.branch .body).getD []

/-- The slots that hold a branch, in document order. -/
def slots (a : Atom) : List Slot :=
  a.branches.slots

/-- The atoms directly below, in document order. -/
def children (a : Atom) : List Atom :=
  a.branches.toList

/-- The atom with a changed label. -/
def mapLabel (f : Label → Label) : Atom → Atom
  | node label branches => node (f label) branches

/-- The atom with changed marks. -/
def mapMarks (f : Marks → Marks) : Atom → Atom :=
  mapLabel fun l => { l with marks := f l.marks }

/-- The atom with marks added. -/
def mark (a : Atom) (marks : Marks) : Atom :=
  a.mapMarks (·.union marks)

/-- The atom marked as an error. -/
def markError (a : Atom) : Atom :=
  a.mapMarks fun m => { m with error := true }

/-- The atom spelled in another way. -/
def withValue (a : Atom) (value : String) : Atom :=
  a.mapLabel fun l => { l with value := some value }

/-- The atom drawn in another way. -/
def withGlyph (a : Atom) (glyph : Option Char) : Atom :=
  a.mapLabel fun l => { l with glyph := glyph }

/-- The atom with the content of one slot replaced. -/
def putBranch (a : Atom) (slot : Slot) (content : Option (List Atom)) : Atom :=
  node a.label (a.branches.set slot content)

/-- Whether the atom is an empty slot. -/
def isPlaceholder (a : Atom) : Bool :=
  a.kind == .placeholder

/-- Whether the atom has a superscript or subscript. -/
def hasScripts (a : Atom) : Bool :=
  (a.branch .superscript).isSome || (a.branch .subscript).isSome

/-- Whether the atom is a braced group without scripts. -/
def isBareGroup (a : Atom) : Bool :=
  a.kind == .group && !a.hasScripts

/-- Whether the atom has no branches. -/
def isLeaf (a : Atom) : Bool :=
  a.kind.shape == .leaf && !a.hasScripts

/-- Whether every branch is empty or holds placeholders only. -/
def isHollow (a : Atom) : Bool :=
  a.children.all isPlaceholder

/-- Whether an emptied branch is filled with a placeholder. -/
def requiresContent (a : Atom) : Slot → Bool
  | .numerator | .denominator | .radicand => true
  | .body => a.kind.requiresBody
  | .superscript | .subscript | .index => false

/-! ## Making atoms -/

/-- An atom without branches. -/
def leaf (id : Nat) (kind : Kind) (value : Option String) (glyph : Option Char) : Atom :=
  node ⟨id, kind, value, glyph, Marks.none⟩ Branches.none

/-- A placeholder with a given identity. -/
def placeholder (id : Nat) : Atom :=
  leaf id .placeholder none none

instance : Inhabited Atom :=
  ⟨placeholder 0⟩

/-- A new leaf. -/
def newLeaf (kind : Kind) (value : Option String) (glyph : Option Char) : Minting Atom := do
  return leaf (← newIdentity) kind value glyph

/-- A new placeholder. -/
def newPlaceholder : Minting Atom := do
  return placeholder (← newIdentity)

/-- A leaf for a literal character. -/
def newChar (kind : Kind) (c : Char) : Minting Atom :=
  newLeaf kind (some (String.singleton c)) (some c)

/-- One character of a command that is being typed. -/
def newCommandChar (c : Char) : Minting Atom :=
  newChar .command c

/-- The sequence itself, or a new placeholder in place of an empty one. -/
def filled (atoms : List Atom) : Minting (List Atom) :=
  if atoms.isEmpty then do return [← newPlaceholder] else return atoms

/-- A new fraction. An empty branch gets a placeholder. -/
def newFraction (value : String) (numerator denominator : List Atom) : Minting Atom := do
  let numerator ← filled numerator
  let denominator ← filled denominator
  let id ← newIdentity
  return node ⟨id, .fraction, some value, none, Marks.none⟩
    { Branches.none with numerator := some numerator, denominator := some denominator }

/-- The command of radicals. -/
def radicalCommand : String :=
  "\\sqrt"

/-- A new radical. An empty index is left out and an empty radicand gets a placeholder. -/
def newRadical (radicand : List Atom) (index : Option (List Atom)) : Minting Atom := do
  let radicand ← filled radicand
  let id ← newIdentity
  return node ⟨id, .radical, some radicalCommand, none, Marks.none⟩
    { Branches.none with
      index := index.filter fun atoms => !atoms.isEmpty, radicand := some radicand }

/-- A new atom of the given kind. The given sequence becomes its body if it has one, and branches
that may not be empty get a placeholder. -/
def newWrapper (kind : Kind) (value : Option String) (body : List Atom) : Minting Atom := do
  let branches ← match kind.shape with
    | .leaf => pure Branches.none
    | .sequence => do
        let body ← if kind.requiresBody then filled body else pure body
        pure { Branches.none with body := some body }
    | .fraction => do
        let numerator ← filled []
        let denominator ← filled []
        pure { Branches.none with numerator := some numerator, denominator := some denominator }
    | .radical => do
        let radicand ← filled []
        pure { Branches.none with radicand := some radicand }
  let id ← newIdentity
  return node ⟨id, kind, value, none, Marks.none⟩ branches

/-- The atom at the top of a formula. -/
def newRoot (body : List Atom) : Minting Atom :=
  newWrapper .root none body

/-! ## Changing branches -/

/-- The atom with the content of a slot replaced, or `none` if it cannot have that branch. An empty
sequence removes an optional branch, and is replaced by a placeholder with the identity `filler`
in a branch that requires content. -/
def setBranch (a : Atom) (slot : Slot) (atoms : List Atom) (filler : Nat) : Option Atom :=
  if atoms.isEmpty && slot.isOptional then
    some (a.putBranch slot none)
  else
    let allowed : Bool := match slot with
      | .superscript | .subscript => a.kind.allowsScripts
      | .index => a.kind.shape == .radical
      | _ => (a.branch slot).isSome
    if allowed then
      let content :=
        if atoms.isEmpty && a.requiresContent slot then [placeholder filler] else atoms
      some (a.putBranch slot (some content))
    else none

/-- The atom with an optional branch that holds a placeholder, if it can have the branch and does
not have it yet. -/
def ensureBranch (a : Atom) (slot : Slot) (filler : Nat) : Atom :=
  let allowed : Bool := match slot with
    | .superscript | .subscript => a.kind.allowsScripts
    | .index => a.kind.shape == .radical
    | _ => false
  if allowed && (a.branch slot).isNone then a.putBranch slot (some [placeholder filler]) else a

/-- Detaches an optional branch: its content, and the atom without it. -/
def removeBranch (a : Atom) (slot : Slot) : Option (List Atom) × Atom :=
  if slot.isOptional then (a.branch slot, a.putBranch slot none) else (none, a)

@[simp] theorem label_node (l : Label) (b : Branches Atom) : (node l b).label = l := rfl

@[simp] theorem branches_node (l : Label) (b : Branches Atom) : (node l b).branches = b := rfl

@[simp] theorem node_eta (a : Atom) : node a.label a.branches = a := by
  cases a
  rfl

@[simp] theorem label_putBranch (a : Atom) (slot : Slot) (content : Option (List Atom)) :
    (a.putBranch slot content).label = a.label := rfl

@[simp] theorem branch_putBranch_self (a : Atom) (slot : Slot) (content : Option (List Atom)) :
    (a.putBranch slot content).branch slot = content := by
  simp [branch, putBranch]

@[simp] theorem branch_putBranch_of_ne (a : Atom) {slot other : Slot} (h : other ≠ slot)
    (content : Option (List Atom)) : (a.putBranch slot content).branch other = a.branch other := by
  simp [branch, putBranch, h]

end Atom

end FormulaEditor

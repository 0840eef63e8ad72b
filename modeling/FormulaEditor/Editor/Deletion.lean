import FormulaEditor.Editor.CommandRun
import FormulaEditor.Editor.Movement

/-!
# Deletion

A deletion takes the selection, or the atom next to the caret if it has no content. Next to an atom
with content the caret enters it instead. At the start of a script the script is dissolved behind
its base, and at the start of a wrapper the wrapper is replaced by what it holds.
-/

namespace FormulaEditor

/-- Whether deleting next to the atom removes it, rather than entering it. -/
def isRemovable (a : Atom) : Bool :=
  a.isLeaf || (a.kind.shape != .leaf && a.isHollow)

/-- Whether deleting at the start of a branch replaces its owner by what the owner holds. -/
def isUnwrappedAt (owner : Atom) (slot : Slot) : Bool :=
  !owner.hasScripts &&
    match slot with
    | .numerator | .radicand => true
    | .body =>
        owner.kind == .accent || owner.kind == .font || owner.kind == .text || owner.kind == .group
    | .denominator | .index | .superscript | .subscript => false

/-- The atoms that are no placeholders. -/
def withoutPlaceholders (atoms : List Atom) : List Atom :=
  atoms.filter fun a => !a.isPlaceholder

/-- What the given slots of an atom hold, without placeholders. -/
def contentOf (a : Atom) (slots : List Slot) : List Atom :=
  slots.flatMap fun slot => withoutPlaceholders ((a.branch slot).getD [])

/-- The slots of an atom other than its scripts. -/
def unwrappedSlots (a : Atom) : List Slot :=
  a.slots.filter fun slot => !slot.isScript

namespace Editor

/-- Takes the selected atoms out and settles their branch. -/
def removeSelection (e : Editor) : Editor :=
  let s := e.selection
  if s.isCollapsed then e
  else
    let start := s.startPath
    let branch := (start.branch? e.root).getD []
    let e := if s.stopIndex ≤ branch.length then
        e.putBranch start (splice branch s.startIndex s.stopIndex [])
      else e
    e.settleCaret start start.offset

/-- Takes out the atom that a path addresses and settles its branch. -/
def removeAtom (e : Editor) (p : Path) : Editor :=
  match p.index? with
  | none => e
  | some i =>
      let e := e.withRoot (p.modifyBranch (fun b => b.eraseIdx i) e.root)
      e.settleCaret p (p.offset - 1)

/-- Dissolves a script behind its base, and puts the caret there. -/
def hoistScript (e : Editor) (base : Path) (slot : Slot) : Editor :=
  match base.index? with
  | none => e
  | some i =>
      let content := ((base.atom? e.root).bind fun a => (a.removeBranch slot).1).getD []
      let root := base.modifyAtom (fun a => (a.removeBranch slot).2) e.root
      let root := base.modifyBranch
        (fun b => splice b (i + 1) (i + 1) (withoutPlaceholders content)) root
      (e.withRoot root).setCaret base

/-- Replaces an atom by what it holds, its scripts left aside. The caret goes before what came from
the given slot. -/
def unwrapAtom (e : Editor) (p : Path) (slot : Slot) : Editor :=
  match p.index?, p.atom? e.root with
  | some i, some a =>
      let slots := unwrappedSlots a
      let before := contentOf a (slots.takeWhile fun s => s != slot)
      let e := e.withRoot (p.modifyBranch (fun b => splice b i (i + 1) (contentOf a slots)) e.root)
      e.settleCaret p ((i : Int) + before.length - 1)
  | _, _ => e

/-- Deletes backward in the leading gap of a branch. -/
def deleteAtBranchStart (e : Editor) (caret : Path) : Editor :=
  let owner := caret.parent
  if owner.isRoot then e
  else
    match caret.slot?, owner.atom? e.root with
    | some slot, some a =>
        if slot.isScript then e.hoistScript owner slot
        else if isUnwrappedAt a slot then e.unwrapAtom owner slot
        else e.stepCaret .backward false
    | _, _ => e

/-- One deletion backward. -/
def deleteBackward (e : Editor) : Editor :=
  if !e.selection.isCollapsed then e.removeSelection
  else
    match e.caret.atom? e.root with
    | some a => if isRemovable a then e.removeAtom e.caret else e.stepCaret .backward false
    | none => e.deleteAtBranchStart e.caret

/-- The caret where it was before the atom after it was removed, unless its branch disappeared or
counts as empty now. -/
def keepCaret (e : Editor) (caret : Path) : Editor :=
  match caret.branch? e.root with
  | some branch =>
      if branch.isEmpty then e
      else e.setCaret (caret.withOffset (min caret.offset (lastOffset branch)))
  | none => e

/-- One deletion forward. -/
def deleteForward (e : Editor) : Editor :=
  if !e.selection.isCollapsed then e.removeSelection
  else
    let caret := e.caret
    let next := caret.withOffset (caret.offset + 1)
    match next.atom? e.root with
    | some a =>
        if isRemovable a then (e.removeAtom next).keepCaret caret else e.stepCaret .forward false
    | none => if 1 < caret.depth then e.stepCaret .forward false else e

/-- One deletion. -/
def deleteOnce (e : Editor) : Direction → Editor
  | .backward => e.deleteBackward
  | .forward => e.deleteForward

/-- Several deletions. -/
def deleteTimes (d : Direction) : Nat → Editor → Editor
  | 0, e => e
  | n + 1, e => deleteTimes d n (e.deleteOnce d)

/-- Deletes a number of times. Once no character of the command being typed is left, the editor goes
back to math. -/
def delete (e : Editor) (d : Direction) (count : Nat) : Outcome Editor Unit :=
  e.whenValid fun e => .done (deleteTimes d count e).leaveEmptyCommand

end Editor

end FormulaEditor

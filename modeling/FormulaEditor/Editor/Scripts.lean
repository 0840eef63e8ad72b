import FormulaEditor.Editor.Movement

/-!
# Scripts

Moving into a script of the atom before the caret, which is created where it is absent, and moving a
selection into one. Where no atom can carry the script, a placeholder is made to carry it.
-/

namespace FormulaEditor.Editor

/-- The atom that a script typed at a position attaches to, which is made if necessary. -/
def scriptBase (e : Editor) (caret : Path) : Path × Editor :=
  if (caret.atom? e.root).any fun a => a.kind.allowsScripts then (caret, e)
  else
    match caret.branch? e.root with
    | none => (caret, e)
    | some branch =>
        if isPlaceholderOnly branch then (caret.withOffset 0, e)
        else
          let i := (caret.offset + 1).toNat
          let (base, e) := e.mint Atom.newPlaceholder
          (caret.withOffset i, e.putBranch caret (splice branch i i [base]))

/-- Gives the atom at a path a script if it can have one, and finds what the script holds. -/
def ensureScript (e : Editor) (base : Path) (slot : Slot) : Option (List Atom) × Editor :=
  let (filler, e) := e.mint newIdentity
  let e := e.withRoot (base.modifyAtom (fun a => a.ensureBranch slot filler) e.root)
  ((base.atom? e.root).bind fun a => a.branch slot, e)

/-- Moves into a script of the atom before the caret. -/
def enterScript (e : Editor) (slot : Slot) : Outcome Editor Unit :=
  let e := e.collapse .forward
  let caret := e.caret
  let (base, e) := e.scriptBase caret
  match e.ensureScript base slot with
  | (none, e) => .refused e (.invalidPath caret)
  | (some script, e) => .done (e.setCaret (base.child slot (lastOffset script)))

/-- Moves into a superscript. -/
def moveToSuperscript (e : Editor) : Outcome Editor Unit :=
  e.whenValid fun e => e.enterScript .superscript

/-- Moves into a subscript. -/
def moveToSubscript (e : Editor) : Outcome Editor Unit :=
  e.whenValid fun e => e.enterScript .subscript

/-- Takes the selected atoms out of their branch, and finds the atom before them or makes one. -/
def takeForScript (e : Editor) (branch : List Atom) : Path × Editor :=
  let start := e.selection.startPath
  let i := e.selection.startIndex
  if (start.atom? e.root).any fun a => a.kind.allowsScripts then
    (start, e.putBranch start (splice branch i e.selection.stopIndex []))
  else
    let (base, e) := e.mint Atom.newPlaceholder
    (start.withOffset i, e.putBranch start (splice branch i e.selection.stopIndex [base]))

/-- Moves the selection into a script of the atom before it. -/
def promote (e : Editor) (slot : Slot) : Outcome Editor Unit :=
  if e.selection.isCollapsed then e.enterScript slot
  else
    let start := e.selection.startPath
    match start.branch? e.root with
    | none => .refused e (.invalidPath start)
    | some branch =>
        let moved := slice branch e.selection.startIndex e.selection.stopIndex
        let (base, e) := e.takeForScript branch
        match e.ensureScript base slot with
        | (none, e) => .refused e (.invalidPath base)
        | (some script, e) =>
            let script := if isPlaceholderOnly script then moved else script ++ moved
            let inside := base.child slot (lastOffset script)
            .done ((e.putBranch inside script).setCaret inside)

/-- Moves the selection into a superscript. -/
def promoteToSuperscript (e : Editor) : Outcome Editor Unit :=
  e.whenValid fun e => e.promote .superscript

/-- Moves the selection into a subscript. -/
def promoteToSubscript (e : Editor) : Outcome Editor Unit :=
  e.whenValid fun e => e.promote .subscript

end FormulaEditor.Editor

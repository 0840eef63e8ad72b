import FormulaEditor.Editor.State
import FormulaEditor.Latex.Reader

/-!
# Insertion

A character or a fragment replaces the selection. In a fragment, `#0` and `#@` stand for what was
selected; without a selection, `#@` takes what stands before the caret. A placeholder that fills the
branch gives way to what is inserted.
-/

namespace FormulaEditor

/-- Where the selection goes after an insertion. -/
inductive SelectionMode where
  /-- To the first placeholder that was inserted, or else after the inserted atoms. -/
  | placeholder
  | after
  | before
  /-- The inserted atoms are selected. -/
  | item
  deriving DecidableEq, Repr

/-- How inserted text is taken. -/
inductive InsertFormat where
  /-- A single character is a symbol, and anything else a fragment. -/
  | auto
  | latex
  deriving DecidableEq, Repr

/-- The selection mode with a given name. -/
def SelectionMode.ofName? : String → Option SelectionMode
  | "placeholder" => some .placeholder
  | "after" => some .after
  | "before" => some .before
  | "item" => some .item
  | _ => none

/-- The format with a given name. -/
def InsertFormat.ofName? : String → Option InsertFormat
  | "auto" => some .auto
  | "latex" => some .latex
  | _ => none

/-- How text is inserted. -/
structure InsertOptions where
  selectionMode : SelectionMode
  format : InsertFormat
  deriving DecidableEq, Repr

/-- The options unless others are asked for. -/
def InsertOptions.standard : InsertOptions :=
  ⟨.placeholder, .auto⟩

/-- The options for a fragment. -/
def InsertOptions.latex (selectionMode : SelectionMode) : InsertOptions :=
  ⟨selectionMode, .latex⟩

/-- Whether a character stands for itself in a fragment only after a backslash. -/
def needsBackslash (c : Char) : Bool :=
  ['{', '}', '#', '%', '&', '$'].contains c

/-- Whether a fragment refers to what stands before the caret. -/
def takesImplicitArgument : List Char → Bool
  | '#' :: '@' :: _ => true
  | _ :: rest => takesImplicitArgument rest
  | [] => false

/-- Whether an implicit argument starts after the atom. -/
def endsImplicitArgument (a : Atom) : Bool :=
  match a.kind with
  | .binary | .relation | .punctuation | .opening => true
  | _ => false

namespace Editor

/-- Reads a fragment and notes in the journal what had to be repaired. -/
def readFragment (e : Editor) (source : String) (mode : Latex.ReadingMode)
    (args : List (List Atom)) : List Atom × Editor :=
  let (parsed, e) := e.mint (Latex.parseFragment source mode args)
  (parsed.atoms, parsed.diagnostics.foldl (fun e d => e.note (.repaired d)) e)

/-- The atoms for one character. -/
def charAtoms (e : Editor) (c : Char) (mode : Latex.ReadingMode) (args : List (List Atom)) :
    List Atom × Editor :=
  if c = '\\' || c = '^' || c = '_' then e.readFragment (String.singleton c) mode args
  else if needsBackslash c then e.readFragment (String.ofList ['\\', c]) mode args
  else if mode = .text then
    let (a, e) := e.mint (Atom.newChar .ordinary c)
    ([a], e)
  else if Text.isBlank c then ([], e)
  else
    let (a, e) := e.mint (Latex.Reader.newMathChar c)
    ([a], e)

/-- The atoms for inserted text. -/
def textAtoms (e : Editor) (text : String) (format : InsertFormat) (mode : Latex.ReadingMode)
    (args : List (List Atom)) : List Atom × Editor :=
  match format, text.toList with
  | .auto, [c] => e.charAtoms c mode args
  | _, _ => e.readFragment text mode args

/-- Takes the selected atoms out and leaves the caret where they were. The branch is not settled,
because something is about to be inserted. Placeholders alone count as nothing. -/
def takeSelection (e : Editor) : List Atom × Editor :=
  let s := e.selection
  if s.isCollapsed then ([], e)
  else
    let start := s.startPath
    let e := e.setCaret start
    let branch := (start.branch? e.root).getD []
    if branch.length < s.stopIndex then ([], e)
    else
      let taken := slice branch s.startIndex s.stopIndex
      let e := e.putBranch start (splice branch s.startIndex s.stopIndex [])
      (if taken.all Atom.isPlaceholder then [] else taken, e)

/-- Takes out what stands before the caret, back to the nearest operator or opening delimiter. -/
def takeImplicitArgument (e : Editor) : List Atom × Editor :=
  let caret := e.caret
  match caret.branch? e.root with
  | none => ([], e)
  | some branch =>
      if isPlaceholderOnly branch then ([], e)
      else
        let stop := min (caret.offset + 1).toNat branch.length
        let start := stop - countAtEnd (fun a => !endsImplicitArgument a) (branch.take stop)
        let e := e.putBranch caret (splice branch start stop [])
        (slice branch start stop, e.setCaret (caret.withOffset ((start : Int) - 1)))

/-- Takes out the arguments of a fragment. -/
def takeArgument (e : Editor) (text : String) : List Atom × Editor :=
  let (selected, e) := e.takeSelection
  if selected.isEmpty && takesImplicitArgument text.toList then e.takeImplicitArgument
  else (selected, e)

/-- The index at which atoms are inserted into a branch, and the branch without the placeholder that
they replace. -/
def insertionPoint (p : Path) (branch : List Atom) : Nat × List Atom :=
  if isPlaceholderOnly branch then (0, []) else ((p.offset + 1).toNat, branch)

/-- The first placeholder among the atoms from `first` to `last` of the branch that a path points
into. -/
def placeholderAmong? (root : Atom) (p : Path) (first last : Nat) : Option Path := do
  let branch ← p.branch? root
  (itemPositionsFrom p first (slice branch first (last + 1))).findSome? fun (q, a) =>
    a.firstPlaceholder? q
where
  /-- Atoms of the branch from an index on with their paths. -/
  itemPositionsFrom (p : Path) (i : Nat) : List Atom → List (Path × Atom)
    | [] => []
    | a :: rest => (p.withOffset i, a) :: itemPositionsFrom p (i + 1) rest

/-- Puts the selection where it goes after atoms were inserted from index `first` to `last`. -/
def selectInserted (e : Editor) (p : Path) (first last : Nat) : SelectionMode → Editor
  | .placeholder =>
      match placeholderAmong? e.root p first last with
      | some q => e.selectAtom q
      | none => e.setCaret (p.withOffset last)
  | .after => e.setCaret (p.withOffset last)
  | .before => e.setCaret (p.withOffset ((first : Int) - 1))
  | .item => e.selectRun p first last

/-- Inserts atoms at the caret. -/
def insertAtoms (e : Editor) (atoms : List Atom) (mode : SelectionMode) : Outcome Editor Unit :=
  let caret := e.caret
  match caret.branch? e.root with
  | none => .refused e (.invalidPath caret)
  | some branch =>
      if atoms.isEmpty then .done (e.settleCaret caret caret.offset)
      else
        let (i, branch) := insertionPoint caret branch
        let e := e.putBranch caret (splice branch i i atoms)
        .done (e.selectInserted caret i (i + atoms.length - 1) mode)

/-- Inserts text at the caret in place of the selection. -/
def insert (e : Editor) (text : String) (options : InsertOptions) : Outcome Editor Unit :=
  e.whenValid fun e =>
    let (argument, e) := e.takeArgument text
    let mode := if e.inText then .text else .math
    let (atoms, e) := e.textAtoms text options.format mode [argument]
    e.insertAtoms atoms options.selectionMode

end Editor

end FormulaEditor

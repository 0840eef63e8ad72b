import FormulaEditor.Editor.State

/-!
# The command being typed

The characters of a command that is being typed are atoms of their own kind: a run around the caret.
Characters that were suggested to complete the command are marked, and stand after the typed ones.
-/

namespace FormulaEditor

/-- The command atoms around the caret, as indices in the branch of the caret. -/
structure CommandRun where
  start : Nat
  stop : Nat
  /-- The index of the first atom after the caret. -/
  caret : Nat
  deriving DecidableEq, Repr

/-- Whether an atom is a character of a command being typed. -/
def isCommandChar (a : Atom) : Bool :=
  a.kind == .command

/-- Whether an atom is suggested and not typed. -/
def isSuggested (a : Atom) : Bool :=
  a.marks.suggestion

/-- The run of command atoms around a gap of a branch. -/
def CommandRun.around (branch : List Atom) (offset : Int) : CommandRun :=
  let caret := min (offset + 1).toNat branch.length
  ⟨caret - countAtEnd isCommandChar (branch.take caret),
    caret + countAtStart isCommandChar (branch.drop caret), caret⟩

/-- The atom as typed instead of suggested. -/
def asTyped (a : Atom) : Atom :=
  a.mapMarks fun m => { m with suggestion := false }

/-- The atom as suggested. -/
def asSuggested (a : Atom) : Atom :=
  a.mapMarks fun m => { m with suggestion := true }

/-- The atom marked as an error or not. -/
def withError (error : Bool) (a : Atom) : Atom :=
  a.mapMarks fun m => { m with error := error }

namespace Editor

/-- Does something with the run around the caret and its branch. -/
def onCommandRun {α : Type} (e : Editor) (default : α) (f : List Atom → CommandRun → α) : α :=
  match e.caret.branch? e.root with
  | none => default
  | some branch => f branch (CommandRun.around branch e.caret.offset)

/-- Whether there are no command atoms around the caret. -/
def hasNoCommand (e : Editor) : Bool :=
  e.onCommandRun true fun _ run => run.start == run.stop

/-- The typed characters among some atoms. -/
def typedText (atoms : List Atom) : List Char :=
  (atoms.filter fun a => !isSuggested a).flatMap fun a => (a.value.getD "").toList

/-- The command typed around the caret, without what is suggested. -/
def commandText (e : Editor) : List Char :=
  e.onCommandRun [] fun branch run => typedText (slice branch run.start run.stop)

/-- The command typed before the caret. -/
def commandTextBefore (e : Editor) : List Char :=
  e.onCommandRun [] fun branch run => typedText (slice branch run.start run.caret)

/-- Changes the atoms of the branch from `start` up to `stop`. -/
def mapRun (e : Editor) (branch : List Atom) (start stop : Nat) (f : Atom → Atom) : Editor :=
  e.putBranch e.caret (splice branch start stop ((slice branch start stop).map f))

/-- Marks the command as an error, or clears the mark. -/
def decorateCommand (e : Editor) (error : Bool) : Editor :=
  e.onCommandRun e fun branch run => e.mapRun branch run.start run.stop (withError error)

/-- Makes suggested characters before the caret typed ones. -/
def commitCommand (e : Editor) : Editor :=
  e.onCommandRun e fun branch run => e.mapRun branch run.start run.caret asTyped

/-- Makes all suggested characters typed ones, and puts the caret after the command. -/
def acceptSuggestion (e : Editor) : Editor :=
  e.onCommandRun e fun branch run =>
    (e.mapRun branch run.start run.stop asTyped).setCaret
      (e.caret.withOffset ((run.stop : Int) - 1))

/-- Removes the suggested characters of the command. -/
def removeSuggestion (e : Editor) : Editor :=
  e.onCommandRun e fun branch run =>
    let typedOf (start stop : Nat) := (slice branch start stop).filter fun a => !isSuggested a
    let before := typedOf run.start run.caret
    let branch := splice branch run.start run.stop (before ++ typedOf run.caret run.stop)
    (e.putBranch e.caret branch).setCaret
      (e.caret.withOffset ((run.start : Int) + before.length - 1))

/-- Characters of a command. -/
def newCommandChars : List Char → Minting (List Atom)
  | [] => return []
  | c :: rest => do
      let a ← Atom.newCommandChar c
      let rest ← newCommandChars rest
      return a :: rest

/-- Shows a text as suggested after the caret, in place of an earlier suggestion and of the last
`trim` characters typed before the caret. -/
def insertSuggestion (e : Editor) (text : List Char) (trim : Nat) : Editor :=
  let e := e.removeSuggestion
  e.onCommandRun e fun branch run =>
    let start := run.caret - min trim (run.caret - run.start)
    let (chars, e) := e.mint (newCommandChars text)
    (e.putBranch e.caret (splice branch start run.caret (chars.map asSuggested))).setCaret
      (e.caret.withOffset ((start : Int) - 1))

/-- Goes back to math when no character of the command is left. -/
def leaveEmptyCommand (e : Editor) : Editor :=
  if e.mode = .command && e.hasNoCommand then { e with mode := .math } else e

end Editor

end FormulaEditor

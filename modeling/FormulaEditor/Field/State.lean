import FormulaEditor.Editor.Display
import FormulaEditor.Field.Keymap
import FormulaEditor.Field.Shortcuts
import FormulaEditor.Formula.Likeness
import FormulaEditor.History
import FormulaEditor.Latex.Suggestions
import FormulaEditor.Latex.Writer
import FormulaEditor.Speech

/-!
# Fields

A field is an editor with a history and inline shortcuts. Commands that may change the formula are
preceded by a record of the state, which they can be undone from.
-/

namespace FormulaEditor

/-- A copy of what an editor shows. -/
structure Snapshot where
  root : Atom
  selection : Selection
  mode : Mode

namespace Snapshot

/-- What an editor shows. -/
def ofEditor (e : Editor) : Snapshot :=
  ⟨e.root, e.selection, e.mode⟩

/-- Whether two snapshots show the same. -/
def same (s t : Snapshot) : Bool :=
  s.root.alike t.root && s.selection == t.selection && s.mode == t.mode

/-- Shows a snapshot again. -/
def restore (s : Snapshot) (e : Editor) : Editor :=
  e.restore s.root s.selection s.mode

end Snapshot

/-- An editor with a history and shortcuts. -/
structure Field where
  editor : Editor
  history : History Snapshot
  shortcuts : ShortcutTable
  /-- The characters typed in a row, which shortcuts are looked for in. -/
  typed : List Char

/-- Why a shortcut cannot be used. -/
structure ShortcutError where
  diagnostic : Latex.Diagnostic
  /-- The index of the shortcut. -/
  index : Nat
  substitute : String
  deriving DecidableEq, Repr

/-- Whether a character is never typed as a symbol. -/
def isNeverTyped (c : Char) : Bool :=
  Text.isBlank c || c == '\\' || c == '^' || c == '_'

/-- What is wrong with a shortcut: its trigger cannot be typed, or its substitute is malformed. -/
def Shortcut.problem? (s : Shortcut) : Option Latex.Diagnostic :=
  if s.trigger.isEmpty || s.trigger.toList.any isNeverTyped then
    some ⟨Latex.Span.at 0, .invalidShortcut s.trigger⟩
  else (Latex.parseFormula s.substitute 0).1.diagnostics.head?

/-- The first shortcut from an index on that cannot be used. -/
def firstShortcutError? (i : Nat) : List Shortcut → Option ShortcutError
  | [] => none
  | s :: rest =>
      match s.problem? with
      | some diagnostic => some ⟨diagnostic, i, s.substitute⟩
      | none => firstShortcutError? (i + 1) rest

namespace Field

/-- An empty field with the given shortcuts, if all of them can be used. -/
def new (shortcuts : ShortcutTable) : Except ShortcutError Field :=
  match firstShortcutError? 0 shortcuts.configured with
  | some error => .error error
  | none => .ok ⟨Editor.empty, History.empty History.defaultLimit, shortcuts, []⟩

/-- The formula as LaTeX. -/
def latex (f : Field) : String :=
  Latex.write f.editor.atoms

/-- The formula in words. -/
def speech (f : Field) : String :=
  speak f.editor.atoms

/-- The field with another editor. -/
def withEditor (f : Field) (e : Editor) : Field :=
  { f with editor := e }

/-- Adds an entry to the journal. -/
def note (f : Field) (event : Event) : Field :=
  f.withEditor (f.editor.note event)

/-- Forgets which characters were typed in a row. -/
def endTyping (f : Field) : Field :=
  { f with typed := [] }

/-- Lets the editor do something. -/
def edit (f : Field) (operation : Editor → Outcome Editor Unit) : Outcome Field Unit :=
  (operation f.editor).lift f.withEditor

/-- Lays out the formula with the selection marked. -/
def layout (f : Field) (style : Typeset.Style) : Typeset.MathBox × Field :=
  let (box, e) := f.editor.layout style
  (box, f.withEditor e)

/-! ## History -/

/-- Records the state to come back to. -/
def record (f : Field) : Field :=
  let (history, isNew) := f.history.record Snapshot.same (Snapshot.ofEditor f.editor)
  let event := if isNew then .recorded history.cursor history.limit else .unchanged
  { f with history := history }.note event

/-- Steps back to the state before. -/
def undo (f : Field) : Outcome Field Unit :=
  match f.history.undo Snapshot.same (Snapshot.ofEditor f.editor) with
  | (history, some snapshot) =>
      let f := { f with history := history }.note (.undone history.cursor history.states.length)
      .done (f.withEditor (snapshot.restore f.editor))
  | (history, none) => .refused { f with history := history } .emptyHistory

/-- Steps forward to the state after. -/
def redo (f : Field) : Outcome Field Unit :=
  match f.history.redo with
  | (history, some snapshot) =>
      let f := { f with history := history }.note (.redone history.cursor history.states.length)
      .done (f.withEditor (snapshot.restore f.editor))
  | (history, none) => .refused { f with history := history } .emptyHistory

/-! ## Commands -/

/-- Shows the best completion of the command being typed, or marks it as an error if there is none.
A backslash alone is neither completed nor an error. -/
def updateSuggestion (f : Field) : Field :=
  let typed := f.editor.commandTextBefore
  let size := (String.ofList typed).utf8ByteSize
  if size ≤ 1 then f.withEditor (f.editor.removeSuggestion.decorateCommand false)
  else
    match (Latex.Suggestion.ofStart typed).head? with
    | some s =>
        let rest := s.name.toList.drop (size - 1)
        f.withEditor ((f.editor.insertSuggestion rest 0).decorateCommand false)
    | none => f.withEditor (f.editor.removeSuggestion.decorateCommand true)

/-- Carries out a command, after recording the state if the command may change the formula. -/
def run (f : Field) (c : Command) : Outcome Field Unit :=
  let f := if c.isMutation then f.record else f
  match c with
  | .undo => f.undo
  | .redo => f.redo
  | .snapshot => .done f.record
  | .delete direction count =>
      (f.edit fun e => e.delete direction count).andThen fun f =>
        .done (if f.editor.mode = .command then f.updateSuggestion else f)
  | c => f.edit fun e => c.applyTo e

/-- Carries out a command that was not typed. -/
def perform (f : Field) (c : Command) : Outcome Field Unit :=
  f.endTyping.run c

/-- Replaces the whole formula, and reports what had to be repaired in the source. -/
def setLatex (f : Field) (source : String) : List Latex.Diagnostic × Field :=
  let f := f.endTyping.record
  let (parsed, e) := f.editor.mint (Latex.parseFormula source)
  (parsed.diagnostics, f.withEditor (e.setAtoms parsed.atoms))

end Field

end FormulaEditor

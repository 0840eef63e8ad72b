import FormulaEditor.Editor.CommandEntry
import FormulaEditor.Editor.Scripts
import FormulaEditor.Editor.Selecting
import FormulaEditor.Text.Numeral

/-!
# Commands

The closed set of operations on a field. Key bindings, menus and scripted input all end up as
commands; a command can also be given by its name and positional arguments.
-/

namespace FormulaEditor

/-- An operation on a field. -/
inductive Command where
  | moveToNextChar
  | moveToPreviousChar
  | moveToNextPlaceholder
  | moveToPreviousPlaceholder
  | moveToSuperscript
  | moveToSubscript
  | moveUp
  | moveDown
  | moveToGroupStart
  | moveToGroupEnd
  | moveToFieldStart
  | moveToFieldEnd
  | setRange (anchor focus : Path)
  | selectAll
  | selectGroup
  | extendToNextChar
  | extendToPreviousChar
  | insert (text : String) (options : InsertOptions)
  | delete (direction : Direction) (count : Nat)
  | promoteToSuperscript
  | promoteToSubscript
  | enterCommandMode
  | completeCommand
  | exitCommandMode
  | acceptSuggestion
  | insertSuggestion (text : String) (trim : Nat)
  | removeSuggestion
  | commitCommand
  | decorateCommand (error : Bool)
  | undo
  | redo
  | snapshot
  deriving DecidableEq, Repr

namespace Command

/-- The name of a command. -/
def name : Command → String
  | moveToNextChar => "moveToNextChar"
  | moveToPreviousChar => "moveToPreviousChar"
  | moveToNextPlaceholder => "moveToNextPlaceholder"
  | moveToPreviousPlaceholder => "moveToPreviousPlaceholder"
  | moveToSuperscript => "moveToSuperscript"
  | moveToSubscript => "moveToSubscript"
  | moveUp => "moveUp"
  | moveDown => "moveDown"
  | moveToGroupStart => "moveToGroupStart"
  | moveToGroupEnd => "moveToGroupEnd"
  | moveToFieldStart => "moveToMathfieldStart"
  | moveToFieldEnd => "moveToMathfieldEnd"
  | setRange .. => "setRange"
  | selectAll => "selectAll"
  | selectGroup => "selectGroup"
  | extendToNextChar => "extendToNextChar"
  | extendToPreviousChar => "extendToPreviousChar"
  | insert .. => "insert"
  | delete .. => "delete"
  | promoteToSuperscript => "promoteToSuperscript"
  | promoteToSubscript => "promoteToSubscript"
  | enterCommandMode => "enterCommandMode"
  | completeCommand => "completeCommand"
  | exitCommandMode => "exitCommandMode"
  | acceptSuggestion => "acceptSuggestion"
  | insertSuggestion .. => "insertSuggestion"
  | removeSuggestion => "removeSuggestion"
  | commitCommand => "commitCommandString"
  | decorateCommand .. => "decorateCommandString"
  | undo => "undo"
  | redo => "redo"
  | snapshot => "snapshot"

/-- The commands without arguments. -/
def plain : List Command :=
  [moveToNextChar, moveToPreviousChar, moveToNextPlaceholder, moveToPreviousPlaceholder,
    moveToSuperscript, moveToSubscript, moveUp, moveDown, moveToGroupStart, moveToGroupEnd,
    moveToFieldStart, moveToFieldEnd, selectAll, selectGroup, extendToNextChar,
    extendToPreviousChar, promoteToSuperscript, promoteToSubscript, enterCommandMode,
    completeCommand, exitCommandMode, acceptSuggestion, removeSuggestion, commitCommand, undo,
    redo, snapshot]

/-- Whether a command may change the formula, so that the state is recorded before it. -/
def isMutation : Command → Bool
  | insert .. | delete .. | promoteToSuperscript | promoteToSubscript | moveToSuperscript
  | moveToSubscript | enterCommandMode | completeCommand => true
  | _ => false

/-- Wraps the selection, or what stands before the caret, in the blackboard font. -/
def blackboard : Command :=
  insert "\\mathbb\x7b#@\x7d" (InsertOptions.latex .placeholder)

/-! ## Commands by name -/

/-- The positional arguments of a command that is given by name. -/
structure Arguments where
  command : String
  values : List String

namespace Arguments

/-- The argument at an index, which may not be missing. -/
def required (args : Arguments) (i : Nat) : Except EditError String :=
  match args.values[i]? with
  | some value => .ok value
  | none => .error (.invalidArgument args.command "")

/-- Reads the argument at an index. -/
def read {α : Type} (args : Arguments) (i : Nat) (reader : String → Option α) :
    Except EditError α := do
  let value ← args.required i
  match reader value with
  | some a => .ok a
  | none => .error (.invalidArgument args.command value)

/-- Reads the argument at an index, which is `default` if it is missing. -/
def readOr {α : Type} (args : Arguments) (i : Nat) (reader : String → Option α) (default : α) :
    Except EditError α :=
  if i < args.values.length then args.read i reader else .ok default

end Arguments

/-- Reads a truth value. -/
def readFlag? : String → Option Bool
  | "true" => some true
  | "false" => some false
  | _ => none

/-- Reads a count. -/
def readCount? (text : String) : Option Nat :=
  Text.Numeral.count? text.toList

/-- The command with a given name and arguments. Arguments beyond those of the command are ignored.
-/
def ofName (name : String) (values : List String) : Except EditError Command :=
  let args : Arguments := ⟨name, values⟩
  match name with
  | "setRange" => do
      let anchor ← args.read 0 Path.read?
      let focus ← args.readOr 1 Path.read? anchor
      return setRange anchor focus
  | "insert" => do
      let text ← args.required 0
      let mode ← args.readOr 1 SelectionMode.ofName? .placeholder
      let format ← args.readOr 2 InsertFormat.ofName? .auto
      return insert text ⟨mode, format⟩
  | "delete" => do
      let direction ← args.readOr 0 Direction.ofName? .backward
      let count ← args.readOr 1 readCount? 1
      return delete direction count
  | "deleteBackward" => do return delete .backward (← args.readOr 0 readCount? 1)
  | "deleteForward" => do return delete .forward (← args.readOr 0 readCount? 1)
  | "insertSuggestion" => do
      let text ← args.required 0
      let trim ← args.readOr 1 readCount? 0
      return insertSuggestion text trim
  | "decorateCommandString" => do return decorateCommand (← args.readOr 0 readFlag? true)
  | "blackboard" => .ok blackboard
  | _ =>
      match plain.find? fun c => c.name == name with
      | some c => .ok c
      | none => .error (.unknownCommand name)

/-! ## Carrying out commands -/

/-- Carries out a command on an editor. Those that step through the history leave it as it is. -/
def applyTo (e : Editor) : Command → Outcome Editor Unit
  | moveToNextChar => e.moveToNext
  | moveToPreviousChar => e.moveToPrevious
  | moveToNextPlaceholder => e.moveToNextPlaceholder
  | moveToPreviousPlaceholder => e.moveToPreviousPlaceholder
  | moveToSuperscript => e.moveToSuperscript
  | moveToSubscript => e.moveToSubscript
  | moveUp => e.moveUp
  | moveDown => e.moveDown
  | moveToGroupStart => e.moveToGroupStart
  | moveToGroupEnd => e.moveToGroupEnd
  | moveToFieldStart => e.moveToFieldStart
  | moveToFieldEnd => e.moveToFieldEnd
  | setRange anchor focus => e.select anchor focus
  | selectAll => e.selectAll
  | selectGroup => e.selectGroup
  | extendToNextChar => e.extendToNext
  | extendToPreviousChar => e.extendToPrevious
  | insert text options => e.insert text options
  | delete direction count => e.delete direction count
  | promoteToSuperscript => e.promoteToSuperscript
  | promoteToSubscript => e.promoteToSubscript
  | enterCommandMode => e.enterCommandMode
  | completeCommand => e.completeCommand
  | exitCommandMode => e.exitCommandMode
  | acceptSuggestion => .done e.acceptSuggestion
  | insertSuggestion text trim => .done (e.insertSuggestion text.toList trim)
  | removeSuggestion => .done e.removeSuggestion
  | commitCommand => .done e.commitCommand
  | decorateCommand error => .done (e.decorateCommand error)
  | undo | redo | snapshot => .done e

end Command

end FormulaEditor

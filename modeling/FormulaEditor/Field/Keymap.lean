import FormulaEditor.Field.Command

/-!
# Key bindings

The commands that named keys are bound to while a formula or a command is typed. Modifiers come
first in the name of a key.
-/

namespace FormulaEditor.Keymap

/-- The bindings while a formula is typed. -/
def math : List (String × Command) := [
  ("ArrowRight", .moveToNextChar),
  ("ArrowLeft", .moveToPreviousChar),
  ("ArrowUp", .moveUp),
  ("ArrowDown", .moveDown),
  ("Shift-ArrowRight", .extendToNextChar),
  ("Shift-ArrowLeft", .extendToPreviousChar),
  ("Ctrl-ArrowRight", .moveToGroupEnd),
  ("Ctrl-ArrowLeft", .moveToGroupStart),
  ("Ctrl-ArrowUp", .moveToSuperscript),
  ("Ctrl-ArrowDown", .moveToSubscript),
  ("Tab", .moveToNextPlaceholder),
  ("Shift-Tab", .moveToPreviousPlaceholder),
  ("Home", .moveToFieldStart),
  ("End", .moveToFieldEnd),
  ("Ctrl-a", .selectAll),
  ("Ctrl-Shift-a", .selectGroup),
  ("Ctrl-z", .undo),
  ("Ctrl-y", .redo),
  ("Ctrl-Shift-z", .redo),
  ("Backspace", .delete .backward 1),
  ("Delete", .delete .forward 1),
  ("Alt-6", .promoteToSuperscript),
  ("Alt--", .promoteToSubscript),
  ("Ctrl-/", .insert "\\frac\x7b#@\x7d\x7b#?\x7d" (InsertOptions.latex .placeholder)),
  ("Alt-b", Command.blackboard)]

/-- The bindings while a command is typed. -/
def command : List (String × Command) := [
  ("ArrowRight", .acceptSuggestion),
  ("Tab", .completeCommand),
  ("Enter", .completeCommand),
  ("Space", .completeCommand),
  ("Escape", .exitCommandMode),
  ("Backspace", .delete .backward 1)]

/-- The bindings in a mode. -/
def ofMode : Mode → List (String × Command)
  | .math => math
  | .command => command

/-- The command that a key is bound to in a mode. -/
def find? (mode : Mode) (key : String) : Option Command :=
  (ofMode mode).lookup key

end FormulaEditor.Keymap

import FormulaEditor.Editor.Error
import FormulaEditor.Editor.Key
import FormulaEditor.Latex.Diagnostic

/-!
# The journal

What happened while a formula was edited, for whoever wants to follow it: the steps of the history,
the repairs in fragments that were inserted, and the keys that had no effect.
-/

namespace FormulaEditor

/-- An entry of the journal. -/
inductive Event where
  /-- A state was not recorded again. -/
  | unchanged
  /-- A state was recorded. -/
  | recorded (cursor limit : Nat)
  | undone (cursor length : Nat)
  | redone (cursor length : Nat)
  /-- An inserted fragment had to be repaired. -/
  | repaired (diagnostic : Latex.Diagnostic)
  /-- A key is bound to no command. -/
  | unbound (name : String)
  /-- The command of a key was refused. -/
  | refused (key : Key) (reason : EditError)
  deriving DecidableEq, Repr

/-- The text of an entry. -/
def Event.text : Event → String
  | unchanged => "snapshot unchanged"
  | recorded cursor limit => "snapshot " ++ toString cursor ++ " of " ++ toString limit
  | undone cursor length => "undo to " ++ toString cursor ++ " of " ++ toString length
  | redone cursor length => "redo to " ++ toString cursor ++ " of " ++ toString length
  | repaired diagnostic => "insert: " ++ diagnostic.message
  | unbound name => "no binding for key \x7b" ++ name ++ "\x7d"
  | refused key reason => key.listing ++ ": " ++ reason.message

end FormulaEditor

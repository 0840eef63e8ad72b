import FormulaEditor.Field.Typing
import FormulaEditor.Settings.Toml

/-!
# Settings

What a settings file can choose: the style of layout, and the inline shortcuts. Keys that are not
known are ignored; a known key with a value of the wrong type makes the file invalid.
-/

namespace FormulaEditor

/-- The choices of a user. -/
structure Settings where
  /-- Whether formulas are laid out in display style. -/
  display : Bool
  shortcuts : ShortcutTable
  deriving DecidableEq, Repr

/-- Why there are no usable settings. -/
inductive SettingsError where
  | unreadable
  | malformed
  /-- A shortcut cannot be used. -/
  | shortcut (error : ShortcutError)
  deriving DecidableEq, Repr

/-- The message for unusable settings. -/
def SettingsError.message : SettingsError → String
  | unreadable => "cannot read the file"
  | malformed => "invalid TOML"
  | shortcut error =>
      "invalid inline shortcut #" ++ toString error.index ++ " (" ++
        Text.Quoted.string error.substitute ++ ")"

namespace Settings

/-- The settings without a file. -/
def standard : Settings :=
  ⟨false, ⟨[], false⟩⟩

/-- The key of the style. -/
def displayKey : String :=
  "display"

/-- The key that leaves the built-in shortcuts out. -/
def overrideKey : String :=
  "override-default-inline-shortcuts"

/-- The key of the table of shortcuts. -/
def shortcutsKey : String :=
  "inline-shortcuts"

/-- The truth value of a key, which is false if the key is not bound. -/
def flag? (bindings : List Toml.Binding) (key : String) : Option Bool :=
  match bindings.lookup key with
  | none => some false
  | some (.flag b) => some b
  | some _ => none

/-- A shortcut from a binding. -/
def shortcut? : Toml.Binding → Option Shortcut
  | (trigger, .text substitute) => some ⟨trigger, substitute⟩
  | _ => none

/-- Puts a shortcut in its place in alphabetical order of triggers. -/
def insertSorted (s : Shortcut) : List Shortcut → List Shortcut
  | [] => [s]
  | t :: rest => if t.trigger < s.trigger then t :: insertSorted s rest else s :: t :: rest

/-- The shortcuts of a document, in alphabetical order of triggers. -/
def shortcuts? (doc : Toml.Document) : Option (List Shortcut) :=
  if (doc.top.lookup shortcutsKey).isSome then none
  else
    (((doc.tables.lookup shortcutsKey).getD []).mapM shortcut?).map fun shortcuts =>
      shortcuts.foldr insertSorted []

/-- The settings of a document. -/
def ofDocument? (doc : Toml.Document) : Option Settings := do
  if (doc.tables.lookup displayKey).isSome || (doc.tables.lookup overrideKey).isSome then none
  else
    let display ← flag? doc.top displayKey
    let configuredOnly ← flag? doc.top overrideKey
    let shortcuts ← shortcuts? doc
    return ⟨display, ⟨shortcuts, configuredOnly⟩⟩

/-- Reads a settings file. -/
def read (source : String) : Except SettingsError Settings :=
  match (Toml.read? source).bind ofDocument? with
  | some settings => .ok settings
  | none => .error .malformed

/-- An empty field with the chosen shortcuts. -/
def newField (s : Settings) : Except SettingsError Field :=
  match Field.new s.shortcuts with
  | .ok field => .ok field
  | .error error => .error (.shortcut error)

end Settings

end FormulaEditor

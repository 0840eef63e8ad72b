import FormulaEditor.Field.State

/-!
# Typing

Characters and named keys are typed into a field. While a formula is typed, a character is inserted,
and a shortcut that is complete with it takes effect. While a command is typed, letters extend it
and anything else completes it.
-/

namespace FormulaEditor.Field

/-- Replaces the shortcut that the typed characters end with. Undoing this brings the typed
characters back first. -/
def applyShortcut (f : Field) : Outcome Field Unit :=
  match f.shortcuts.matchEnd? f.typed with
  | none => .done f
  | some shortcut =>
      ((f.record.edit fun e => e.delete .backward shortcut.length).andThen fun f =>
        f.edit fun e => e.insert shortcut.substitute (InsertOptions.latex .placeholder)).andThen
          fun f => .done f.endTyping

/-- Inserts a typed character. Shortcuts apply outside of text only. -/
def insertTyped (f : Field) (c : Char) : Outcome Field Unit :=
  let inText := f.editor.inText
  (f.run (.insert (String.singleton c) InsertOptions.standard)).andThen fun f =>
    if inText then .done f.endTyping
    else { f with typed := f.typed ++ [c] }.applyShortcut

/-- Types a character of a formula. Spaces count in text only. -/
def typeMathChar (f : Field) (c : Char) : Outcome Field Unit :=
  if c = '\\' then f.perform .enterCommandMode
  else if c = '^' then f.perform .moveToSuperscript
  else if c = '_' then f.perform .moveToSubscript
  else if c = ' ' && !f.editor.inText then .done f.endTyping
  else f.insertTyped c

/-- Types a character while a command is typed. A letter extends the command, and a single other
character after the backslash makes a command of its own. Anything else completes the command, which
leads back to the formula, and is typed there. -/
def typeCommandChar (f : Field) (c : Char) : Outcome Field Unit :=
  if Text.isLetter c then
    (f.edit fun e => e.insertCommandChar c).andThen fun f => .done f.updateSuggestion
  else if f.editor.commandTextBefore = ['\\'] then
    (f.edit fun e => e.insertCommandChar c).andThen fun f => f.perform .completeCommand
  else (f.perform .completeCommand).andThen fun f => f.typeMathChar c

/-- Types a character. -/
def typeChar (f : Field) (c : Char) : Outcome Field Unit :=
  match f.editor.mode with
  | .math => f.typeMathChar c
  | .command => f.typeCommandChar c

/-- Types characters one after the other, until one is refused. -/
def typeChars (f : Field) : List Char → Outcome Field Unit
  | [] => .done f
  | c :: rest => (f.typeChar c).andThen fun f => f.typeChars rest

/-- Carries out the command that a named key is bound to. The answer is whether there is one. -/
def keystroke (f : Field) (key : String) : Outcome Field Bool :=
  match Keymap.find? f.editor.mode key with
  | none => ⟨f, .ok false⟩
  | some c => (f.perform c).andThen fun f => ⟨f, .ok true⟩

/-- Types one key of a sequence. Keys that are not bound or are refused are noted in the journal. -/
def press (f : Field) : Key → Field
  | .char c =>
      let o := f.typeChar c
      match o.answer with
      | .ok () => o.state
      | .error reason => o.state.note (.refused (.char c) reason)
  | .named name =>
      let o := f.keystroke (Key.nameText name)
      match o.answer with
      | .ok true => o.state
      | .ok false => o.state.note (.unbound (Key.nameText name))
      | .error reason => o.state.note (.refused (.named name) reason)

/-- Types the keys of a text. -/
def replay (f : Field) (keys : String) : Field :=
  (Key.read keys.toList).foldl press f

end FormulaEditor.Field

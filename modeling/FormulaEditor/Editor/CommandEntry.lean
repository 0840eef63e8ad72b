import FormulaEditor.Editor.Deletion
import FormulaEditor.Editor.Insertion

/-!
# Typing commands

A backslash starts a command; its characters follow one by one. Completing the command replaces it
by what it stands for, with placeholders for its arguments.
-/

namespace FormulaEditor

/-- What an environment command is completed to. -/
def environmentTemplate : String :=
  "\\begin\x7bmatrix\x7d#?\\end\x7bmatrix\x7d"

/-- The fragment of an argument that is left open. -/
def openArgument : String :=
  "\x7b#?\x7d"

/-- The fragment that a typed command is completed to, if a name was typed at all. -/
def completion? (typed : List Char) : Option String :=
  let name := match typed with
    | '\\' :: rest => String.ofList rest
    | _ => String.ofList typed
  if name.isEmpty then none
  else
    match Latex.Vocabulary.find? name with
    | none => some (Latex.Vocabulary.command name)
    | some meaning =>
        if meaning.action = .beginEnvironment then some environmentTemplate
        else
          some (Latex.Vocabulary.command name ++
            String.join (List.replicate meaning.arity openArgument))

namespace Editor

/-- Inserts atoms at the caret and puts the caret after them. -/
def insertAtCaret (e : Editor) (atoms : List Atom) : Editor :=
  let caret := e.caret
  match caret.branch? e.root with
  | none => e
  | some branch =>
      let (i, branch) := insertionPoint caret branch
      (e.putBranch caret (splice branch i i atoms)).setCaret
        (caret.withOffset ((i + atoms.length : Nat) - 1))

/-- Types one character of a command in place of the selection. -/
def typeIntoCommand (e : Editor) (c : Char) : Editor :=
  let (a, e) := e.removeSelection.mint (Atom.newCommandChar c)
  e.insertAtCaret [a]

/-- Starts a command in place of the selection. -/
def enterCommandMode (e : Editor) : Outcome Editor Unit :=
  e.whenValid fun e => .done { e.typeIntoCommand '\\' with mode := .command }

/-- Types one character of a command. -/
def insertCommandChar (e : Editor) (c : Char) : Outcome Editor Unit :=
  e.whenValid fun e => .done (e.typeIntoCommand c)

/-- Removes the command and goes back to math. -/
def removeCommand (e : Editor) : Editor :=
  let e := { e with mode := .math }
  e.onCommandRun e fun branch run =>
    (e.putBranch e.caret (splice branch run.start run.stop [])).settleCaret e.caret
      ((run.start : Int) - 1)

/-- Replaces the command by what it stands for, and goes back to math. -/
def completeCommand (e : Editor) : Outcome Editor Unit :=
  e.whenValid fun e =>
    let e := e.acceptSuggestion
    let typed := e.commandText
    let e := e.removeCommand
    match completion? typed with
    | none => .done e
    | some fragment => e.insert fragment (InsertOptions.latex .placeholder)

/-- Discards the command and goes back to math. -/
def exitCommandMode (e : Editor) : Outcome Editor Unit :=
  e.whenValid fun e => .done e.removeCommand

end Editor

end FormulaEditor

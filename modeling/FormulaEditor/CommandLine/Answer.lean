import FormulaEditor.CommandLine.Request
import FormulaEditor.Settings.Basic

/-!
# Answers on the command line

The formula of a request is read or typed into a field, and written in the form that was asked for.
-/

namespace FormulaEditor.CommandLine

/-- The result of a request, before it is put into lines. -/
inductive Report where
  | text (s : String)
  | boxes (b : Typeset.MathBox)
  | tokens (ts : List Latex.SpannedToken)

/-- The lines of a report. Identities are written by `idText`. -/
def Report.lines (idText : Nat → String) : Report → List String
  | text s => [s]
  | boxes b => b.lines idText
  | tokens ts => ts.map Latex.SpannedToken.listing

/-- How a request ends. -/
inductive Answer where
  | report (r : Report)
  /-- The arguments make no request. -/
  | usageError
  | settingsError (reason : SettingsError)

/-- The exit code of the program. -/
def Answer.code : Answer → Nat
  | report _ => 0
  | settingsError _ => 1
  | usageError => 2

/-- The lines that the program writes. -/
def Answer.lines (idText : Nat → String) : Answer → List String
  | report r => r.lines idText
  | _ => []

/-- The settings for a request. `readFile` gives the content of a file, if it can be read. -/
def settingsFor (readFile : String → Option String) (r : Request) : Except SettingsError Settings :=
  match r.settings with
  | none => .ok Settings.standard
  | some path =>
      match readFile path with
      | none => .error .unreadable
      | some content => Settings.read content

/-- Puts the formula of a request into a field. Blanks at its end are dropped. -/
def fill (field : Field) (input : String) : Source → Field
  | .keys keys => field.replay keys
  | .formula latex => (field.setLatex (String.ofList (Text.trimEnd latex.toList))).2
  | .standardInput => (field.setLatex (String.ofList (Text.trimEnd input.toList))).2

/-- The report about a field in the form that was asked for. -/
def reportOn (field : Field) (style : Typeset.Style) : Output → Report
  | .latex => .text field.latex
  | .speech => .text field.speech
  | .boxes => .boxes (field.layout style).1
  | .tokens => .tokens (Latex.tokenize field.latex).tokens

/-- The answer to a request. `input` is what can be read from the standard input. -/
def Request.answer (r : Request) (readFile : String → Option String) (input : String) : Answer :=
  match settingsFor readFile r with
  | .error reason => .settingsError reason
  | .ok settings =>
      match settings.newField with
      | .error reason => .settingsError reason
      | .ok field =>
          let style : Typeset.Style := if r.display || settings.display then .display else .text
          .report (reportOn (fill field input r.source) style r.output)

/-- The answer to the arguments of the program. -/
def answerTo (arguments : List String) (readFile : String → Option String) (input : String) :
    Answer :=
  match Request.read? arguments with
  | none => .usageError
  | some r => r.answer readFile input

end FormulaEditor.CommandLine

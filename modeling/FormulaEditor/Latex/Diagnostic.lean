import FormulaEditor.Latex.Token

/-!
# Diagnostics

Reading a source never fails. What had to be repaired is reported as a diagnostic: a problem and the
span it was found at.
-/

namespace FormulaEditor.Latex

/-- What is wrong with a source. -/
inductive Problem where
  | unclosedGroup
  | unmatchedClose
  | disallowedChar (c : Char)
  | unknownCommand (command : String)
  | argumentCount (command : String) (expected found : Nat)
  | missingArgument
  | duplicateScript
  | unknownEnvironment (name : String)
  | mismatchedEnvironment (expected found : String)
  | unclosedEnvironment (name : String)
  /-- The trigger of an inline shortcut can never be typed. -/
  | invalidShortcut (trigger : String)
  deriving DecidableEq, Repr

/-- The broad kinds of problems. -/
inductive Category where
  /-- The source is malformed at the level of characters. -/
  | lexical
  | unknownCommand
  | argumentCount
  /-- Scripts, environments or settings are put together wrongly. -/
  | structural
  deriving DecidableEq, Repr

/-- The name of a category. -/
def Category.name : Category → String
  | lexical => "lex-error"
  | unknownCommand => "unknown-command"
  | argumentCount => "invalid-argument-count"
  | structural => "structure"

namespace Problem

/-- A text in double quotes, as it stands. -/
private def quote (s : String) : String :=
  "\"" ++ s ++ "\""

/-- The command that ends an environment. -/
private def endCommand (name : String) : String :=
  "\\end\x7b" ++ name ++ "\x7d"

/-- The message for a problem. -/
def message : Problem → String
  | unclosedGroup => "Expected token \"\x7d\", but not found."
  | unmatchedClose => "Unmatched closing token."
  | disallowedChar c => "Disallowed character: '" ++ Text.Quoted.bare c ++ "'."
  | unknownCommand command => "Unknown command " ++ quote command ++ "."
  | argumentCount command expected found =>
      quote command ++ " expects " ++ toString expected ++ " argument(s), but got " ++
        toString found ++ "."
  | missingArgument => "Expected argument but found none."
  | duplicateScript => "Duplicate subscript or superscript."
  | unknownEnvironment name => "Unknown environment " ++ quote name ++ "."
  | mismatchedEnvironment expected found =>
      "Expected " ++ quote (endCommand expected) ++ ", but got " ++ quote (endCommand found) ++ "."
  | unclosedEnvironment name => "Environment " ++ quote name ++ " is never closed."
  | invalidShortcut trigger => "Invalid inline shortcut " ++ quote trigger ++ "."

/-- The note that points at the span of a problem in a report. -/
def note : Problem → String
  | unclosedGroup => "this group is never closed"
  | unmatchedClose => "unmatched \"\x7d\""
  | disallowedChar _ => "disallowed character"
  | unknownCommand _ => "unknown command"
  | argumentCount _ expected _ => "expected " ++ toString expected ++ " argument(s) after this"
  | missingArgument => "expected an argument here"
  | duplicateScript => "duplicate"
  | unknownEnvironment _ => "unknown environment"
  | mismatchedEnvironment expected _ => "expected " ++ quote (endCommand expected) ++ " here"
  | unclosedEnvironment _ => "this environment is never closed"
  | invalidShortcut _ => "invalid shortcut"

/-- The category of a problem. -/
def category : Problem → Category
  | unclosedGroup | unmatchedClose | disallowedChar _ => .lexical
  | unknownCommand _ => .unknownCommand
  | argumentCount .. | missingArgument => .argumentCount
  | duplicateScript | unknownEnvironment _ | mismatchedEnvironment .. | unclosedEnvironment _
  | invalidShortcut _ => .structural

end Problem

/-- A problem and where it was found. -/
structure Diagnostic where
  span : Span
  problem : Problem
  deriving DecidableEq, Repr

/-- The message of a diagnostic, after the offset where its span starts. -/
def Diagnostic.message (d : Diagnostic) : String :=
  toString d.span.start ++ ": " ++ d.problem.message

end FormulaEditor.Latex

import FormulaEditor.Latex.Vocabulary
import FormulaEditor.Text.Blank

/-!
# Suggestions

The commands that a beginning can be completed to, most relevant first: by rank, then by length,
then in alphabetical order. Only commands spelled with letters are suggested.
-/

namespace FormulaEditor.Latex

/-- A command that completes what was typed. -/
structure Suggestion where
  /-- The name without the backslash. -/
  name : String
  meaning : Meaning
  deriving DecidableEq, Repr

namespace Suggestion

/-- The command as it is written. -/
def command (s : Suggestion) : String :=
  Vocabulary.command s.name

/-- Whether a suggestion comes before another one. -/
def precedes (s t : Suggestion) : Bool :=
  if s.meaning.rank ≠ t.meaning.rank then s.meaning.rank < t.meaning.rank
  else if s.name.length ≠ t.name.length then s.name.length < t.name.length
  else s.name < t.name

/-- Puts a suggestion in its place. -/
def insert (s : Suggestion) : List Suggestion → List Suggestion
  | [] => [s]
  | t :: rest => if t.precedes s then t :: insert s rest else s :: t :: rest

/-- Whether a command is spelled with letters and begins in the given way. -/
def isCandidate (start : List Char) (name : String) : Bool :=
  start.isPrefixOf name.toList && name.toList.all Text.isLetter

/-- The suggestions for the beginning of a command, with or without its backslash. -/
def ofStart (typed : List Char) : List Suggestion :=
  let start := match typed with
    | '\\' :: rest => rest
    | _ => typed
  let found := Vocabulary.all.filter fun (name, _) => isCandidate start name
  found.foldr (fun (name, meaning) sorted => insert ⟨name, meaning⟩ sorted) []

end Suggestion

end FormulaEditor.Latex

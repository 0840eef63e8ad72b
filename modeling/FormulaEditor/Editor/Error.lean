import FormulaEditor.Formula.Path

/-!
# Refused operations

Why an operation of the editor was refused, and what an operation leaves behind.
-/

namespace FormulaEditor

/-- The reason for a refusal. -/
inductive EditError where
  /-- The path does not resolve in the formula. -/
  | invalidPath (path : Path)
  /-- There is no command with this name. -/
  | unknownCommand (name : String)
  /-- An argument of a named command cannot be read. -/
  | invalidArgument (command argument : String)
  /-- There is nothing to undo or redo. -/
  | emptyHistory
  deriving DecidableEq, Repr

/-- The message for a refusal. -/
def EditError.message : EditError → String
  | invalidPath path => "Path \"" ++ path.text ++ "\" does not resolve."
  | unknownCommand name => "Unknown editor command \"" ++ name ++ "\"."
  | invalidArgument command argument =>
      "Invalid argument \"" ++ argument ++ "\" for \"" ++ command ++ "\"."
  | emptyHistory => "Nothing to undo or redo."

/-- Reads a path, or says that it is no valid argument. -/
def Path.read (text : String) : Except EditError Path :=
  match Path.read? text with
  | some path => .ok path
  | none => .error (.invalidArgument "path" text)

/-- What a path leads to in a formula, or that it does not resolve there. -/
def Path.resolve (p : Path) (root : Atom) : Except EditError Place :=
  match p.resolve? root with
  | some place => .ok place
  | none => .error (.invalidPath p)

/-- What an operation leaves behind: the state after it, and its answer or why it was refused. -/
structure Outcome (σ α : Type) where
  state : σ
  answer : Except EditError α

namespace Outcome

variable {σ τ α : Type}

/-- An operation that was carried out. -/
def done (state : σ) : Outcome σ Unit :=
  ⟨state, .ok ()⟩

/-- An operation that was refused. -/
def refused (state : σ) (reason : EditError) : Outcome σ α :=
  ⟨state, .error reason⟩

/-- Goes on after an operation, unless it was refused. -/
def andThen (o : Outcome σ Unit) (next : σ → Outcome σ α) : Outcome σ α :=
  match o.answer with
  | .ok () => next o.state
  | .error reason => refused o.state reason

/-- The outcome for a larger state. -/
def lift (o : Outcome σ α) (f : σ → τ) : Outcome τ α :=
  ⟨f o.state, o.answer⟩

@[simp] theorem state_done (s : σ) : (done s).state = s := rfl

@[simp] theorem answer_done (s : σ) : (done s).answer = .ok () := rfl

@[simp] theorem answer_refused (s : σ) (reason : EditError) :
    (refused s reason : Outcome σ α).answer = .error reason := rfl

@[simp] theorem done_andThen (s : σ) (next : σ → Outcome σ α) :
    (done s).andThen next = next s := rfl

end Outcome

end FormulaEditor

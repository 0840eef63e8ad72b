import FormulaEditor.Text.Quoted

/-!
# Tokens

A source is read as a sequence of tokens, each with the span of bytes that it was read from.
-/

namespace FormulaEditor.Latex

/-- A range of byte offsets in a source. -/
structure Span where
  start : Nat
  stop : Nat
  deriving DecidableEq, Repr

/-- The span of no bytes at an offset. -/
def Span.at (offset : Nat) : Span :=
  ⟨offset, offset⟩

/-- A reference to an argument of a fragment. -/
inductive ArgumentRef where
  /-- The argument with this index, at most nine. -/
  | index (i : Nat)
  /-- The selection or, without one, what stands before the caret. -/
  | implicit
  /-- An empty placeholder. -/
  | placeholder
  deriving DecidableEq, Repr

/-- The tokens of LaTeX math. -/
inductive Token where
  | endOfInput
  /-- A backslash followed by ASCII letters or by one other character; the name has no backslash. -/
  | control (name : String)
  /-- Any other character. In text, this includes spaces and the characters of scripts and cells. -/
  | char (c : Char)
  | groupBegin
  /-- A closing brace, or the implicit end of a group that is never closed. -/
  | groupEnd
  | superscript
  | subscript
  /-- The separator of the cells of a row. -/
  | alignment
  | argument (ref : ArgumentRef)
  deriving DecidableEq, Repr

/-- A token with the place it was read from. -/
structure SpannedToken where
  token : Token
  span : Span
  deriving DecidableEq, Repr

/-- How a reference to an argument is shown in a listing. -/
def ArgumentRef.listing : ArgumentRef → String
  | index i => "Index(" ++ toString i ++ ")"
  | implicit => "Implicit"
  | placeholder => "Placeholder"

/-- How a token is shown in a listing. -/
def Token.listing : Token → String
  | endOfInput => "Eoi"
  | control name => "ControlSequence(" ++ Text.Quoted.string name ++ ")"
  | char c => "Char(" ++ Text.Quoted.character c ++ ")"
  | groupBegin => "GroupBegin"
  | groupEnd => "GroupEnd"
  | superscript => "Superscript"
  | subscript => "Subscript"
  | alignment => "Alignment"
  | argument ref => "Argument(" ++ ref.listing ++ ")"

/-- A line of a token listing. -/
def SpannedToken.listing (t : SpannedToken) : String :=
  toString t.span.start ++ ".." ++ toString t.span.stop ++ " " ++ t.token.listing

end FormulaEditor.Latex

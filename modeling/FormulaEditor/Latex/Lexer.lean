import FormulaEditor.Latex.Diagnostic
import FormulaEditor.Latex.Vocabulary
import FormulaEditor.Text.Blank

/-!
# Reading tokens

A source is cut into tokens from left to right. White space separates tokens and is otherwise
skipped, except inside the group of a text command, where a run of it is one space. Comments, stray
closing braces and NUL characters are dropped, groups left open are closed at the end, and each such
repair is reported.

The stream ends with exactly one end of input and its groups are balanced.
-/

namespace FormulaEditor.Latex

/-- A token stream with the repairs that were needed. -/
structure Tokens where
  tokens : List SpannedToken
  diagnostics : List Diagnostic
  deriving DecidableEq, Repr

namespace Tokens

/-- The stream with one more token at the front. -/
def cons (token : Token) (span : Span) (s : Tokens) : Tokens :=
  { s with tokens := ⟨token, span⟩ :: s.tokens }

/-- The stream with one more diagnostic at the front. -/
def report (problem : Problem) (span : Span) (s : Tokens) : Tokens :=
  { s with diagnostics := ⟨span, problem⟩ :: s.diagnostics }

end Tokens

namespace Lexer

/-- What the characters read so far say about the next ones. -/
inductive Mode where
  | math
  /-- A text command was read: a group that follows is text. -/
  | textStart
  /-- In the group of a text command that was opened when `nesting` groups were open. -/
  | textGroup (nesting : Nat)
  deriving DecidableEq, Repr

/-- Whether characters are taken as text. -/
def Mode.inText : Mode → Bool
  | textGroup _ => true
  | _ => false

/-- The mode after a token that does not open a group. -/
def Mode.afterToken : Mode → Mode
  | textStart => math
  | mode => mode

/-- The mode after a command. -/
def Mode.afterCommand (mode : Mode) (name : String) : Mode :=
  match (Vocabulary.find? name).map Meaning.action with
  | some .text => textStart
  | _ => mode.afterToken

/-- The mode after an opening brace inside `nesting` groups. -/
def Mode.afterOpening (mode : Mode) (nesting : Nat) : Mode :=
  match mode with
  | textStart => textGroup nesting
  | mode => mode

/-- The mode after a closing brace that leaves `nesting` groups open. -/
def Mode.afterClosing (mode : Mode) (nesting : Nat) : Mode :=
  match mode with
  | textStart => math
  | textGroup opened => if opened = nesting then math else textGroup opened
  | math => math

/-- The number of bytes of a text. -/
def byteLength (text : List Char) : Nat :=
  text.foldl (fun bytes c => bytes + c.utf8Size) 0

/-- Splits off the blank characters at the start. -/
def skipBlank (text : List Char) : List Char × List Char :=
  (text.takeWhile Text.isBlank, text.dropWhile Text.isBlank)

/-- Splits off a comment: everything up to the end of the line, with the line break. -/
def skipComment : List Char → List Char × List Char
  | [] => ([], [])
  | c :: rest =>
      if c = '\n' then ([c], rest)
      else
        let (comment, rest) := skipComment rest
        (c :: comment, rest)

/-- Splits off the name of a command: a run of letters, or else one character if there is any. -/
def readName (text : List Char) : List Char × List Char :=
  match text.takeWhile Text.isLetter, text.dropWhile Text.isLetter with
  | [], c :: rest => ([c], rest)
  | letters, rest => (letters, rest)

/-- The argument that a character after a number sign refers to. -/
def argumentRef? (c : Char) : Option ArgumentRef :=
  if Text.isDigit c then some (.index (c.toNat - '0'.toNat))
  else if c = '@' then some .implicit
  else if c = '?' then some .placeholder
  else none

/-- The token of a character that has no further effect on the rest of the source. -/
def plainToken (mode : Mode) (c : Char) : Token :=
  if mode.inText then
    if c = '~' then .char ' ' else .char c
  else if c = '^' then .superscript
  else if c = '_' then .subscript
  else if c = '&' then .alignment
  else .char c

/-- The end of the stream: groups left open are reported and closed, the innermost first. -/
def finish (offset : Nat) (opened : List Nat) : Tokens :=
  { tokens := opened.map (fun _ => ⟨.groupEnd, Span.at offset⟩) ++ [⟨.endOfInput, Span.at offset⟩]
    diagnostics := opened.map fun start => ⟨⟨start, start + 1⟩, .unclosedGroup⟩ }

theorem length_skipBlank (text : List Char) : (skipBlank text).2.length ≤ text.length :=
  (List.dropWhile_sublist Text.isBlank).length_le

theorem length_skipComment (text : List Char) : (skipComment text).2.length ≤ text.length := by
  induction text with
  | nil => simp [skipComment]
  | cons c rest ih =>
      simp only [skipComment]
      split
      · simp
      · exact Nat.le_succ_of_le ih

theorem length_readName (text : List Char) : (readName text).2.length ≤ text.length := by
  have h : (text.dropWhile Text.isLetter).length ≤ text.length :=
    (List.dropWhile_sublist Text.isLetter).length_le
  unfold readName
  split
  · rename_i c rest _ heq
    rw [heq] at h
    simp only [List.length_cons] at h ⊢
    omega
  · exact h

/-- Reads the rest of a source that starts at `offset`, where `opened` holds the offsets of the
groups that are open, the innermost first. -/
def read (text : List Char) (offset : Nat) (mode : Mode) (opened : List Nat) : Tokens :=
  match text with
  | [] => finish offset opened
  | c :: rest =>
      let span : Span := ⟨offset, offset + c.utf8Size⟩
      let next := offset + c.utf8Size
      if Text.isBlank c then
        let blank := skipBlank rest
        let tail := read blank.2 (next + byteLength blank.1) mode opened
        if mode.inText then tail.cons (.char ' ') span else tail
      else if c.toNat = 0 then
        (read rest next mode opened).report (.disallowedChar c) span
      else if c = '%' then
        let comment := skipComment rest
        read comment.2 (next + byteLength comment.1) mode opened
      else if c = '{' then
        (read rest next (mode.afterOpening opened.length) (offset :: opened)).cons .groupBegin span
      else if c = '}' then
        match opened with
        | [] => (read rest next mode []).report .unmatchedClose span
        | _ :: outer => (read rest next (mode.afterClosing outer.length) outer).cons .groupEnd span
      else if c = '\\' then
        let name := readName rest
        let stop := next + byteLength name.1
        let blank := skipBlank name.2
        let command := String.ofList name.1
        (read blank.2 (stop + byteLength blank.1) (mode.afterCommand command) opened).cons
          (.control command) ⟨offset, stop⟩
      else if c = '#' then
        match rest with
        | d :: rest' =>
            match argumentRef? d with
            | some ref =>
                (read rest' (next + d.utf8Size) mode.afterToken opened).cons
                  (.argument ref) ⟨offset, offset + 2⟩
            | none => (read (d :: rest') next mode.afterToken opened).cons (.char c) span
        | [] => (read [] next mode.afterToken opened).cons (.char c) span
      else
        (read rest next mode.afterToken opened).cons (plainToken mode c) span
termination_by text.length
decreasing_by
  all_goals simp only [List.length_cons, List.length_nil]
  all_goals first
    | omega
    | exact Nat.lt_succ_of_le (length_skipComment _)
    | exact Nat.lt_succ_of_le (Nat.le_trans (length_skipBlank _) (length_readName _))
    | exact Nat.lt_succ_of_le (length_skipBlank _)

end Lexer

/-- The tokens of a source. -/
def tokenize (source : String) : Tokens :=
  Lexer.read source.toList 0 .math []

end FormulaEditor.Latex

import FormulaEditor.Text.Numeral
import FormulaEditor.Text.Split

/-!
# Settings files

A small part of TOML: comments, bindings of bare or quoted keys to truth values, whole numbers and
quoted strings, and tables. A text outside of this part, or a key that is bound twice, is refused.
-/

namespace FormulaEditor.Toml

/-- The value of a key. -/
inductive Value where
  | flag (b : Bool)
  | number (n : Int)
  | text (s : String)
  deriving DecidableEq, Repr

/-- A key with its value. -/
abbrev Binding :=
  String × Value

/-- The bindings of a file: those before the first table, and those of each table. -/
structure Document where
  top : List Binding
  tables : List (String × List Binding)
  deriving DecidableEq, Repr

/-- One line of a file. -/
inductive Line where
  | blank
  | table (name : String)
  | binding (key : String) (value : Value)
  deriving DecidableEq, Repr

/-- Whether a character is space within a line. -/
def isSpace (c : Char) : Bool :=
  c == ' ' || c == '\t'

/-- Drops the space at the start of a line. -/
def skipSpace (text : List Char) : List Char :=
  text.dropWhile isSpace

/-- Whether nothing but space and a comment is left of a line. -/
def isBlankRest (text : List Char) : Bool :=
  match skipSpace text with
  | [] => true
  | c :: _ => c == '#'

/-- Whether a character may stand in a key without quotes. -/
def isBareKeyChar (c : Char) : Bool :=
  Text.isLetter c || Text.isDigit c || c == '_' || c == '-'

/-- Whether a character may stand in a quoted string as it is. -/
def isStringChar (c : Char) : Bool :=
  c == '\t' || (0x20 ≤ c.toNat && c.toNat ≠ 0x7f)

/-- The character that a backslash and a letter stand for. -/
def escaped? : Char → Option Char
  | '\\' => some '\\'
  | '"' => some '"'
  | 'b' => some (Char.ofNat 8)
  | 't' => some '\t'
  | 'n' => some '\n'
  | 'f' => some (Char.ofNat 12)
  | 'r' => some '\r'
  | _ => none

/-- Reads a string after its opening quote: its characters, and what follows the closing quote. -/
def readString? : List Char → Option (List Char × List Char)
  | [] => none
  | '"' :: rest => some ([], rest)
  | '\\' :: c :: rest => do
      let c ← escaped? c
      let (text, rest) ← readString? rest
      return (c :: text, rest)
  | c :: rest => do
      let (text, rest) ← readString? rest
      if isStringChar c && c != '\\' then return (c :: text, rest) else none

/-- Reads a key, and what follows it. -/
def readKey? : List Char → Option (String × List Char)
  | '"' :: rest => (readString? rest).map fun (key, rest) => (String.ofList key, rest)
  | text =>
      let key := text.takeWhile isBareKeyChar
      if key.isEmpty then none else some (String.ofList key, text.dropWhile isBareKeyChar)

/-- Whether a numeral starts with a zero that it could do without. -/
def hasLeadingZero : List Char → Bool
  | '+' :: rest => hasLeadingZero rest
  | '-' :: rest => hasLeadingZero rest
  | '0' :: _ :: _ => true
  | _ => false

/-- Reads a value that is a single word. -/
def readWord? (word : List Char) : Option Value :=
  match String.ofList word with
  | "true" => some (.flag true)
  | "false" => some (.flag false)
  | _ => if hasLeadingZero word then none else (Text.Numeral.signed? word).map .number

/-- Reads a value, and what follows it. -/
def readValue? : List Char → Option (Value × List Char)
  | '"' :: rest => (readString? rest).map fun (text, rest) => (.text (String.ofList text), rest)
  | text =>
      let isEnd (c : Char) := isSpace c || c == '#'
      (readWord? (text.takeWhile fun c => !isEnd c)).map fun value =>
        (value, text.dropWhile fun c => !isEnd c)

/-- Drops an expected character. -/
def expect? (c : Char) : List Char → Option (List Char)
  | [] => none
  | d :: rest => if d = c then some rest else none

/-- Reads the header of a table after its opening bracket. -/
def readHeader? (text : List Char) : Option Line := do
  let (name, rest) ← readKey? (skipSpace text)
  let rest ← expect? ']' (skipSpace rest)
  if isBlankRest rest then return .table name else none

/-- Reads a key and its value. -/
def readBinding? (text : List Char) : Option Line := do
  let (key, rest) ← readKey? text
  let rest ← expect? '=' (skipSpace rest)
  let (value, rest) ← readValue? (skipSpace rest)
  if isBlankRest rest then return .binding key value else none

/-- Reads a line. -/
def readLine? (text : List Char) : Option Line :=
  if isBlankRest text then some .blank
  else
    match skipSpace text with
    | '[' :: rest => readHeader? rest
    | text => readBinding? text

/-- Binds a key that is not bound yet. -/
def bind? (key : String) (value : Value) (bindings : List Binding) : Option (List Binding) :=
  if (bindings.lookup key).isSome then none else some (bindings ++ [(key, value)])

/-- Adds a line to a document. Bindings belong to the latest table. -/
def addLine? (doc : Document) : Line → Option Document
  | .blank => some doc
  | .table name =>
      if (doc.tables.lookup name).isSome || (doc.top.lookup name).isSome then none
      else some { doc with tables := doc.tables ++ [(name, [])] }
  | .binding key value =>
      match doc.tables.getLast? with
      | none => (bind? key value doc.top).map fun top => { doc with top := top }
      | some (name, bindings) =>
          (bind? key value bindings).map fun bindings =>
            { doc with tables := doc.tables.dropLast ++ [(name, bindings)] }

/-- A line without the carriage return before its end. -/
def withoutReturn (line : List Char) : List Char :=
  if line.getLast? = some '\r' then line.dropLast else line

/-- Reads a file. -/
def read? (source : String) : Option Document := do
  let lines ← (Text.splitAtEach '\n' source.toList).mapM fun line => readLine? (withoutReturn line)
  lines.foldlM addLine? ⟨[], []⟩

end FormulaEditor.Toml

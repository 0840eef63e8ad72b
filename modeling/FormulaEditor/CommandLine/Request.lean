import FormulaEditor.Text.Split

/-!
# Requests on the command line

The arguments of the program: where the formula comes from, and what is written about it. Options
have a long and a short name; short ones can be combined, and a value can be attached or follow.
-/

namespace FormulaEditor.CommandLine

/-- The forms in which a formula can be written. -/
inductive Output where
  /-- The formula itself. -/
  | latex
  /-- The formula in words. -/
  | speech
  /-- The boxes that it is laid out as. -/
  | boxes
  /-- The tokens of the formula. -/
  | tokens
  deriving DecidableEq, Repr

/-- The output with a given name. -/
def Output.ofName? : List Char → Option Output
  | ['l', 'a', 't', 'e', 'x'] => some .latex
  | ['s', 'p', 'e', 'e', 'c', 'h'] => some .speech
  | ['b', 'o', 'x', 'e', 's'] => some .boxes
  | ['t', 'o', 'k', 'e', 'n', 's'] => some .tokens
  | _ => none

/-- The options. -/
inductive Opt where
  | formula
  | keys
  | output
  | display
  | settings
  | verbose
  deriving DecidableEq, Repr

namespace Opt

/-- All options. -/
def all : List Opt :=
  [formula, keys, output, display, settings, verbose]

/-- The long name of an option. -/
def long : Opt → String
  | formula => "formula"
  | keys => "type"
  | output => "output"
  | display => "display"
  | settings => "config"
  | verbose => "verbose"

/-- The short name of an option. -/
def short : Opt → Char
  | formula => 'f'
  | keys => 't'
  | output => 'o'
  | display => 'd'
  | settings => 'c'
  | verbose => 'v'

/-- Whether an option has a value. -/
def takesValue : Opt → Bool
  | display | verbose => false
  | _ => true

end Opt

/-- An option as it was given, with its value if it has one. -/
structure Given where
  option : Opt
  value : List Char
  deriving DecidableEq, Repr

/-- What an argument of the program leads to. -/
inductive Reading where
  /-- Options that are complete. -/
  | options (given : List Given)
  /-- Options of which the last one has its value in the next argument. -/
  | pending (given : List Given) (option : Opt)
  /-- The end of the options. -/
  | finish
  | malformed
  deriving DecidableEq, Repr

/-- Reads a long option without its two dashes. -/
def readLong (text : List Char) : Reading :=
  let (name, value) : List Char × Option (List Char) := match Text.cutAtFirst? '=' text with
    | some (name, value) => (name, some value)
    | none => (text, none)
  match Opt.all.find? fun o => o.long.toList == name, value with
  | none, _ => .malformed
  | some o, some value => if o.takesValue then .options [⟨o, value⟩] else .malformed
  | some o, none => if o.takesValue then .pending [] o else .options [⟨o, []⟩]

/-- Reads short options without their dash. -/
def readShort (given : List Given) : List Char → Reading
  | [] => .options given
  | c :: rest =>
      match Opt.all.find? fun o => o.short == c with
      | none => .malformed
      | some o =>
          if o.takesValue then
            match rest with
            | [] => .pending given o
            | '=' :: value => .options (given ++ [⟨o, value⟩])
            | value => .options (given ++ [⟨o, value⟩])
          else readShort (given ++ [⟨o, []⟩]) rest

/-- Whether an argument is taken as options rather than as a value. -/
def isOption : List Char → Bool
  | '-' :: _ :: _ => true
  | _ => false

/-- Reads one argument. -/
def readArgument : List Char → Reading
  | ['-', '-'] => .finish
  | '-' :: '-' :: text => readLong text
  | '-' :: c :: text => readShort [] (c :: text)
  | _ => .malformed

/-- Reads the arguments as a sequence of options. After the end of the options nothing may follow.
-/
def readOptions? : List (List Char) → Option (List Given)
  | [] => some []
  | argument :: rest =>
      match readArgument argument, rest with
      | .malformed, _ => none
      | .finish, [] => some []
      | .finish, _ => none
      | .options given, rest => (readOptions? rest).map (given ++ ·)
      | .pending _ _, [] => none
      | .pending given o, value :: rest =>
          if isOption value then none
          else (readOptions? rest).map (given ++ ⟨o, value⟩ :: ·)

/-- Where the formula comes from. -/
inductive Source where
  | formula (latex : String)
  /-- Keys that are typed into an empty field. -/
  | keys (keys : String)
  | standardInput
  deriving DecidableEq, Repr

/-- What the program is asked to do. -/
structure Request where
  source : Source
  output : Output
  /-- Whether display style is asked for. -/
  display : Bool
  /-- The path of the settings file. -/
  settings : Option String
  deriving DecidableEq, Repr

/-- The value of an option, if it was given. -/
def valueOf? (given : List Given) (o : Opt) : Option (List Char) :=
  (given.find? fun g => g.option == o).map Given.value

/-- Whether an option was given more than once. -/
def hasRepeated (given : List Given) : Bool :=
  Opt.all.any fun o => 1 < given.countP fun g => g.option == o

/-- The source of the formula, unless two are given. -/
def source? (given : List Given) : Option Source :=
  match valueOf? given .formula, valueOf? given .keys with
  | some _, some _ => none
  | some latex, none => some (.formula (String.ofList latex))
  | none, some keys => some (.keys (String.ofList keys))
  | none, none => some .standardInput

/-- The request of a list of options, if they make one. -/
def Request.ofOptions? (given : List Given) : Option Request := do
  let source ← source? given
  let output ← match valueOf? given .output with
    | some name => Output.ofName? name
    | none => some .latex
  let settings := (valueOf? given .settings).map String.ofList
  if hasRepeated given || settings == some "" then none
  else return ⟨source, output, (valueOf? given .display).isSome, settings⟩

/-- Reads the arguments of the program. -/
def Request.read? (arguments : List String) : Option Request :=
  (readOptions? (arguments.map String.toList)).bind Request.ofOptions?

end FormulaEditor.CommandLine

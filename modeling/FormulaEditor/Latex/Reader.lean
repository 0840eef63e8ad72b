import FormulaEditor.Latex.Lexer
import FormulaEditor.Formula.Walk

/-!
# Reading formulas

A token stream is read as a sequence of atoms. Reading never fails: commands without their arguments
become unknown commands, scripts without a base get a placeholder, environments are closed where
their end is missing, and every such repair is reported.

The reader looks at the tokens that are left. A command that lacks an argument gives its tokens
back: the reader returns to the state right after the command, and reads the arguments found so far
again as items of their own.
-/

namespace FormulaEditor.Latex

/-- How characters and commands are taken. -/
inductive ReadingMode where
  | math
  /-- Characters are literal, and only symbols and spaces may be commands. -/
  | text
  deriving DecidableEq, Repr

/-- A sequence of atoms with the repairs that were needed to read it. -/
structure Parsed where
  atoms : List Atom
  diagnostics : List Diagnostic

/-- The state of reading a token stream. -/
structure Reader where
  /-- The tokens that are left. -/
  rest : List SpannedToken
  /-- The arguments that were substituted so far. -/
  used : List Nat
  /-- The repairs so far, the latest first. -/
  problems : List Diagnostic
  /-- The supply of identities. -/
  supply : Nat

namespace Reader

/-- The next token, which is the end of input when none is left. -/
def peek (s : Reader) : Token :=
  match s.rest with
  | [] => .endOfInput
  | t :: _ => t.token

/-- The state with other tokens left. -/
def withRest (s : Reader) (rest : List SpannedToken) : Reader :=
  { s with rest := rest }

/-- The state without its next token. -/
def skip (s : Reader) : Reader :=
  s.withRest s.rest.tail

/-- The state after a problem was reported. -/
def report (s : Reader) (span : Span) (problem : Problem) : Reader :=
  { s with problems := ⟨span, problem⟩ :: s.problems }

/-- Makes atoms with new identities. -/
def mint {α : Type} (s : Reader) (m : Minting α) : α × Reader :=
  let (made, supply) := m s.supply
  (made, { s with supply := supply })

/-- An earlier state to which reading goes back. Identities that were given out stay taken. -/
def rewind (checkpoint s : Reader) : Reader :=
  { checkpoint with supply := s.supply }

/-- The state with tokens dropped until at most `n` are left. Every reading function leaves fewer
tokens than it found, so this never drops any; it is what makes the recursion evidently end. -/
def capped (s : Reader) (n : Nat) : Reader :=
  s.withRest (s.rest.drop (s.rest.length - n))

theorem length_capped (s : Reader) (n : Nat) : (s.capped n).rest.length ≤ n := by
  simp only [capped, withRest, List.length_drop]
  omega

theorem measure_capped (s : Reader) {n k bound : Nat} (h : 4 * n + k < bound) :
    4 * (s.capped n).rest.length + k < bound := by
  have hc := length_capped s n
  omega

theorem capped_of_le {s : Reader} {n : Nat} (h : s.rest.length ≤ n) : s.capped n = s := by
  have h0 : s.rest.length - n = 0 := by omega
  simp [capped, withRest, h0]

end Reader

/-- Where a sequence ends. The end of input ends every sequence. -/
inductive Stop where
  | endOfInput
  | group
  /-- The index of a radical. -/
  | bracket
  /-- A cell of an array. -/
  | cell
  deriving DecidableEq, Repr

/-- Whether a sequence ends before the token. -/
def Stop.endsAt : Stop → Token → Bool
  | _, .endOfInput => true
  | .group, .groupEnd => true
  | .bracket, .groupEnd => true
  | .bracket, .char c => c == ']'
  | .cell, .groupEnd => true
  | .cell, .alignment => true
  | .cell, .control name => name == "\\" || name == "end"
  | _, _ => false

/-- Whether a token cannot begin an argument. -/
def Token.endsArgument : Token → Bool
  | endOfInput | groupEnd | alignment | superscript | subscript => true
  | control name => name == "\\" || name == "end"
  | _ => false

namespace Reader

/-- The command of primes. -/
def primeCommand : String :=
  "\\prime"

/-- The glyph of primes. -/
def primeGlyph : Char :=
  '′'

/-- A prime. -/
def newPrime : Minting Atom :=
  Atom.newLeaf .ordinary (some primeCommand) (some primeGlyph)

/-- The kind and glyph of a literal character of math. -/
def charKind (c : Char) : Kind × Char :=
  match c with
  | '+' => (.binary, '+')
  | '-' => (.binary, '−')
  | '*' => (.binary, '∗')
  | '=' | '<' | '>' | ':' => (.relation, c)
  | ',' | ';' => (.punctuation, c)
  | '(' | '[' => (.opening, c)
  | ')' | ']' | '!' | '?' => (.closing, c)
  | '~' => (.space, ' ')
  | _ => (.ordinary, c)

/-- The atom of a literal character of math. -/
def newMathChar (c : Char) : Minting Atom :=
  if c = Text.Quoted.singleQuote then newPrime
  else if c = '~' then Atom.newLeaf .space (some "~") none
  else
    let (kind, glyph) := charKind c
    Atom.newLeaf kind (some (String.singleton c)) (some glyph)

/-- A command without a meaning, which is shown as an error. -/
def newUnknownCommand (command : String) : Minting Atom := do
  let a ← Atom.newLeaf .unknownCommand (some command) none
  return a.markError

/-- Appends a new atom to a sequence, whose latest atom comes first. -/
def push (done : List Atom) (m : Minting Atom) (s : Reader) : List Atom × Reader :=
  let (a, s) := s.mint m
  (a :: done, s)

/-- Reports a command as unknown, or as lacking arguments, and keeps it as it is written. -/
def pushUnknown (done : List Atom) (command : String) (problem : Problem) (span : Span)
    (s : Reader) : List Atom × Reader :=
  push done (newUnknownCommand command) (s.report span problem)

/-- Gives an atom a branch, or leaves it alone if it cannot have the branch. -/
def withBranch (a : Atom) (slot : Slot) (content : List Atom) : Minting Atom := do
  return (a.setBranch slot content (← newIdentity)).getD a

/-- Attaches a script to the latest atom. A placeholder is put in as the base where the latest atom
takes no scripts, and where it has the script already, which is a problem. -/
def attachScript (slot : Slot) (content : List Atom) (done : List Atom) (span : Span)
    (s : Reader) : List Atom × Reader :=
  let onPlaceholder (s : Reader) (error : Bool) : List Atom × Reader :=
    push done (do
      let base ← Atom.newPlaceholder
      withBranch (if error then base.markError else base) slot content) s
  match done with
  | [] => onPlaceholder s false
  | last :: before =>
      if last.kind.allowsScripts then
        if (last.branch slot).isNone then push before (withBranch last slot content) s
        else onPlaceholder (s.report span .duplicateScript) true
      else onPlaceholder s false

/-- Adds a prime to the latest atom: to a superscript of primes, or as a new superscript. -/
def attachPrime (done : List Atom) (span : Span) (s : Reader) : List Atom × Reader :=
  let (prime, s) := s.mint newPrime
  let isPrime (a : Atom) : Bool := a.value == some primeCommand
  match done with
  | last :: before =>
      match last.branch .superscript with
      | some sup =>
          if last.kind.allowsScripts && sup.all isPrime then
            (last.putBranch .superscript (some (sup ++ [prime])) :: before, s)
          else attachScript .superscript [prime] done span s
      | none => attachScript .superscript [prime] done span s
  | [] => attachScript .superscript [prime] done span s

/-- The atoms that a reference stands for. The first use of an argument keeps its identities and
later uses are copies; a missing or empty argument is a placeholder. -/
def substitute (args : List (List Atom)) (ref : ArgumentRef) (s : Reader) : List Atom × Reader :=
  let placeholder (s : Reader) : List Atom × Reader := s.mint (Atom.filled [])
  let argument (i : Nat) : List Atom × Reader :=
    match args[i]? with
    | none | some [] => placeholder s
    | some atoms =>
        if s.used.contains i then s.mint (Atom.relabelList atoms)
        else (atoms, { s with used := i :: s.used })
  match ref with
  | .index i => argument i
  | .implicit => argument 0
  | .placeholder => placeholder s

/-- Reads characters up to the end of a group, passing over all other tokens. -/
def nameChars : List SpannedToken → List Char × List SpannedToken
  | [] => ([], [])
  | t :: rest =>
      match t.token with
      | .groupEnd | .endOfInput => ([], rest)
      | .char c =>
          let (name, rest) := nameChars rest
          (c :: name, rest)
      | _ => nameChars rest

/-- Reads the name of an environment in braces, if there is one. -/
def environmentName (s : Reader) : Option String × Reader :=
  match s.peek with
  | .groupBegin =>
      let (name, rest) := nameChars s.rest.tail
      (some (String.ofList name), s.withRest rest)
  | _ => (none, s)

/-- The index of a radical without the braces that protect it: a lone group stands for its
content. -/
def unprotected : List Atom → List Atom
  | [a] => if a.isBareGroup then a.body else [a]
  | atoms => atoms

/-- The rows of an environment, without the empty row that a separator at the end leaves. -/
def withoutEmptyLast (rows : List (List (List Atom))) : List (List (List Atom)) :=
  match rows.reverse with
  | [[]] :: row :: before => (row :: before).reverse
  | _ => rows

/-- An array of rows of cells. -/
def newArray (name : String) (rows : List (List (List Atom))) : Minting Atom := do
  let rows ← rows.mapM fun cells => do
    let cells ← cells.mapM fun content => Atom.newWrapper .cell none content
    Atom.newWrapper .row none cells
  Atom.newWrapper .array (some name) rows

/-- The atom of a command that takes arguments, given its arguments and, for a radical, its index.
-/
def newWithArguments (action : Action) (command : String) (args : List (List Atom))
    (index : Option (List Atom)) : Minting Atom :=
  let arg (i : Nat) : List Atom := args.getD i []
  match action with
  | .fraction => Atom.newFraction command (arg 0) (arg 1)
  | .radical => Atom.newRadical (arg 0) index
  | .accent glyph => do
      let a ← Atom.newWrapper .accent (some command) (arg 0)
      return a.withGlyph (some glyph)
  | .font => Atom.newWrapper .font (some command) (arg 0)
  | _ => Atom.newWrapper .text (some command) (arg 0)

variable (args : List (List Atom))

mutual

/-- Reads items up to the end of the sequence. `done` holds the atoms read so far, the latest
first. -/
def readItems (stop : Stop) (mode : ReadingMode) (done : List Atom) (s : Reader) :
    List Atom × Reader :=
  match _h : s.rest with
  | [] => (done.reverse, s)
  | t :: rest =>
      if stop.endsAt t.token then (done.reverse, s)
      else
        let item := readItem mode done s
        readItems stop mode item.1 (item.2.capped rest.length)
termination_by 4 * s.rest.length + 1
decreasing_by
  · omega
  · apply measure_capped
    simp only [_h, List.length_cons]
    omega

/-- Reads one item and appends its atoms. A script is attached to the latest atom instead. -/
def readItem (mode : ReadingMode) (done : List Atom) (s : Reader) : List Atom × Reader :=
  match _h : s.rest with
  | [] => (done, s)
  | t :: rest =>
      let after := s.withRest rest
      match t.token with
      | .endOfInput => (done, after)
      | .superscript => readScript .superscript mode done t.span after
      | .subscript => readScript .subscript mode done t.span after
      | .char c =>
          match mode with
          | .math =>
              if c = Text.Quoted.singleQuote then attachPrime done t.span after
              else push done (newMathChar c) after
          | .text => push done (Atom.newChar .ordinary c) after
      | .groupBegin =>
          let content := readGroup mode after
          push done (Atom.newWrapper .group none content.1) content.2
      | .groupEnd => (done, after.report t.span .unmatchedClose)
      | .alignment =>
          push done (do return (← Atom.newChar .ordinary '&').markError)
            (after.report t.span (.disallowedChar '&'))
      | .argument ref =>
          let atoms := substitute args ref after
          (atoms.1.reverse ++ done, atoms.2)
      | .control name => readCommand name t.span mode done after
termination_by 4 * s.rest.length
decreasing_by
  all_goals simp only [_h, withRest, List.length_cons]
  all_goals omega

/-- Reads the rest of a group whose opening brace was read. -/
def readGroup (mode : ReadingMode) (s : Reader) : List Atom × Reader :=
  let content := readItems .group mode [] s
  match content.2.peek with
  | .groupEnd => (content.1, content.2.skip)
  | _ => content
termination_by 4 * s.rest.length + 2

/-- Reads an argument: the content of a group, or a single item. There is none before a token that
cannot begin an argument. -/
def readArgument (mode : ReadingMode) (s : Reader) : Option (List Atom) × Reader :=
  match _h : s.rest with
  | [] => (none, s)
  | t :: rest =>
      if t.token = .groupBegin then
        let content := readGroup mode (s.withRest rest)
        (some content.1, content.2)
      else if t.token.endsArgument then (none, s)
      else
        let item := readItem mode [] s
        (some item.1.reverse, item.2)
termination_by 4 * s.rest.length + 1
decreasing_by
  all_goals simp only [_h, withRest, List.length_cons]
  all_goals omega

/-- Reads the content of a script and attaches it to the latest atom. -/
def readScript (slot : Slot) (mode : ReadingMode) (done : List Atom) (span : Span) (s : Reader) :
    List Atom × Reader :=
  let argument := readArgument mode s
  match argument.1 with
  | some content => attachScript slot content done span argument.2
  | none =>
      let content := (argument.2.report span .missingArgument).mint (Atom.filled [])
      attachScript slot content.1 done span content.2
termination_by 4 * s.rest.length + 2

/-- Reads `count` arguments, or tells how many were found before the first one that is missing. -/
def readArguments (mode : ReadingMode) (count : Nat) (s : Reader) :
    Except Nat (List (List Atom)) × Reader :=
  match count with
  | 0 => (.ok [], s)
  | count + 1 =>
      match _h : s.rest with
      | [] => (.error 0, s)
      | _ :: rest =>
          let first := readArgument mode s
          match first.1 with
          | none => (.error 0, first.2)
          | some content =>
              let others := readArguments mode count (first.2.capped rest.length)
              match others.1 with
              | .ok contents => (.ok (content :: contents), others.2)
              | .error found => (.error (found + 1), others.2)
termination_by 4 * s.rest.length + 2
decreasing_by
  · omega
  · apply measure_capped
    simp only [_h, List.length_cons]
    omega

/-- Reads the index of a radical in brackets, if there is one. -/
def readIndex (s : Reader) : Option (List Atom) × Reader :=
  match _h : s.rest with
  | [] => (none, s)
  | t :: rest =>
      if t.token = .char '[' then
        let content := readItems .bracket .math [] (s.withRest rest)
        let after := if content.2.peek = .char ']' then content.2.skip else content.2
        (some (unprotected content.1), after)
      else (none, s)
termination_by 4 * s.rest.length + 2
decreasing_by
  simp only [_h, withRest, List.length_cons]
  omega

/-- Reads the rows of an environment up to its end. `cells` and `rows` hold what was read so far,
the latest first. -/
def readRows (name : String) (span : Span) (cells : List (List Atom))
    (rows : List (List (List Atom))) (s : Reader) : List (List (List Atom)) × Reader :=
  let content := readItems .cell .math [] s
  let cells := content.1 :: cells
  let finished := withoutEmptyLast (cells.reverse :: rows).reverse
  let after := content.2.capped s.rest.length
  match _h : after.rest with
  | [] => (finished, after.report span (.unclosedEnvironment name))
  | t :: rest =>
      match t.token with
      | .alignment => readRows name span cells rows (after.withRest rest)
      | .control command =>
          if command = "\\" then
            readRows name span [] (cells.reverse :: rows) (after.withRest rest)
          else if command = "end" then
            let ended := environmentName (after.withRest rest)
            let found := ended.1.getD ""
            if found = name then (finished, ended.2)
            else (finished, ended.2.report t.span (.mismatchedEnvironment name found))
          else (finished, after.report span (.unclosedEnvironment name))
      | _ => (finished, after.report span (.unclosedEnvironment name))
termination_by 4 * s.rest.length + 2
decreasing_by
  · omega
  all_goals
    have hc : after.rest.length ≤ s.rest.length := length_capped content.2 s.rest.length
    rw [_h, List.length_cons] at hc
    simp only [withRest]
    omega

/-- Reads what follows a command and appends its atom. -/
def readCommand (name : String) (span : Span) (mode : ReadingMode) (done : List Atom)
    (s : Reader) : List Atom × Reader :=
  let command := Vocabulary.command name
  match (Vocabulary.find? name).filter fun m => mode == .math || m.action.allowedInText with
  | none => pushUnknown done command (.unknownCommand command) span s
  | some meaning =>
      match meaning.action with
      | .symbol kind glyph => push done (Atom.newLeaf kind (some command) (some glyph)) s
      | .function => push done (Atom.newLeaf .operator (some command) none) s
      | .space => push done (Atom.newLeaf .space (some command) none) s
      | .placeholder =>
          if s.peek = .groupBegin ∧ s.skip.peek = .groupEnd then
            push done Atom.newPlaceholder s.skip.skip
          else push done Atom.newPlaceholder s
      | .newRow => (done, s)
      | .endEnvironment => (done, (environmentName (s.report span .unmatchedClose)).2)
      | .beginEnvironment =>
          let named := environmentName s
          match named.1 with
          | none => pushUnknown done command (.argumentCount command meaning.arity 0) span s
          | some environment =>
              let known := Vocabulary.isArrayEnvironment environment
              let start :=
                if known then named.2 else named.2.report span (.unknownEnvironment environment)
              let rows := readRows environment span [] [] (start.capped s.rest.length)
              if known then push done (newArray environment rows.1) rows.2
              else push done (Atom.newWrapper .group none rows.1.flatten.flatten) rows.2
      | action =>
          let index := if action = .radical then readIndex s else (none, s)
          let argumentMode := if action = .text then .text else .math
          let contents :=
            readArguments argumentMode meaning.arity (index.2.capped s.rest.length)
          match contents.1 with
          | .ok contents' =>
              push done (newWithArguments action command contents' index.1) contents.2
          | .error found =>
              pushUnknown done command (.argumentCount command meaning.arity found) span
                (rewind s contents.2)
termination_by 4 * s.rest.length + 3
decreasing_by
  · exact measure_capped _ (by omega)
  · omega
  · exact measure_capped _ (by omega)

end

/-- The state before a token stream is read. -/
def start (tokens : List SpannedToken) (supply : Nat) : Reader :=
  ⟨tokens, [], [], supply⟩

/-- Reads a token stream from the given state. -/
def readAll (mode : ReadingMode) (s : Reader) : List Atom × Reader :=
  readItems args .endOfInput mode [] s

end Reader

/-- Reads a token stream as atoms. `args` are the arguments of the fragment. -/
def parse (tokens : List SpannedToken) (mode : ReadingMode) (args : List (List Atom)) :
    Minting Parsed := fun supply =>
  let (atoms, s) := Reader.readAll args mode (Reader.start tokens supply)
  (⟨atoms, s.problems.reverse⟩, s.supply)

/-- Reads a fragment. The diagnostics of its tokens come first. -/
def parseFragment (source : String) (mode : ReadingMode) (args : List (List Atom)) :
    Minting Parsed := do
  let read := tokenize source
  let parsed ← parse read.tokens mode args
  return ⟨parsed.atoms, read.diagnostics ++ parsed.diagnostics⟩

/-- Reads a formula. -/
def parseFormula (source : String) : Minting Parsed :=
  parseFragment source .math []

end FormulaEditor.Latex

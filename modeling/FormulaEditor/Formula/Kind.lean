/-!
# Kinds of atoms

The kind of an atom fixes everything about it that does not depend on its content: which branches
it has, whether it carries scripts, and how it is spaced. The kinds follow the atom classes of TeX,
with containers, placeholders and the characters of a command being typed beside them.
-/

namespace FormulaEditor

/-- The spacing classes of TeX. -/
inductive SpacingClass where
  | ordinary
  | operator
  | binary
  | relation
  | opening
  | closing
  | punctuation
  | inner
  deriving DecidableEq, Repr

/-- The branches that an atom has besides its scripts. -/
inductive Shape where
  | leaf
  /-- A body. -/
  | sequence
  /-- A numerator and a denominator. -/
  | fraction
  /-- A radicand, and an index that may be absent. -/
  | radical
  deriving DecidableEq, Repr

/-- What an atom is. -/
inductive Kind where
  /-- The one atom at the top of a formula. -/
  | root
  /-- A braced group. -/
  | group
  /-- A letter, a digit or another ordinary symbol. -/
  | ordinary
  /-- A binary operator. -/
  | binary
  | relation
  | punctuation
  /-- An opening delimiter. -/
  | opening
  /-- A closing delimiter. -/
  | closing
  /-- A large operator or a named function. -/
  | operator
  | fraction
  | radical
  /-- An accent over its body. -/
  | accent
  /-- A body set in another font. -/
  | font
  /-- A body whose characters are taken literally. -/
  | text
  /-- Horizontal space of fixed width. -/
  | space
  /-- An empty slot that waits for content. -/
  | placeholder
  /-- A control sequence without a meaning. -/
  | unknownCommand
  /-- One character of a command that is being typed. -/
  | command
  /-- A matrix-like environment, whose body holds rows. -/
  | array
  /-- A row of an array, whose body holds cells. -/
  | row
  /-- A cell of a row. -/
  | cell
  deriving DecidableEq, Repr

namespace Kind

/-- Every kind. -/
def all : List Kind :=
  [root, group, ordinary, binary, relation, punctuation, opening, closing, operator, fraction,
    radical, accent, font, text, space, placeholder, unknownCommand, command, array, row, cell]

/-- The name of a kind in listings of a formula. -/
def name : Kind → String
  | root => "root"
  | group => "group"
  | ordinary => "ord"
  | binary => "bin"
  | relation => "rel"
  | punctuation => "punct"
  | opening => "open"
  | closing => "close"
  | operator => "op"
  | fraction => "fraction"
  | radical => "radical"
  | accent => "accent"
  | font => "font"
  | text => "text"
  | space => "space"
  | placeholder => "placeholder"
  | unknownCommand => "unknown-command"
  | command => "command"
  | array => "array"
  | row => "array-row"
  | cell => "array-cell"

/-- The kind with a given name. -/
def ofName? (s : String) : Option Kind :=
  all.find? fun k => k.name == s

/-- The branches that atoms of a kind have. -/
def shape : Kind → Shape
  | root | group | accent | font | text | array | row | cell => .sequence
  | fraction => .fraction
  | radical => .radical
  | ordinary | binary | relation | punctuation | opening | closing | operator | space
  | placeholder | unknownCommand | command => .leaf

/-- Whether superscripts and subscripts may be attached. -/
def allowsScripts : Kind → Bool
  | root | row | cell | command => false
  | _ => true

/-- Whether an empty body is filled with a placeholder. -/
def requiresBody : Kind → Bool
  | accent | font | cell => true
  | _ => false

/-- Whether the body is a grid: its gaps are no positions for a caret. -/
def isGrid : Kind → Bool
  | array | row => true
  | _ => false

/-- The spacing class, or `none` for atoms that spacing looks through. -/
def spacingClass : Kind → Option SpacingClass
  | binary => some .binary
  | relation => some .relation
  | punctuation => some .punctuation
  | opening => some .opening
  | closing => some .closing
  | operator => some .operator
  | fraction | array => some .inner
  | space | command | root => none
  | _ => some .ordinary

theorem mem_all (k : Kind) : k ∈ all := by
  cases k <;> decide

theorem ofName?_name (k : Kind) : ofName? k.name = some k := by
  cases k <;> decide

end Kind

end FormulaEditor

import FormulaEditor.Text.Decimal
import FormulaEditor.Text.Quoted

/-!
# Boxes

A laid out formula is a tree of boxes. A box has a width, extends above and below its baseline, and
holds boxes placed relative to its left edge and baseline. A box may belong to an atom, and has
classes that tell how it is drawn.
-/

namespace FormulaEditor.Typeset

/-- How a box is drawn, and what it stands for. The order of the constructors is that of listings.
-/
inductive BoxClass where
  | caret
  | selected
  | error
  | suggestion
  | placeholder
  | command
  | superscript
  | subscript
  | numerator
  | denominator
  | fractionRule
  | radicalSign
  | overline
  | accent
  | delimiter
  | largeOperator
  | upright
  | bold
  | blackboard
  | calligraphic
  | fraktur
  | sansSerif
  | monospace
  | text
  | array
  deriving DecidableEq, Repr

namespace BoxClass

/-- All classes, in the order of listings. -/
def all : List BoxClass :=
  [caret, selected, error, suggestion, placeholder, command, superscript, subscript, numerator,
    denominator, fractionRule, radicalSign, overline, accent, delimiter, largeOperator, upright,
    bold, blackboard, calligraphic, fraktur, sansSerif, monospace, text, array]

/-- The name of a class in a listing. -/
def name : BoxClass → String
  | caret => "caret"
  | selected => "selected"
  | error => "error"
  | suggestion => "suggestion"
  | placeholder => "placeholder"
  | command => "command"
  | superscript => "superscript"
  | subscript => "subscript"
  | numerator => "numerator"
  | denominator => "denominator"
  | fractionRule => "fraction_rule"
  | radicalSign => "surd"
  | overline => "overline"
  | accent => "accent"
  | delimiter => "delimiter"
  | largeOperator => "large_op"
  | upright => "upright"
  | bold => "bold"
  | blackboard => "blackboard"
  | calligraphic => "calligraphic"
  | fraktur => "fraktur"
  | sansSerif => "sans_serif"
  | monospace => "monospace"
  | text => "text"
  | array => "array"

/-- The class with a given name. -/
def ofName? (s : String) : Option BoxClass :=
  all.find? fun c => c.name == s

theorem mem_all (c : BoxClass) : c ∈ all := by
  cases c <;> decide

end BoxClass

/-- What a box shows. -/
inductive BoxContent where
  /-- The boxes placed in it. -/
  | list
  | glyph (c : Char)
  /-- A filled rectangle. -/
  | rule
  /-- Empty space. -/
  | kern
  /-- The insertion point, which has no width. -/
  | caret
  deriving DecidableEq, Repr

/-- Something placed at an offset from the left edge, and raised above the baseline. -/
structure Placed (α : Type) where
  x : Float
  raise : Float
  node : α

/-- A box. Its classes are a set, listed in any order. -/
inductive MathBox where
  | mk (width height depth : Float) (content : BoxContent) (classes : List BoxClass)
      (owner : Option Nat) (parts : List (Placed MathBox))

/-- The greater of two numbers, the first one if neither is greater. -/
def greater (a b : Float) : Float :=
  if a < b then b else a

/-- The lesser of two numbers, the first one if neither is less. -/
def lesser (a b : Float) : Float :=
  if b < a then b else a

namespace MathBox

/-- The width of a box. -/
def width : MathBox → Float
  | mk width _ _ _ _ _ _ => width

/-- The extent above the baseline. -/
def height : MathBox → Float
  | mk _ height _ _ _ _ _ => height

/-- The extent below the baseline. -/
def depth : MathBox → Float
  | mk _ _ depth _ _ _ _ => depth

/-- What the box shows. -/
def content : MathBox → BoxContent
  | mk _ _ _ content _ _ _ => content

/-- The classes of the box. -/
def classes : MathBox → List BoxClass
  | mk _ _ _ _ classes _ _ => classes

/-- The atom that the box belongs to. -/
def owner : MathBox → Option Nat
  | mk _ _ _ _ _ owner _ => owner

/-- The boxes placed in the box. -/
def parts : MathBox → List (Placed MathBox)
  | mk _ _ _ _ _ _ parts => parts

/-- The whole vertical extent. -/
def totalHeight (b : MathBox) : Float :=
  b.height + b.depth

/-- A box that nothing is placed in. -/
def leaf (content : BoxContent) (width height depth : Float) : MathBox :=
  mk width height depth content [] none []

/-- A character. -/
def glyph (c : Char) (width height depth : Float) : MathBox :=
  leaf (.glyph c) width height depth

/-- Horizontal space. -/
def kern (width : Float) : MathBox :=
  leaf .kern width 0.0 0.0

/-- A rule that sits on the baseline. -/
def rule (width thickness : Float) : MathBox :=
  leaf .rule width thickness 0.0

/-- The insertion point. -/
def caret (height depth : Float) : MathBox :=
  mk 0.0 height depth .caret [.caret] none []

/-- A list that holds nothing yet. -/
def empty : MathBox :=
  leaf .list 0.0 0.0 0.0

instance : Inhabited MathBox :=
  ⟨empty⟩

/-- The box with another width. -/
def withWidth (width : Float) : MathBox → MathBox
  | mk _ height depth content classes owner parts =>
      mk width height depth content classes owner parts

/-- The box with an extent of at least the given one. -/
def withExtent (h d : Float) : MathBox → MathBox
  | mk width height depth content classes owner parts =>
      mk width (greater height h) (greater depth d) content classes owner parts

/-- The box with classes added. -/
def withClasses (added : List BoxClass) : MathBox → MathBox
  | mk width height depth content classes owner parts =>
      mk width height depth content (classes ++ added) owner parts

/-- The box of an atom. -/
def ownedBy (id : Nat) : MathBox → MathBox
  | mk width height depth content classes _ parts =>
      mk width height depth content classes (some id) parts

/-- Places a box in a list, and grows the extent of the list to cover it. The width is left alone.
-/
def place (list : MathBox) (x raise : Float) (node : MathBox) : MathBox :=
  mk list.width (greater list.height (node.height + raise))
    (greater list.depth (node.depth - raise)) list.content list.classes list.owner
    (list.parts ++ [⟨x, raise, node⟩])

/-- Places boxes side by side from an offset on. -/
def placeRow (list : MathBox) (x : Float) : List MathBox → MathBox
  | [] => list.withWidth x
  | node :: rest => (list.place x 0.0 node).placeRow (x + node.width) rest

/-- Boxes side by side on one baseline. -/
def row (nodes : List MathBox) : MathBox :=
  empty.placeRow 0.0 nodes

mutual

/-- The box and all boxes in it, outermost first. -/
def subboxes : MathBox → List MathBox
  | mk width height depth content classes owner parts =>
      mk width height depth content classes owner parts :: subboxesOfParts parts

/-- The boxes in placed boxes. -/
def subboxesOfParts : List (Placed MathBox) → List MathBox
  | [] => []
  | ⟨_, _, node⟩ :: rest => subboxes node ++ subboxesOfParts rest

end

/-- The outermost box that belongs to an atom. -/
def ofAtom? (b : MathBox) (id : Nat) : Option MathBox :=
  b.subboxes.find? fun part => part.owner == some id

/-- The first box that has all the given classes. -/
def ofClasses? (b : MathBox) (wanted : List BoxClass) : Option MathBox :=
  b.subboxes.find? fun part => wanted.all part.classes.contains

/-! ## Listings -/

/-- A measure in a listing. -/
def measureText (x : Float) : String :=
  Text.Decimal.write false 3 x

/-- The kind of a box in a listing. -/
def contentText : BoxContent → String
  | .list => "hlist"
  | .glyph c => "glyph " ++ Text.Quoted.character c
  | .rule => "rule"
  | .kern => "kern"
  | .caret => "caret"

/-- A line of a listing without the place of the box: kind, measures, atom and classes. Identities
are written by `idText`. -/
def lineText (idText : Nat → String) (b : MathBox) : String :=
  let classes := (BoxClass.all.filter b.classes.contains).map BoxClass.name
  contentText b.content ++ " w=" ++ measureText b.width ++ " h=" ++ measureText b.height ++ " d=" ++
    measureText b.depth ++ ((b.owner.map fun id => " #" ++ idText id).getD "") ++
    (if classes.isEmpty then "" else " [" ++ String.intercalate " " classes ++ "]")

mutual

/-- The lines of a listing below a box, each part under its parent and indented by two spaces. -/
def partLines (indent : String) (idText : Nat → String) : List (Placed MathBox) → List String
  | [] => []
  | ⟨x, raise, node⟩ :: rest =>
      (indent ++ "@(" ++ measureText x ++ ", " ++ Text.Decimal.write true 3 raise ++ ") " ++
          node.lineText idText) ::
        linesBelow indent idText node ++ partLines indent idText rest

/-- The lines of the boxes in a box. -/
def linesBelow (indent : String) (idText : Nat → String) : MathBox → List String
  | mk _ _ _ _ _ _ parts => partLines (indent ++ "  ") idText parts

end

/-- The listing of a box, one line for each box. -/
def lines (idText : Nat → String) (b : MathBox) : List String :=
  b.lineText idText :: linesBelow "" idText b

end MathBox

end FormulaEditor.Typeset

/-!
# Styles

TeX sets formulas in four styles, each cramped or not, and every part of a formula in the style that
its surroundings prescribe. A style fixes the size of the characters and the distances that the
rules of layout use, in ems of the base size.
-/

namespace FormulaEditor.Typeset

/-- The four levels of style. -/
inductive Level where
  | display
  | text
  | script
  | scriptscript
  deriving DecidableEq, Repr

/-- A style: a level, cramped or not. -/
structure Style where
  level : Level
  cramped : Bool
  deriving DecidableEq, Repr

/-- The sizes of characters. Display and text share one. -/
inductive Size where
  | text
  | script
  | scriptscript
  deriving DecidableEq, Repr

/-- The level of a script. -/
def Level.scriptLevel : Level → Level
  | display | text => script
  | script | scriptscript => scriptscript

/-- The level of the parts of a fraction. -/
def Level.fractionLevel : Level → Level
  | display => text
  | text => script
  | script | scriptscript => scriptscript

/-- The level of text in an array. -/
def Level.textLevel : Level → Level
  | display => display
  | _ => text

namespace Style

/-- Display style. -/
def display : Style :=
  ⟨.display, false⟩

/-- Text style. -/
def text : Style :=
  ⟨.text, false⟩

/-- Script style. -/
def script : Style :=
  ⟨.script, false⟩

/-- The style of scripts in scripts. -/
def scriptscript : Style :=
  ⟨.scriptscript, false⟩

/-- The style of a superscript. -/
def superscript (s : Style) : Style :=
  { s with level := s.level.scriptLevel }

/-- The style of a subscript, which is cramped. -/
def subscript (s : Style) : Style :=
  ⟨s.level.scriptLevel, true⟩

/-- The style of a numerator. -/
def numerator (s : Style) : Style :=
  { s with level := s.level.fractionLevel }

/-- The style of a denominator, which is cramped. -/
def denominator (s : Style) : Style :=
  ⟨s.level.fractionLevel, true⟩

/-- The cramped style of the same level. -/
def cramp (s : Style) : Style :=
  { s with cramped := true }

/-- The style of the cells of an array: never a script. -/
def inArray (s : Style) : Style :=
  { s with level := s.level.textLevel }

/-- Whether the level is display. -/
def isDisplay (s : Style) : Bool :=
  s.level == .display

/-- Whether most glue is left out. -/
def isTight (s : Style) : Bool :=
  s.level == .script || s.level == .scriptscript

/-- The size of characters. -/
def size (s : Style) : Size :=
  match s.level with
  | .display | .text => .text
  | .script => .script
  | .scriptscript => .scriptscript

/-- The size of characters relative to the base size. -/
def scale (s : Style) : Float :=
  match s.size with
  | .text => 1.0
  | .script => 0.7
  | .scriptscript => 0.5

/-- One math unit, an eighteenth of an em. -/
def unit (s : Style) : Float :=
  s.scale / 18.0

/-- The name of a style. -/
def name (s : Style) : String :=
  let level := match s.level with
    | .display => "display"
    | .text => "text"
    | .script => "script"
    | .scriptscript => "scriptscript"
  if s.cramped then level ++ "-cramped" else level

end Style

/-- The font parameters of TeX's rules. -/
structure Parameters where
  xHeight : Float
  quad : Float
  num1 : Float
  num2 : Float
  denom1 : Float
  denom2 : Float
  sup1 : Float
  sup2 : Float
  sup3 : Float
  sub1 : Float
  sub2 : Float
  supDrop : Float
  subDrop : Float
  axisHeight : Float
  ruleThickness : Float
  radicalRuleThickness : Float

namespace Parameters

/-- The parameters in ems of their own size. -/
def ofSize : Size → Parameters
  | .text =>
      ⟨0.431, 1.0, 0.677, 0.394, 0.686, 0.345, 0.413, 0.363, 0.289, 0.150, 0.247, 0.386, 0.050,
        0.250, 0.040, 0.040⟩
  | .script =>
      ⟨0.431, 1.171, 0.732, 0.384, 0.752, 0.344, 0.503, 0.431, 0.286, 0.143, 0.286, 0.353, 0.071,
        0.250, 0.049, 0.040⟩
  | .scriptscript =>
      ⟨0.431, 1.472, 0.925, 0.387, 1.025, 0.532, 0.504, 0.404, 0.294, 0.200, 0.400, 0.494, 0.100,
        0.250, 0.049, 0.040⟩

/-- The parameters as a list, in the order of the fields. -/
def toList (p : Parameters) : List Float :=
  [p.xHeight, p.quad, p.num1, p.num2, p.denom1, p.denom2, p.sup1, p.sup2, p.sup3, p.sub1, p.sub2,
    p.supDrop, p.subDrop, p.axisHeight, p.ruleThickness, p.radicalRuleThickness]

/-- The parameters multiplied by a factor. -/
def scaled (p : Parameters) (k : Float) : Parameters :=
  ⟨p.xHeight * k, p.quad * k, p.num1 * k, p.num2 * k, p.denom1 * k, p.denom2 * k, p.sup1 * k,
    p.sup2 * k, p.sup3 * k, p.sub1 * k, p.sub2 * k, p.supDrop * k, p.subDrop * k,
    p.axisHeight * k, p.ruleThickness * k, p.radicalRuleThickness * k⟩

/-- The parameters of a style in ems of the base size. -/
def ofStyle (s : Style) : Parameters :=
  (ofSize s.size).scaled s.scale

end Parameters

/-- The space after a script, at any size. -/
def scriptSpace : Float :=
  0.05

/-- The space on either side of a fraction. -/
def fractionPadding : Float :=
  0.12

end FormulaEditor.Typeset

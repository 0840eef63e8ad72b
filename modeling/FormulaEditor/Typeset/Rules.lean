import FormulaEditor.Typeset.Box
import FormulaEditor.Typeset.Glyph
import FormulaEditor.Typeset.Style

/-!
# The rules of layout

How the boxes of the parts of an atom are put together. The rules are those of TeX's appendix G, and
each is a function of boxes that are already laid out.
-/

namespace FormulaEditor.Typeset

/-- A character with a given extent. -/
def glyphOf (c : Char) (m : Measure) : MathBox :=
  MathBox.glyph c m.width m.height m.depth

/-- A character in a style. -/
def glyphIn (style : Style) (c : Char) : MathBox :=
  glyphOf c ((Measure.ofChar c).scaled style.scale)

/-- The insertion point in a style. -/
def caretIn (style : Style) : MathBox :=
  MathBox.caret (0.75 * style.scale) (0.25 * style.scale)

/-- Characters side by side, without the spacing of formulas. -/
def textRun (style : Style) (text : String) : MathBox :=
  MathBox.row (text.toList.map (glyphIn style))

/-- The box of a placeholder. -/
def placeholderIn (style : Style) : MathBox :=
  (glyphOf placeholderGlyph (Measure.placeholder.scaled style.scale)).withClasses [.placeholder]

/-- Whether a command names an upright symbol: its name starts with an upper-case letter. -/
def isUprightCommand (command : String) : Bool :=
  match command.toList with
  | '\\' :: c :: _ => 'A' ≤ c && c ≤ 'Z'
  | _ => false

/-- The box of a symbol: its glyph, or else its value character by character. -/
def symbolBox (style : Style) (glyph : Option Char) (value : String) (isOrdinary : Bool) :
    MathBox :=
  match glyph with
  | some c =>
      if isOrdinary && isUprightCommand value then (glyphIn style c).withClasses [.upright]
      else glyphIn style c
  | none => textRun style value

/-- The classes of the body of a font command. -/
def fontClasses : String → List BoxClass
  | "\\mathbb" => [.blackboard]
  | "\\mathbf" | "\\boldsymbol" => [.bold]
  | "\\mathrm" | "\\operatorname" => [.upright]
  | "\\mathcal" | "\\mathscr" => [.calligraphic]
  | "\\mathfrak" => [.fraktur]
  | "\\mathsf" => [.sansSerif]
  | "\\mathtt" => [.monospace]
  | _ => []

/-- The name of a command without its backslash. -/
def commandName (command : String) : String :=
  match command.toList with
  | '\\' :: name => String.ofList name
  | _ => command

/-- The box of an operator: a large one is centred on the axis and grows in display style, a named
function is set upright. -/
def operatorBox (style : Style) (glyph : Option Char) (value : String) : MathBox :=
  match glyph with
  | some c =>
      if isLargeOperator c then
        let grow := if style.isDisplay then 1.4 else 1.0
        let m := (Measure.ofChar c).scaled (grow * style.scale)
        let raise := (Parameters.ofStyle style).axisHeight - (m.height - m.depth) / 2.0
        let box := MathBox.empty.place 0.0 raise (glyphOf c m)
        (box.withWidth m.width).withClasses [.largeOperator]
      else glyphIn style c
  | none => (textRun style (commandName value)).withClasses [.upright]

/-- How far a superscript is raised and a subscript lowered. -/
structure ScriptShifts where
  up : Float
  down : Float

/-- The least shifts of scripts that follow from the extent of the nucleus. Those of a single
character are zero. -/
def nucleusShifts (style : Style) (nucleus : MathBox) : ScriptShifts :=
  match nucleus.content with
  | .glyph _ => ⟨0.0, 0.0⟩
  | _ =>
      ⟨nucleus.height - (Parameters.ofStyle style.superscript).supDrop,
        nucleus.depth + (Parameters.ofStyle style.subscript).subDrop⟩

/-- The least raise of a superscript in a style. -/
def leastRaise (style : Style) : Float :=
  let p := Parameters.ofStyle style
  if style.isDisplay && !style.cramped then p.sup1 else if style.cramped then p.sup3 else p.sup2

/-- The raise of a superscript. -/
def raiseOf (style : Style) (up : Float) (sup : MathBox) : Float :=
  greater (greater up (leastRaise style)) (sup.depth + 0.25 * (Parameters.ofStyle style).xHeight)

/-- The drop of a subscript that stands alone. -/
def dropOf (style : Style) (down : Float) (sub : MathBox) : Float :=
  let p := Parameters.ofStyle style
  greater (greater down p.sub1) (sub.height - 0.8 * p.xHeight)

/-- The shifts of two scripts, which are kept four rules apart. -/
def shiftsOfBoth (style : Style) (least : ScriptShifts) (sup sub : MathBox) : ScriptShifts :=
  let p := Parameters.ofStyle style
  let up := raiseOf style least.up sup
  let down := greater least.down p.sub2
  let gap := 4.0 * p.ruleThickness
  if (up - sup.depth) - (sub.height - down) < gap then
    let down := gap - (up - sup.depth) + sub.height
    let lift := 0.8 * p.xHeight - (up - sup.depth)
    if lift > 0.0 then ⟨up + lift, down - lift⟩ else ⟨up, down⟩
  else ⟨up, down⟩

/-- The nucleus with its scripts, which start at its right edge. -/
def withScripts (style : Style) (nucleus : MathBox) (sup sub : Option MathBox) : MathBox :=
  let least := nucleusShifts style nucleus
  let base := MathBox.empty.place 0.0 0.0 nucleus
  match sup, sub with
  | none, none => base.withWidth (nucleus.width + 0.0 + scriptSpace)
  | some sup, none =>
      (base.place nucleus.width (raiseOf style least.up sup) sup).withWidth
        (nucleus.width + greater 0.0 sup.width + scriptSpace)
  | none, some sub =>
      (base.place nucleus.width (-(dropOf style least.down sub)) sub).withWidth
        (nucleus.width + greater 0.0 sub.width + scriptSpace)
  | some sup, some sub =>
      let shifts := shiftsOfBoth style least sup sub
      ((base.place nucleus.width shifts.up sup).place nucleus.width (-shifts.down) sub).withWidth
        (nucleus.width + greater (greater 0.0 sup.width) sub.width + scriptSpace)

/-- The style that a fraction is set in: two of the commands fix it. -/
def fractionStyle (style : Style) : String → Style
  | "\\dfrac" => Style.display
  | "\\tfrac" => Style.text
  | _ => style

/-- A numerator and a denominator, centred above and below a rule on the axis. -/
def fractionBox (style : Style) (num den : MathBox) : MathBox :=
  let p := Parameters.ofStyle style
  let rule := p.ruleThickness
  let axis := p.axisHeight
  let up := if style.isDisplay then p.num1 else p.num2
  let down := if style.isDisplay then p.denom1 else p.denom2
  let clearance := if style.isDisplay then 3.0 * rule else rule
  let numGap := (up - num.depth) - (axis + 0.5 * rule)
  let up := if numGap < clearance then up + (clearance - numGap) else up
  let denGap := (axis - 0.5 * rule) - (den.height - down)
  let down := if denGap < clearance then down + (clearance - denGap) else down
  let inner := greater num.width den.width
  let bar := (MathBox.rule inner rule).withClasses [.fractionRule]
  (((MathBox.empty.place (fractionPadding + (inner - num.width) / 2.0) up num).place
      fractionPadding (axis - 0.5 * rule) bar).place
        (fractionPadding + (inner - den.width) / 2.0) (-down) den).withWidth
    (inner + 2.0 * fractionPadding)

/-- A radicand under its sign, with the index raised into the crook of the sign. -/
def radicalBox (style : Style) (radicand : MathBox) (index : Option MathBox) : MathBox :=
  let p := Parameters.ofStyle style
  let rule := p.ruleThickness
  let slack := if style.isDisplay then p.xHeight else rule
  let clearance := rule + slack / 4.0
  let signHeight := radicand.height + clearance + rule
  let signWidth := radicalSignWidth * style.scale
  let sign := MathBox.glyph radicalSign signWidth signHeight radicand.depth
  let sign := sign.withClasses [.radicalSign]
  let lead := 5.0 * style.unit
  let start := match index with
    | none => MathBox.empty
    | some index => MathBox.empty.place lead (0.6 * (signHeight - radicand.depth)) index
  let x := match index with
    | none => 0.0
    | some index => greater (lead + index.width - 10.0 * style.unit) 0.0
  let inner := x + signWidth
  let bar := (MathBox.rule radicand.width rule).withClasses [.overline]
  (((start.place x 0.0 sign).place inner (radicand.height + clearance) bar).place
    inner 0.0 radicand).withWidth (inner + radicand.width)

/-- The mark of an accent that has none. -/
def defaultAccent : Char :=
  'ˆ'

/-- A body with a mark centred over it. -/
def accentBox (style : Style) (glyph : Option Char) (body : MathBox) : MathBox :=
  let m := Measure.accentMark.scaled style.scale
  let raise := body.height - lesser body.height (Parameters.ofStyle style).xHeight
  let mark := (glyphOf (glyph.getD defaultAccent) m).withClasses [.accent]
  ((MathBox.empty.place 0.0 0.0 body).place ((body.width - m.width) / 2.0) raise mark).withWidth
    (greater body.width m.width)

end FormulaEditor.Typeset

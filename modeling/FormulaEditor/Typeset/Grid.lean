import FormulaEditor.Typeset.Rules

/-!
# Grids

The cells of an array are set in columns and its rows are stacked, each at least as tall as a strut.
The grid is centred on the axis and stands between the fences of its environment.
-/

namespace FormulaEditor.Typeset

/-- A row whose cells are laid out. -/
structure GridRow where
  /-- The atom that the row belongs to. -/
  owner : Nat
  cells : List MathBox

/-- Widens columns to hold the cells of a row, and adds columns for cells beyond them. -/
def widen : List Float → List MathBox → List Float
  | widths, [] => widths
  | [], cell :: cells => greater 0.0 cell.width :: widen [] cells
  | width :: widths, cell :: cells => greater width cell.width :: widen widths cells

/-- The widths of the columns of a grid. -/
def columnWidths (rows : List GridRow) : List Float :=
  rows.foldl (fun widths row => widen widths row.cells) []

/-- The extent of a row above and below its baseline. -/
def rowExtent (k : Float) (row : GridRow) : Float × Float :=
  row.cells.foldl (fun (h, d) cell => (greater h cell.height, greater d cell.depth))
    (0.84 * k, 0.36 * k)

/-- Places cells in their columns from an offset on, with a gap between columns. -/
def placeCells (gap : Float) (toLeft : Bool) : MathBox → Float → List MathBox → List Float → MathBox
  | list, x, cell :: cells, width :: widths =>
      let cellX := if toLeft then x else x + (width - cell.width) / 2.0
      placeCells gap toLeft (list.place cellX 0.0 cell) (x + (width + gap)) cells widths
  | list, _, _, _ => list

/-- Where the rows of a grid go. -/
structure GridPlan where
  /-- The size of the surrounding style, which is also the gap between columns. -/
  unit : Float
  widths : List Float
  width : Float
  /-- The height of the upper edge above the baseline. -/
  top : Float
  /-- Whether cells are set to the left of their columns instead of centred. -/
  toLeft : Bool

/-- Places rows below each other. `used` is the distance from the upper edge. -/
def placeRows (plan : GridPlan) : MathBox → Float → List GridRow → MathBox
  | grid, _, [] => grid
  | grid, used, row :: rows =>
      let (height, depth) := rowExtent plan.unit row
      let baseline := used + height
      let cells := placeCells plan.unit plan.toLeft MathBox.empty 0.0 row.cells plan.widths
      let box := (cells.withWidth plan.width).withExtent height depth
      placeRows plan (grid.place 0.0 (plan.top - baseline) (box.ownedBy row.owner))
        (baseline + depth) rows

/-- The delimiters of an environment. -/
def fences : String → Option Char × Option Char
  | "pmatrix" => (some '(', some ')')
  | "bmatrix" => (some '[', some ']')
  | "Bmatrix" => (some (Char.ofNat 0x7b), some (Char.ofNat 0x7d))
  | "vmatrix" => (some '|', some '|')
  | "Vmatrix" => (some '‖', some '‖')
  | "cases" => (some (Char.ofNat 0x7b), none)
  | _ => (none, none)

/-- The grid without its delimiters. -/
def bareGrid (style : Style) (environment : String) (rows : List GridRow) : MathBox :=
  let k := style.scale
  let widths := columnWidths rows
  let width := widths.foldl (· + ·) 0.0 + k * (widths.length - 1).toFloat
  let total := ((rows.map (rowExtent k)).map fun (h, d) => h + d).foldl (· + ·) 0.0
  let top := total / 2.0 + (Parameters.ofStyle style).axisHeight
  ((placeRows ⟨k, widths, width, top, environment == "cases"⟩ MathBox.empty 0.0 rows).withWidth
    width).withClasses [.array]

/-- The grid between its delimiters, which are as tall as it is. -/
def gridBox (style : Style) (environment : String) (rows : List GridRow) : MathBox :=
  let grid := bareGrid style environment rows
  let k := style.scale
  let gap := MathBox.kern (0.2 * k)
  let delimiter (c : Char) : MathBox :=
    (MathBox.glyph c ((Measure.ofChar c).width * k) grid.height grid.depth).withClasses [.delimiter]
  match fences environment with
  | (none, none) => grid
  | (opening, closing) =>
      MathBox.row ((opening.map fun c => [delimiter c, gap]).getD [] ++ [grid] ++
        (closing.map fun c => [gap, delimiter c]).getD [])

end FormulaEditor.Typeset

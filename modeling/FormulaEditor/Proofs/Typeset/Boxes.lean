import FormulaEditor.Typeset.Grid

/-!
# What is placed in a box

The boxes in a box, apart from the box itself, are those placed in it and the boxes in those, in the
order of placing. Every rule of layout places the boxes that it is given, and frames of its own.
-/

namespace FormulaEditor.Typeset

namespace MathBox

variable {b node : MathBox}

/-- The boxes in a box, without the box itself. -/
def inner (b : MathBox) : List MathBox :=
  subboxesOfParts b.parts

theorem subboxes_eq (b : MathBox) : b.subboxes = b :: b.inner := by
  cases b
  rfl

theorem self_mem_subboxes (b : MathBox) : b ∈ b.subboxes :=
  subboxes_eq b ▸ List.mem_cons_self

theorem subboxesOfParts_append (xs ys : List (Placed MathBox)) :
    subboxesOfParts (xs ++ ys) = subboxesOfParts xs ++ subboxesOfParts ys := by
  induction xs with
  | nil => rfl
  | cons x rest ih => rw [List.cons_append, subboxesOfParts, subboxesOfParts, ih, List.append_assoc]

/-! ## Boxes that are changed but for what is in them -/

section

variable (b : MathBox) (width height depth : Float) (added : List BoxClass) (id : Nat)

@[simp] theorem inner_withWidth : (b.withWidth width).inner = b.inner := by cases b; rfl

@[simp] theorem inner_withExtent : (b.withExtent height depth).inner = b.inner := by cases b; rfl

@[simp] theorem inner_withClasses : (b.withClasses added).inner = b.inner := by cases b; rfl

@[simp] theorem inner_ownedBy : (b.ownedBy id).inner = b.inner := by cases b; rfl

@[simp] theorem content_withWidth : (b.withWidth width).content = b.content := by cases b; rfl

@[simp] theorem content_withExtent : (b.withExtent height depth).content = b.content := by
  cases b; rfl

@[simp] theorem content_withClasses : (b.withClasses added).content = b.content := by cases b; rfl

@[simp] theorem content_ownedBy : (b.ownedBy id).content = b.content := by cases b; rfl

@[simp] theorem classes_withWidth : (b.withWidth width).classes = b.classes := by cases b; rfl

@[simp] theorem classes_withExtent : (b.withExtent height depth).classes = b.classes := by
  cases b; rfl

@[simp] theorem classes_withClasses : (b.withClasses added).classes = b.classes ++ added := by
  cases b; rfl

@[simp] theorem classes_ownedBy : (b.ownedBy id).classes = b.classes := by cases b; rfl

@[simp] theorem owner_withWidth : (b.withWidth width).owner = b.owner := by cases b; rfl

@[simp] theorem owner_withExtent : (b.withExtent height depth).owner = b.owner := by cases b; rfl

@[simp] theorem owner_withClasses : (b.withClasses added).owner = b.owner := by cases b; rfl

@[simp] theorem owner_ownedBy : (b.ownedBy id).owner = some id := by cases b; rfl

end

/-! ## Boxes that nothing is placed in -/

section

variable (content : BoxContent) (width height depth : Float)

@[simp] theorem inner_leaf : (leaf content width height depth).inner = [] := rfl

@[simp] theorem content_leaf : (leaf content width height depth).content = content := rfl

@[simp] theorem classes_leaf : (leaf content width height depth).classes = [] := rfl

@[simp] theorem owner_leaf : (leaf content width height depth).owner = none := rfl

end

/-! ## Placing -/

section

variable (list : MathBox) (x raise : Float) (node : MathBox) (nodes : List MathBox)

@[simp] theorem inner_place : (list.place x raise node).inner = list.inner ++ node.subboxes := by
  show subboxesOfParts (list.parts ++ [⟨x, raise, node⟩]) = _
  rw [subboxesOfParts_append, subboxesOfParts, subboxesOfParts, List.append_nil, inner]

@[simp] theorem content_place : (list.place x raise node).content = list.content := rfl

@[simp] theorem classes_place : (list.place x raise node).classes = list.classes := rfl

@[simp] theorem owner_place : (list.place x raise node).owner = list.owner := rfl

@[simp] theorem inner_placeRow :
    (list.placeRow x nodes).inner = list.inner ++ nodes.flatMap subboxes := by
  induction nodes generalizing list x with
  | nil => simp [placeRow]
  | cons node rest ih => rw [placeRow, ih, inner_place, List.flatMap_cons, List.append_assoc]

@[simp] theorem content_placeRow : (list.placeRow x nodes).content = list.content := by
  induction nodes generalizing list x with
  | nil => simp [placeRow]
  | cons node rest ih => rw [placeRow, ih, content_place]

@[simp] theorem classes_placeRow : (list.placeRow x nodes).classes = list.classes := by
  induction nodes generalizing list x with
  | nil => simp [placeRow]
  | cons node rest ih => rw [placeRow, ih, classes_place]

@[simp] theorem owner_placeRow : (list.placeRow x nodes).owner = list.owner := by
  induction nodes generalizing list x with
  | nil => simp [placeRow]
  | cons node rest ih => rw [placeRow, ih, owner_place]

@[simp] theorem inner_row : (row nodes).inner = nodes.flatMap subboxes :=
  inner_placeRow empty 0.0 nodes

@[simp] theorem content_row : (row nodes).content = .list :=
  content_placeRow empty 0.0 nodes

@[simp] theorem classes_row : (row nodes).classes = [] :=
  classes_placeRow empty 0.0 nodes

@[simp] theorem owner_row : (row nodes).owner = none :=
  owner_placeRow empty 0.0 nodes

end

end MathBox

/-! ## Grids -/

section

variable {rows : List GridRow}

theorem length_widen (widths : List Float) (cells : List MathBox) :
    (widen widths cells).length = max widths.length cells.length := by
  induction widths, cells using widen.induct with
  | case1 widths => simp [widen]
  | case2 cell cells ih => simpa [widen] using ih
  | case3 width widths cell cells ih => simp [widen, ih, Nat.succ_max_succ]

/-- There is a column for every cell of every row. -/
theorem length_cells_le_columnWidths {row : GridRow} (h : row ∈ rows) :
    row.cells.length ≤ (columnWidths rows).length := by
  have hkeeps (widths : List Float) (rows : List GridRow) : widths.length ≤
      (rows.foldl (fun widths row => widen widths row.cells) widths).length := by
    induction rows generalizing widths with
    | nil => exact Nat.le_refl _
    | cons row rest ih =>
        exact Nat.le_trans (length_widen widths row.cells ▸ Nat.le_max_left ..) (ih _)
  obtain ⟨before, after, rfl⟩ := List.append_of_mem h
  rw [columnWidths, List.foldl_append, List.foldl_cons]
  exact Nat.le_trans (length_widen _ row.cells ▸ Nat.le_max_right ..) (hkeeps _ after)

end

end FormulaEditor.Typeset

import FormulaEditor.Proofs.Typeset.Boxes
import Mathlib.Data.List.Forall2

/-!
# Frames

Apart from the boxes that it is given, a rule of layout makes frames: boxes for signs, rules and
lists, which belong to the atom that is laid out or to none. A box encloses others if it is a frame,
and what is in it are those others with frames between them.
-/

namespace FormulaEditor.Typeset

/-- A box that belongs to no atom but the given one, and is neither a caret nor selected. -/
structure IsFrame (id : Nat) (b : MathBox) : Prop where
  owner : ∀ other, b.owner = some other → other = id
  content : b.content ≠ .caret
  classes : .selected ∉ b.classes

/-- Boxes, listed with the boxes in them, among frames. -/
inductive Framed (id : Nat) : List MathBox → List MathBox → Prop
  | nil : Framed id [] []
  | frame {b : MathBox} {boxes parts : List MathBox} :
      IsFrame id b → Framed id boxes parts → Framed id (b :: boxes) parts
  | part (b : MathBox) {boxes parts : List MathBox} :
      Framed id boxes parts → Framed id (b.subboxes ++ boxes) (b :: parts)

/-- A frame around boxes. -/
structure Encloses (id : Nat) (b : MathBox) (parts : List MathBox) : Prop where
  isFrame : IsFrame id b
  framed : Framed id b.inner parts

variable {id : Nat} {b node list nucleus num den radicand body : MathBox}
  {sup sub index : Option MathBox} {boxes boxes' nodes parts parts' : List MathBox}

/-! ## Sequences of boxes -/

theorem Framed.append (h : Framed id boxes parts) (h' : Framed id boxes' parts') :
    Framed id (boxes ++ boxes') (parts ++ parts') := by
  induction h with
  | nil => exact h'
  | frame hframe _ ih => exact .frame hframe ih
  | part b _ ih =>
      rw [List.append_assoc]
      exact .part b ih

/-- Frames on both sides add nothing. -/
theorem Framed.between (h : Framed id boxes parts) {before after : List MathBox}
    (hbefore : Framed id before []) (hafter : Framed id after []) :
    Framed id (before ++ boxes ++ after) parts := by
  have hall := (hbefore.append h).append hafter
  rwa [List.nil_append, List.append_nil] at hall

theorem framed_parts (id : Nat) (nodes : List MathBox) :
    Framed id (nodes.flatMap MathBox.subboxes) nodes := by
  induction nodes with
  | nil => exact .nil
  | cons node rest ih =>
      rw [List.flatMap_cons]
      exact .part node ih

theorem Encloses.framed_subboxes (h : Encloses id b parts) : Framed id b.subboxes parts := by
  rw [MathBox.subboxes_eq]
  exact .frame h.isFrame h.framed

/-- What no frame has is found in the parts only. -/
theorem Framed.filter (h : Framed id boxes parts) {p : MathBox → Bool}
    (hp : ∀ b, IsFrame id b → p b = false) :
    boxes.filter p = parts.flatMap fun b => b.subboxes.filter p := by
  induction h with
  | nil => rfl
  | frame hframe _ ih => rw [List.filter_cons_of_neg (by simp [hp _ hframe]), ih]
  | part b _ ih => rw [List.filter_append, ih, List.flatMap_cons]

theorem Framed.subset (h : Framed id boxes parts) (hb : b ∈ parts) : b.subboxes ⊆ boxes := by
  induction h with
  | nil => cases hb
  | frame _ _ ih => exact List.subset_cons_of_subset _ (ih hb)
  | part c _ ih =>
      rcases List.mem_cons.1 hb with rfl | hb
      · exact List.subset_append_left ..
      · exact List.subset_append_of_subset_right _ (ih hb)

/-! ## Putting frames together -/

theorem encloses_leaf (id : Nat) {content : BoxContent} (h : content ≠ .caret)
    (width height depth : Float) : Encloses id (MathBox.leaf content width height depth) [] :=
  ⟨⟨nofun, h, nofun⟩, .nil⟩

theorem encloses_empty (id : Nat) : Encloses id MathBox.empty [] :=
  encloses_leaf id BoxContent.noConfusion _ _ _

theorem encloses_row (h : Framed id (nodes.flatMap MathBox.subboxes) parts) :
    Encloses id (MathBox.row nodes) parts where
  isFrame := ⟨by simp, by simp, by simp⟩
  framed := by rwa [MathBox.inner_row]

namespace Encloses

/-- A frame may be changed in anything but what is in it. -/
theorem of_eq {b' : MathBox} (h : Encloses id b parts) (howner : b'.owner = b.owner)
    (hcontent : b'.content = b.content) (hclasses : b'.classes = b.classes)
    (hinner : b'.inner = b.inner) : Encloses id b' parts :=
  ⟨⟨howner ▸ h.isFrame.owner, hcontent ▸ h.isFrame.content, hclasses ▸ h.isFrame.classes⟩,
    hinner ▸ h.framed⟩

theorem withWidth (h : Encloses id b parts) (width : Float) :
    Encloses id (b.withWidth width) parts :=
  h.of_eq (by simp) (by simp) (by simp) (by simp)

theorem withExtent (h : Encloses id b parts) (height depth : Float) :
    Encloses id (b.withExtent height depth) parts :=
  h.of_eq (by simp) (by simp) (by simp) (by simp)

theorem withClasses (h : Encloses id b parts) {added : List BoxClass} (ha : .selected ∉ added) :
    Encloses id (b.withClasses added) parts := by
  refine ⟨⟨?_, ?_, ?_⟩, ?_⟩
  · simpa using h.isFrame.owner
  · simpa using h.isFrame.content
  · simpa using not_or.2 ⟨h.isFrame.classes, ha⟩
  · simpa using h.framed

theorem ownedBy (h : Encloses id b parts) : Encloses id (b.ownedBy id) parts := by
  refine ⟨⟨?_, ?_, ?_⟩, ?_⟩
  · simp
  · simpa using h.isFrame.content
  · simpa using h.isFrame.classes
  · simpa using h.framed

theorem place (h : Encloses id list parts) (hnode : Framed id node.subboxes parts')
    (x raise : Float) : Encloses id (list.place x raise node) (parts ++ parts') := by
  refine ⟨⟨h.isFrame.owner, h.isFrame.content, h.isFrame.classes⟩, ?_⟩
  rw [MathBox.inner_place]
  exact h.framed.append hnode

/-- Placing a frame encloses nothing more. -/
theorem placeFrame (h : Encloses id list parts) (hnode : Encloses id node []) (x raise : Float) :
    Encloses id (list.place x raise node) parts := by
  have hplaced := h.place hnode.framed_subboxes x raise
  rwa [List.append_nil] at hplaced

theorem placePart (h : Encloses id list parts) (x raise : Float) (node : MathBox) :
    Encloses id (list.place x raise node) (parts ++ [node]) :=
  h.place (List.flatMap_singleton MathBox.subboxes node ▸ framed_parts id [node]) x raise

end Encloses

/-! ## Symbols -/

section

variable (id : Nat) (style : Style)

theorem encloses_glyphOf (c : Char) (m : Measure) : Encloses id (glyphOf c m) [] :=
  encloses_leaf id BoxContent.noConfusion _ _ _

theorem encloses_glyphIn (c : Char) : Encloses id (glyphIn style c) [] :=
  encloses_glyphOf id c _

theorem encloses_kern (width : Float) : Encloses id (MathBox.kern width) [] :=
  encloses_leaf id BoxContent.noConfusion _ _ _

theorem encloses_rule (width thickness : Float) : Encloses id (MathBox.rule width thickness) [] :=
  encloses_leaf id BoxContent.noConfusion _ _ _

theorem encloses_placeholderIn : Encloses id (placeholderIn style) [] :=
  (encloses_glyphOf id _ _).withClasses (by decide)

/-- Frames side by side. -/
theorem framed_of_forall (h : ∀ node ∈ nodes, Encloses id node []) :
    Framed id (nodes.flatMap MathBox.subboxes) [] := by
  induction nodes with
  | nil => exact .nil
  | cons node rest ih =>
      obtain ⟨hnode, hrest⟩ := List.forall_mem_cons.1 h
      rw [List.flatMap_cons]
      exact hnode.framed_subboxes.append (ih hrest)

theorem framed_getD_map {f : Char → List MathBox} (h : ∀ c, ∀ node ∈ f c, Encloses id node [])
    (c : Option Char) : Framed id (((c.map f).getD []).flatMap MathBox.subboxes) [] := by
  refine framed_of_forall id ?_
  cases c with
  | none => exact nofun
  | some c => exact h c

theorem encloses_textRun (text : String) : Encloses id (textRun style text) [] := by
  refine encloses_row (framed_of_forall id fun node hnode => ?_)
  obtain ⟨c, -, rfl⟩ := List.mem_map.1 hnode
  exact encloses_glyphIn id style c

theorem encloses_symbolBox (glyph : Option Char) (value : String) (isOrdinary : Bool) :
    Encloses id (symbolBox style glyph value isOrdinary) [] := by
  unfold symbolBox
  split
  · split
    · exact (encloses_glyphIn id style _).withClasses (by decide)
    · exact encloses_glyphIn id style _
  · exact encloses_textRun id style value

theorem encloses_operatorBox (glyph : Option Char) (value : String) :
    Encloses id (operatorBox style glyph value) [] := by
  unfold operatorBox
  split
  · split
    · exact (((encloses_empty id).placeFrame (encloses_glyphOf id _ _) _ _).withWidth _).withClasses
        (by decide)
    · exact encloses_glyphIn id style _
  · exact (encloses_textRun id style _).withClasses (by decide)

end

/-! ## Rules of layout -/

/-- A frame that may be absent, and encloses nothing then. -/
def EnclosesOption (id : Nat) : Option MathBox → List MathBox → Prop
  | none, parts => parts = []
  | some b, parts => Encloses id b parts

theorem Encloses.fractionBox (hnum : Encloses id num parts) (hden : Encloses id den parts')
    (style : Style) : Encloses id (fractionBox style num den) (parts ++ parts') := by
  have hbar (width thickness : Float) :
      Encloses id ((MathBox.rule width thickness).withClasses [.fractionRule]) [] :=
    (encloses_rule id width thickness).withClasses (by decide)
  exact ((((encloses_empty id).place hnum.framed_subboxes _ _).placeFrame (hbar _ _) _ _).place
    hden.framed_subboxes _ _).withWidth _

theorem Encloses.radicalBox (hradicand : Encloses id radicand parts)
    (hindex : EnclosesOption id index parts') (style : Style) :
    Encloses id (radicalBox style radicand index) (parts' ++ parts) := by
  have hsign (width height depth : Float) :
      Encloses id ((MathBox.glyph radicalSign width height depth).withClasses [.radicalSign]) [] :=
    (encloses_leaf id BoxContent.noConfusion _ _ _).withClasses (by decide)
  have hbar (width thickness : Float) :
      Encloses id ((MathBox.rule width thickness).withClasses [.overline]) [] :=
    (encloses_rule id width thickness).withClasses (by decide)
  cases index with
  | none =>
      rw [show parts' = [] from hindex]
      exact ((((encloses_empty id).placeFrame (hsign _ _ _) _ _).placeFrame (hbar _ _) _ _).place
        hradicand.framed_subboxes _ _).withWidth _
  | some index =>
      have hstart (x raise : Float) : Encloses id (MathBox.empty.place x raise index) parts' :=
        (encloses_empty id).place hindex.framed_subboxes x raise
      exact ((((hstart _ _).placeFrame (hsign _ _ _) _ _).placeFrame (hbar _ _) _ _).place
        hradicand.framed_subboxes _ _).withWidth _

theorem Encloses.accentBox (hbody : Encloses id body parts) (style : Style) (glyph : Option Char) :
    Encloses id (accentBox style glyph body) parts := by
  have hmark (c : Char) (m : Measure) : Encloses id ((glyphOf c m).withClasses [.accent]) [] :=
    (encloses_glyphOf id c m).withClasses (by decide)
  have hplaced := (encloses_empty id).place hbody.framed_subboxes
  exact ((hplaced _ _).placeFrame (hmark _ _) _ _).withWidth _

/-- The scripts come after the nucleus, the superscript first. -/
theorem Encloses.withScripts {parts'' : List MathBox} (hnucleus : Encloses id nucleus parts)
    (hsup : EnclosesOption id sup parts') (hsub : EnclosesOption id sub parts'') (style : Style) :
    Encloses id (withScripts style nucleus sup sub) (parts ++ (parts' ++ parts'')) := by
  have hbase : Encloses id (MathBox.empty.place 0.0 0.0 nucleus) parts :=
    (encloses_empty id).place hnucleus.framed_subboxes _ _
  cases sup with
  | none =>
      rw [show parts' = [] from hsup]
      cases sub with
      | none =>
          rw [show parts'' = [] from hsub, List.append_nil, List.append_nil]
          exact hbase.withWidth _
      | some sub => exact (hbase.place (Encloses.framed_subboxes hsub) _ _).withWidth _
  | some sup =>
      have hboth := hbase.place (Encloses.framed_subboxes hsup)
      cases sub with
      | none =>
          rw [show parts'' = [] from hsub, List.append_nil]
          exact (hboth _ _).withWidth _
      | some sub =>
          rw [← List.append_assoc]
          exact ((hboth _ _).place (Encloses.framed_subboxes hsub) _ _).withWidth _

/-! ## Grids -/

/-- Where there are enough columns, every cell is placed. -/
theorem Encloses.placeCells {cells : List MathBox} {widths : List Float}
    (h : Encloses id list parts) (hw : cells.length ≤ widths.length) (gap : Float) (toLeft : Bool)
    (x : Float) : Encloses id (placeCells gap toLeft list x cells widths) (parts ++ cells) := by
  induction cells generalizing list parts x widths with
  | nil => simpa [Typeset.placeCells] using h
  | cons cell rest ih =>
      cases widths with
      | nil => cases hw
      | cons width widths =>
          rw [Typeset.placeCells, List.append_cons]
          exact ih (h.placePart _ _ cell) (Nat.le_of_succ_le_succ hw) _

/-- The box of a row, which encloses those of its cells. -/
structure IsRowBox (row : GridRow) (b : MathBox) : Prop where
  owner_eq : b.owner = some row.owner
  encloses : Encloses row.owner b row.cells

/-- Where there are enough columns for every row, every row is placed. -/
theorem Encloses.exists_placeRows {rows : List GridRow} (h : Encloses id list parts)
    (plan : GridPlan) (hw : ∀ row ∈ rows, row.cells.length ≤ plan.widths.length) (used : Float) :
    ∃ boxes, List.Forall₂ IsRowBox rows boxes ∧
      Encloses id (placeRows plan list used rows) (parts ++ boxes) := by
  induction rows generalizing list parts used with
  | nil => exact ⟨[], .nil, by rwa [List.append_nil]⟩
  | cons row rest ih =>
      obtain ⟨hrow, hrest⟩ := List.forall_mem_cons.1 hw
      have hbox : IsRowBox row ((((Typeset.placeCells plan.unit plan.toLeft MathBox.empty 0.0
          row.cells plan.widths).withWidth plan.width).withExtent (rowExtent plan.unit row).1
            (rowExtent plan.unit row).2).ownedBy row.owner) :=
        ⟨MathBox.owner_ownedBy _ _, ((((encloses_empty _).placeCells hrow _ _ _).withWidth
          _).withExtent _ _).ownedBy⟩
      rw [placeRows]
      obtain ⟨boxes, hboxes, hencloses⟩ := ih (h.placePart _ _ _) hrest _
      rw [← List.append_cons] at hencloses
      exact ⟨_, .cons hbox hboxes, hencloses⟩

/-- A grid encloses the boxes of its rows. -/
theorem exists_encloses_gridBox (id : Nat) (style : Style) (environment : String)
    (rows : List GridRow) : ∃ boxes, List.Forall₂ IsRowBox rows boxes ∧
      Encloses id (gridBox style environment rows) boxes := by
  have hgrid : ∃ boxes, List.Forall₂ IsRowBox rows boxes ∧
      Encloses id (bareGrid style environment rows) boxes := by
    have hrows (plan : GridPlan) (hplan : plan.widths = columnWidths rows) :=
      (encloses_empty id).exists_placeRows plan
        (fun row hrow => hplan ▸ length_cells_le_columnWidths hrow) 0.0
    unfold bareGrid
    dsimp only
    exact (hrows _ rfl).imp fun boxes h => ⟨h.1, (h.2.withWidth _).withClasses (by decide)⟩
  obtain ⟨boxes, hboxes, hencloses⟩ := hgrid
  refine ⟨boxes, hboxes, ?_⟩
  have hgap (width : Float) : Encloses id (MathBox.kern width) [] := encloses_kern id width
  have hdelimiter (c : Char) (width height depth : Float) :
      Encloses id ((MathBox.glyph c width height depth).withClasses [.delimiter]) [] :=
    (encloses_leaf id BoxContent.noConfusion _ _ _).withClasses (by decide)
  unfold gridBox
  dsimp only
  split
  · exact hencloses
  · refine encloses_row ?_
    rw [List.flatMap_append, List.flatMap_append, List.flatMap_singleton]
    refine hencloses.framed_subboxes.between ?_ ?_
    · refine framed_getD_map id (fun c => ?_) _
      exact List.forall_mem_cons.2 ⟨hdelimiter c _ _ _, List.forall_mem_singleton.2 (hgap _)⟩
    · refine framed_getD_map id (fun c => ?_) _
      exact List.forall_mem_cons.2 ⟨hgap _, List.forall_mem_singleton.2 (hdelimiter c _ _ _)⟩

end FormulaEditor.Typeset

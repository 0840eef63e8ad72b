import FormulaEditor.Formula.Placeholders
import FormulaEditor.Proofs.Formula.Edits
import FormulaEditor.Proofs.Typeset.Frames
import FormulaEditor.Typeset.Layout

/-!
# What the box of an atom shows

The box of an atom of a well-formed formula is a frame around the boxes of everything in its
branches, slot by slot, and the carets that are marked there. This holds wherever the atom stands:
it may be the whole formula, one of several siblings, or the row or a cell of a grid.
-/

namespace FormulaEditor.Typeset

/-! ## The boxes of a formula -/

/-- The boxes that an atom can be laid out as. -/
inductive LaidOut : Atom → MathBox → Prop
  | atom (style : Style) (cls : Option SpacingClass) (a : Atom) : LaidOut a (layoutAtom style cls a)
  | formula (style : Style) {a : Atom} (h : a.kind = .root) : LaidOut a (layout style a)
  | row (style : Style) {a : Atom} {b : MathBox} (h : a.kind = .row)
      (hb : IsRowBox (layoutRow style a) b) : LaidOut a b
  | cell (style : Style) {a : Atom} (h : a.kind = .cell) : LaidOut a (layoutCell style a)

/-- The boxes of siblings, and the carets before and after them. -/
inductive ShowsItems (style : Style) : List Atom → List MathBox → Prop
  | nil : ShowsItems style [] []
  | cons {a : Atom} (cls : Option SpacingClass) {rest : List Atom} {parts : List MathBox} :
      ShowsItems style rest parts → ShowsItems style (a :: rest)
        (caretIf style a.marks.caretBefore ++ [layoutAtom style cls a] ++
          caretIf style a.marks.caretAfter ++ parts)

/-- Whether the boxes of a branch are led by a caret. -/
def leadsWithCaret (a : Atom) (slot : Slot) : Bool :=
  slot == .body && a.kind != .accent && a.marks.caretInside

/-- The boxes of a branch, and the carets in it. In the grid of an array there are no carets. -/
inductive ShowsBranch (a : Atom) (slot : Slot) : List MathBox → Prop
  | absent : a.branch slot = none → ShowsBranch a slot []
  | items {atoms : List Atom} {style : Style} {parts : List MathBox} : a.branch slot = some atoms →
      ShowsItems style atoms parts →
      ShowsBranch a slot (caretIf style (leadsWithCaret a slot) ++ parts)
  | grid {atoms : List Atom} {parts : List MathBox} : a.branch slot = some atoms →
      isGridBody a.kind slot = true → List.Forall₂ LaidOut atoms parts → ShowsBranch a slot parts

/-- The boxes of several branches. -/
inductive ShowsBranches (a : Atom) : List Slot → List MathBox → Prop
  | nil : ShowsBranches a [] []
  | cons {slot : Slot} {slots : List Slot} {parts parts' : List MathBox} :
      ShowsBranch a slot parts → ShowsBranches a slots parts' →
      ShowsBranches a (slot :: slots) (parts ++ parts')

/-- The slots of a nucleus in the order in which they are laid out. -/
def nucleusSlots : List Slot :=
  [.numerator, .denominator, .index, .radicand, .body]

/-- The slots of an atom in the order in which they are laid out. -/
def displaySlots : List Slot :=
  nucleusSlots ++ [.superscript, .subscript]

/-- The box of an atom, which shows all its branches. -/
structure Shows (a : Atom) (b : MathBox) : Prop where
  owner_eq : b.owner = some a.id
  content_ne : b.content ≠ .caret
  selected : .selected ∈ b.classes → a.marks.selected = true
  exists_framed : ∃ parts, ShowsBranches a displaySlots parts ∧ Framed a.id b.inner parts

variable {a : Atom} {b nucleus : MathBox} {slot : Slot} {slots slots' : List Slot}
  {atoms : List Atom} {parts parts' : List MathBox} {style : Style}

/-! ## Carets in a branch -/

theorem leadsWithCaret_body {k : Kind} (hk : a.kind = k) (h : k ≠ .accent) :
    leadsWithCaret a .body = a.marks.caretInside := by
  simp [leadsWithCaret, hk, h]

theorem leadsWithCaret_of_inside (h : a.marks.caretInside = false) (slot : Slot) :
    leadsWithCaret a slot = false := by
  simp [leadsWithCaret, h]

theorem leadsWithCaret_of_ne (a : Atom) (h : slot ≠ .body) : leadsWithCaret a slot = false := by
  simp [leadsWithCaret, h]

theorem leadsWithCaret_accent (h : a.kind = .accent) : leadsWithCaret a .body = false := by
  simp [leadsWithCaret, h]

/-! ## Branches -/

theorem framed_glueBoxes (id : Nat) (style : Style) (left right : Option SpacingClass) :
    Framed id ((glueBoxes style left right).flatMap MathBox.subboxes) [] := by
  refine framed_of_forall id fun node hnode => ?_
  unfold glueBoxes at hnode
  split at hnode
  · dsimp only at hnode
    split at hnode
    · cases hnode
    · rw [List.mem_singleton.1 hnode]
      exact encloses_kern id _
  · cases hnode

theorem exists_framed_layoutItems (id : Nat) (style : Style) (previous : Option SpacingClass)
    (classes : List (Option SpacingClass)) (atoms : List Atom) :
    ∃ parts, ShowsItems style atoms parts ∧
      Framed id ((layoutItems style previous classes atoms).flatMap MathBox.subboxes) parts := by
  induction atoms generalizing previous classes with
  | nil =>
      rw [layoutItems]
      exact ⟨[], .nil, .nil⟩
  | cons a rest ih =>
      obtain ⟨parts, hitems, hframed⟩ := ih (classes.head?.join.or previous) classes.tail
      have hglue := framed_glueBoxes id style previous classes.head?.join
      have hown := framed_parts id (caretIf style a.marks.caretBefore ++
        [layoutAtom style classes.head?.join a] ++ caretIf style a.marks.caretAfter)
      have hall := (hglue.append hown).append hframed
      refine ⟨_, .cons classes.head?.join hitems, ?_⟩
      rw [layoutItems]
      simpa only [List.flatMap_append, List.append_assoc, List.nil_append] using hall

theorem exists_encloses_layoutBranch (id : Nat) (style : Style)
    (hb : (a.branch slot).isSome = true) : ∃ parts, ShowsBranch a slot parts ∧
      Encloses id (layoutBranch style (leadsWithCaret a slot) (a.branch slot)) parts := by
  obtain ⟨atoms, hatoms⟩ := Option.isSome_iff_exists.1 hb
  obtain ⟨parts, hitems, hframed⟩ :=
    exists_framed_layoutItems id style none (classesOf atoms) atoms
  refine ⟨_, .items hatoms hitems, ?_⟩
  rw [hatoms, layoutBranch]
  refine encloses_row ?_
  rw [List.flatMap_append]
  exact (framed_parts id _).append hframed

theorem exists_encloses_layoutOptional (a : Atom) (slot : Slot) (hs : slot ≠ .body)
    (style : Style) (id : Nat) : ∃ parts, ShowsBranch a slot parts ∧
      EnclosesOption id (layoutOptional style (a.branch slot)) parts := by
  cases hatoms : a.branch slot with
  | none =>
      rw [layoutOptional]
      exact ⟨[], .absent hatoms, rfl⟩
  | some atoms =>
      obtain ⟨parts, hitems, hframed⟩ :=
        exists_framed_layoutItems id style none (classesOf atoms) atoms
      have hshown := ShowsBranch.items hatoms hitems
      rw [leadsWithCaret_of_ne a hs] at hshown
      rw [layoutOptional]
      exact ⟨parts, hshown, encloses_row hframed⟩

theorem ShowsBranches.append (h : ShowsBranches a slots parts)
    (h' : ShowsBranches a slots' parts') : ShowsBranches a (slots ++ slots') (parts ++ parts') := by
  induction h with
  | nil => exact h'
  | cons hbranch _ ih =>
      rw [List.append_assoc]
      exact .cons hbranch ih

theorem ShowsBranch.branches (h : ShowsBranch a slot parts) : ShowsBranches a [slot] parts :=
  List.append_nil parts ▸ .cons h .nil

theorem showsBranches_of_absent (h : ∀ slot ∈ slots, a.branch slot = none) :
    ShowsBranches a slots [] := by
  induction slots with
  | nil => exact .nil
  | cons slot rest ih =>
      obtain ⟨hslot, hrest⟩ := List.forall_mem_cons.1 h
      exact .cons (.absent hslot) (ih hrest)

/-! ## Grids -/

theorem forall₂_layoutRows {rows : List Atom} {boxes : List MathBox}
    (hr : ∀ row ∈ rows, row.kind = .row)
    (h : List.Forall₂ IsRowBox (layoutRows style rows) boxes) :
    List.Forall₂ LaidOut rows boxes := by
  induction rows generalizing boxes with
  | nil =>
      rw [layoutRows] at h
      cases h
      exact .nil
  | cons row rest ih =>
      rw [layoutRows] at h
      obtain ⟨hrow, hrest⟩ := List.forall_mem_cons.1 hr
      cases h with
      | cons hbox hboxes => exact .cons (.row style hrow hbox) (ih hrest hboxes)

theorem forall₂_layoutCells (style : Style) {cells : List Atom}
    (hc : ∀ cell ∈ cells, cell.kind = .cell) : List.Forall₂ LaidOut cells (layoutCells style cells) := by
  induction cells with
  | nil =>
      rw [layoutCells]
      exact .nil
  | cons cell rest ih =>
      rw [layoutCells]
      obtain ⟨hcell, hrest⟩ := List.forall_mem_cons.1 hc
      exact .cons (.cell style hcell) (ih hrest)

/-! ## Atoms -/

section

variable (hw : a.isWellFormed = true)
include hw

theorem showsBranches_leaf (hk : a.kind.shape = .leaf) : ShowsBranches a nucleusSlots [] := by
  refine showsBranches_of_absent fun slot hslot => Atom.branch_eq_none hw ?_
  simp only [nucleusSlots, List.mem_cons, List.not_mem_nil, or_false] at hslot
  rcases hslot with rfl | rfl | rfl | rfl | rfl <;> simp [Kind.allowsSlot, Kind.hasSlot, hk]

/-- An atom whose only content is a body shows the body. -/
theorem showsBranches_sequence (hk : a.kind.shape = .sequence) (h : ShowsBranch a .body parts) :
    ShowsBranches a nucleusSlots parts := by
  have habsent : ShowsBranches a [.numerator, .denominator, .index, .radicand] [] := by
    refine showsBranches_of_absent fun slot hslot => Atom.branch_eq_none hw ?_
    simp only [List.mem_cons, List.not_mem_nil, or_false] at hslot
    rcases hslot with rfl | rfl | rfl | rfl <;> simp [Kind.allowsSlot, Kind.hasSlot, hk]
  exact habsent.append h.branches

theorem showsBranches_fraction (hk : a.kind.shape = .fraction) (h : ShowsBranch a .numerator parts)
    (h' : ShowsBranch a .denominator parts') : ShowsBranches a nucleusSlots (parts ++ parts') := by
  have habsent : ShowsBranches a [.index, .radicand, .body] [] := by
    refine showsBranches_of_absent fun slot hslot => Atom.branch_eq_none hw ?_
    simp only [List.mem_cons, List.not_mem_nil, or_false] at hslot
    rcases hslot with rfl | rfl | rfl <;> simp [Kind.allowsSlot, Kind.hasSlot, hk]
  exact List.append_nil (parts ++ parts') ▸ (h.branches.append h'.branches).append habsent

theorem showsBranches_radical (hk : a.kind.shape = .radical) (h : ShowsBranch a .index parts)
    (h' : ShowsBranch a .radicand parts') : ShowsBranches a nucleusSlots (parts ++ parts') := by
  have habsent (slots : List Slot) (hs : ∀ slot ∈ slots, a.kind.allowsSlot slot = false) :
      ShowsBranches a slots [] :=
    showsBranches_of_absent fun slot hslot => Atom.branch_eq_none hw (hs slot hslot)
  have hbefore := habsent [.numerator, .denominator] (by simp [Kind.allowsSlot, Kind.hasSlot, hk])
  have hafter := habsent [.body] (by simp [Kind.allowsSlot, Kind.hasSlot, hk])
  exact List.append_nil (parts ++ parts') ▸
    (hbefore.append (h.branches.append h'.branches)).append hafter

end

theorem EnclosesOption.withClasses {id : Nat} {b : Option MathBox} (h : EnclosesOption id b parts)
    (added : List BoxClass) (ha : .selected ∉ added) :
    EnclosesOption id (b.map fun b => b.withClasses added) parts := by
  cases b with
  | none => exact h
  | some b => exact Encloses.withClasses h ha

theorem selected_mem_markClasses (m : Marks) : .selected ∈ markClasses m ↔ m.selected = true := by
  unfold markClasses
  cases m.selected <;> cases m.error <;> cases m.suggestion <;> decide

/-- A frame around all branches shows them. -/
theorem Encloses.shows (h : Encloses a.id b parts) (ho : b.owner = some a.id)
    (hb : ShowsBranches a displaySlots parts) : Shows a b :=
  ⟨ho, h.isFrame.content, fun hs => absurd hs h.isFrame.classes, parts, hb, h.framed⟩

theorem Shows.withMarks (h : Shows a b) : Shows a (b.withClasses (markClasses a.marks)) where
  owner_eq := by
    rw [MathBox.owner_withClasses]
    exact h.owner_eq
  content_ne := by
    rw [MathBox.content_withClasses]
    exact h.content_ne
  selected hs := by
    rw [MathBox.classes_withClasses, List.mem_append] at hs
    exact hs.elim h.selected (selected_mem_markClasses _).1
  exists_framed := by
    rw [MathBox.inner_withClasses]
    exact h.exists_framed

/-- A nucleus with its scripts shows all branches. -/
theorem shows_withScripts (hn : ∃ parts, ShowsBranches a nucleusSlots parts ∧
    Encloses a.id nucleus parts) (style : Style) :
    Shows a ((if (a.branch .superscript).isSome || (a.branch .subscript).isSome then
        (withScripts style (nucleus.ownedBy a.id)
          ((layoutOptional style.superscript (a.branch .superscript)).map fun b =>
            b.withClasses [.superscript])
          ((layoutOptional style.subscript (a.branch .subscript)).map fun b =>
            b.withClasses [.subscript])).ownedBy a.id
      else nucleus.ownedBy a.id).withClasses (markClasses a.marks)) := by
  obtain ⟨parts, hshown, hnucleus⟩ := hn
  obtain ⟨sup, hsup, henclosesSup⟩ := exists_encloses_layoutOptional a .superscript
    Slot.noConfusion style.superscript a.id
  obtain ⟨sub, hsub, henclosesSub⟩ := exists_encloses_layoutOptional a .subscript
    Slot.noConfusion style.subscript a.id
  have hall : ShowsBranches a displaySlots (parts ++ (sup ++ sub)) :=
    hshown.append (hsup.branches.append hsub.branches)
  split
  · have hscripts := hnucleus.ownedBy.withScripts
      (henclosesSup.withClasses [.superscript] (by decide))
      (henclosesSub.withClasses [.subscript] (by decide)) style
    exact (hscripts.ownedBy.shows (MathBox.owner_ownedBy _ _) hall).withMarks
  · rename_i hnone
    have habsent : ShowsBranches a [.superscript, .subscript] [] := by
      refine showsBranches_of_absent fun slot hslot => ?_
      simp only [List.mem_cons, List.not_mem_nil, or_false] at hslot
      rcases hslot with rfl | rfl <;> simp_all
    exact (hnucleus.ownedBy.shows (MathBox.owner_ownedBy _ _)
      (List.append_nil parts ▸ hshown.append habsent)).withMarks

theorem isSome_branch_of_hasSlot (hw : a.isWellFormed = true) (h : a.kind.hasSlot slot = true) :
    (a.branch slot).isSome = true := by
  cases hb : a.branch slot with
  | some atoms => rfl
  | none => exact absurd h (by simp [((Atom.isWellFormed_iff a).1 hw).1 slot hb])

theorem selected_not_mem_fontClasses (value : String) : .selected ∉ fontClasses value := by
  unfold fontClasses
  split <;> decide

/-- The body of an atom that has nothing else. -/
theorem exists_encloses_body (hw : a.isWellFormed = true) (hk : a.kind.shape = .sequence)
    (style : Style) {lead : Bool} (hl : leadsWithCaret a .body = lead) :
    ∃ parts, ShowsBranches a nucleusSlots parts ∧
      Encloses a.id (layoutBranch style lead (a.branch .body)) parts := by
  have hbody : (a.branch .body).isSome = true :=
    isSome_branch_of_hasSlot hw (by simp [Kind.hasSlot, hk])
  obtain ⟨parts, hshown, hencloses⟩ := exists_encloses_layoutBranch a.id style hbody
  exact ⟨parts, showsBranches_sequence hw hk hshown, hl ▸ hencloses⟩

theorem exists_encloses_fraction (hw : a.isWellFormed = true) (hk : a.kind = .fraction)
    (style : Style) : ∃ parts, ShowsBranches a nucleusSlots parts ∧ Encloses a.id
      (fractionBox style
        ((layoutBranch style.numerator false (a.branch .numerator)).withClasses [.numerator])
        ((layoutBranch style.denominator false (a.branch .denominator)).withClasses [.denominator]))
      parts := by
  have hhas : a.kind.hasSlot .numerator = true ∧ a.kind.hasSlot .denominator = true := by
    rw [hk]
    exact ⟨rfl, rfl⟩
  obtain ⟨parts, hnum, hencloses⟩ := exists_encloses_layoutBranch a.id style.numerator
    (isSome_branch_of_hasSlot hw hhas.1)
  obtain ⟨parts', hden, hencloses'⟩ := exists_encloses_layoutBranch a.id style.denominator
    (isSome_branch_of_hasSlot hw hhas.2)
  exact ⟨parts ++ parts', showsBranches_fraction hw (congrArg Kind.shape hk) hnum hden,
    (hencloses.withClasses (by decide)).fractionBox (hencloses'.withClasses (by decide)) style⟩

theorem exists_encloses_radical (hw : a.isWellFormed = true) (hk : a.kind = .radical)
    (style : Style) : ∃ parts, ShowsBranches a nucleusSlots parts ∧ Encloses a.id
      (radicalBox style (layoutBranch style.cramp false (a.branch .radicand))
        (layoutOptional Style.scriptscript (a.branch .index))) parts := by
  have hhas : a.kind.hasSlot .radicand = true := by
    rw [hk]
    rfl
  obtain ⟨parts, hindex, hencloses⟩ := exists_encloses_layoutOptional a .index
    Slot.noConfusion Style.scriptscript a.id
  obtain ⟨parts', hradicand, hencloses'⟩ := exists_encloses_layoutBranch a.id style.cramp
    (isSome_branch_of_hasSlot hw hhas)
  exact ⟨parts ++ parts', showsBranches_radical hw (congrArg Kind.shape hk) hindex hradicand,
    hencloses'.radicalBox hencloses style⟩

theorem exists_encloses_array (hw : a.isWellFormed = true) (hk : a.kind = .array) (style : Style)
    (environment : String) : ∃ parts, ShowsBranches a nucleusSlots parts ∧ Encloses a.id
      (gridBox style environment (layoutRowsOfBranch style.inArray (a.branch .body))) parts := by
  have hbody : (a.branch .body).isSome = true := by
    refine isSome_branch_of_hasSlot hw ?_
    rw [hk]
    rfl
  obtain ⟨rows, hrows⟩ := Option.isSome_iff_exists.1 hbody
  have hkinds : ∀ row ∈ rows, row.kind = .row := fun row hrow => by
    have hadmitted := (Atom.branchWellFormed hw hrows).admitted row hrow
    rw [hk] at hadmitted
    simpa [Kind.admits] using hadmitted
  have hgrid : isGridBody a.kind .body = true := by
    rw [hk]
    rfl
  obtain ⟨boxes, hboxes, hencloses⟩ := exists_encloses_gridBox a.id style environment
    (layoutRows style.inArray rows)
  rw [hrows, layoutRowsOfBranch]
  exact ⟨boxes, showsBranches_sequence hw (congrArg Kind.shape hk)
    (.grid hrows hgrid (forall₂_layoutRows hkinds hboxes)), hencloses⟩

theorem shows_layoutAtom (hw : a.isWellFormed = true) (style : Style) (cls : Option SpacingClass) :
    Shows a (layoutAtom style cls a) := by
  obtain ⟨label, ⟨body, sup, sub, numerator, denominator, index, radicand⟩⟩ := a
  rw [layoutAtom]
  refine shows_withScripts ?_ style
  cases hk : label.kind with
  | operator => exact ⟨[], showsBranches_leaf hw (congrArg Kind.shape hk), encloses_operatorBox ..⟩
  | space => exact ⟨[], showsBranches_leaf hw (congrArg Kind.shape hk), encloses_kern ..⟩
  | placeholder =>
      exact ⟨[], showsBranches_leaf hw (congrArg Kind.shape hk), encloses_placeholderIn ..⟩
  | unknownCommand =>
      exact ⟨[], showsBranches_leaf hw (congrArg Kind.shape hk),
        (encloses_textRun ..).withClasses (by decide)⟩
  | command =>
      refine ⟨[], showsBranches_leaf hw (congrArg Kind.shape hk),
        Encloses.withClasses ?_ (by decide)⟩
      cases label.glyph with
      | none => exact encloses_empty _
      | some c => exact encloses_glyphIn _ style c
  | ordinary | binary | relation | punctuation | opening | closing =>
      exact ⟨[], showsBranches_leaf hw (congrArg Kind.shape hk), encloses_symbolBox ..⟩
  | fraction => exact exists_encloses_fraction hw hk _
  | radical => exact exists_encloses_radical hw hk style
  | array => exact exists_encloses_array hw hk style _
  | accent =>
      obtain ⟨parts, hshown, hencloses⟩ := exists_encloses_body hw (congrArg Kind.shape hk)
        style.cramp (leadsWithCaret_accent hk)
      exact ⟨parts, hshown, hencloses.accentBox style _⟩
  | font =>
      obtain ⟨parts, hshown, hencloses⟩ := exists_encloses_body hw (congrArg Kind.shape hk) style
        (leadsWithCaret_body hk (by decide))
      exact ⟨parts, hshown, hencloses.withClasses (selected_not_mem_fontClasses _)⟩
  | text =>
      obtain ⟨parts, hshown, hencloses⟩ := exists_encloses_body hw (congrArg Kind.shape hk) style
        (leadsWithCaret_body hk (by decide))
      exact ⟨parts, hshown, hencloses.withClasses (by decide)⟩
  | root | group | row | cell =>
      exact exists_encloses_body hw (congrArg Kind.shape hk) style
        (leadsWithCaret_body hk (by decide))

theorem showsBranches_display (hw : a.isWellFormed = true) (hk : a.kind.allowsScripts = false)
    (h : ShowsBranches a nucleusSlots parts) : ShowsBranches a displaySlots parts := by
  have habsent : ShowsBranches a [.superscript, .subscript] [] := by
    refine showsBranches_of_absent fun slot hslot => Atom.branch_eq_none hw ?_
    simp only [List.mem_cons, List.not_mem_nil, or_false] at hslot
    rcases hslot with rfl | rfl <;> exact hk
  exact List.append_nil parts ▸ h.append habsent

theorem shows_layout (hw : a.isWellFormed = true) (hk : a.kind = .root) (style : Style) :
    Shows a (layout style a) := by
  obtain ⟨parts, hshown, hencloses⟩ := exists_encloses_body hw (congrArg Kind.shape hk) style
    (leadsWithCaret_body hk (by decide))
  rw [layout, if_pos hk]
  exact hencloses.ownedBy.shows (MathBox.owner_ownedBy _ _)
    (showsBranches_display hw (congrArg Kind.allowsScripts hk) hshown)

theorem shows_layoutCell (hw : a.isWellFormed = true) (hk : a.kind = .cell) (style : Style) :
    Shows a (layoutCell style a) := by
  obtain ⟨parts, hshown, hencloses⟩ := exists_encloses_body hw (congrArg Kind.shape hk) style
    (leadsWithCaret_body hk (by decide))
  obtain ⟨label, ⟨body, sup, sub, numerator, denominator, index, radicand⟩⟩ := a
  rw [layoutCell]
  exact (hencloses.ownedBy.shows (MathBox.owner_ownedBy _ _)
    (showsBranches_display hw (congrArg Kind.allowsScripts hk) hshown)).withMarks

theorem IsRowBox.shows (h : IsRowBox (layoutRow style a) b) (hw : a.isWellFormed = true)
    (hk : a.kind = .row) : Shows a b := by
  have hgrid : isGridBody a.kind .body = true := by
    rw [hk]
    rfl
  have hbody : (a.branch .body).isSome = true := by
    refine isSome_branch_of_hasSlot hw ?_
    rw [hk]
    rfl
  obtain ⟨cells, hcells⟩ := Option.isSome_iff_exists.1 hbody
  have hkinds : ∀ cell ∈ cells, cell.kind = .cell := fun cell hcell => by
    have hadmitted := (Atom.branchWellFormed hw hcells).admitted cell hcell
    rw [hk] at hadmitted
    simpa [Kind.admits] using hadmitted
  have hshown := showsBranches_display hw (congrArg Kind.allowsScripts hk)
    (showsBranches_sequence hw (congrArg Kind.shape hk)
      (.grid hcells hgrid (forall₂_layoutCells style hkinds)))
  obtain ⟨label, ⟨body, sup, sub, numerator, denominator, index, radicand⟩⟩ := a
  cases show body = some cells from hcells
  obtain ⟨howner, hencloses⟩ := h
  rw [layoutRow, layoutCellsOfBranch] at howner hencloses
  exact Encloses.shows (a := .node label _) hencloses howner hshown

/-- The box of an atom of a well-formed formula shows the atom, wherever it stands. -/
theorem LaidOut.shows (h : LaidOut a b) (hw : a.isWellFormed = true) : Shows a b := by
  cases h with
  | atom style cls => exact shows_layoutAtom hw style cls
  | formula style hk => exact shows_layout hw hk style
  | row style hk hb => exact hb.shows hw hk
  | cell style hk => exact shows_layoutCell hw hk style

/-- A whole formula is laid out as one of its boxes. -/
theorem laidOut_layout (style : Style) (a : Atom) : LaidOut a (layout style a) := by
  by_cases hk : a.kind = .root
  · exact .formula style hk
  · rw [layout, if_neg hk]
    exact .atom style none a

end FormulaEditor.Typeset

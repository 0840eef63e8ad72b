import FormulaEditor.Proofs.Editor.Displaying
import FormulaEditor.Proofs.Typeset.Marked

/-!
# The selection in a layout

For a layout the selection is marked in a formula without other marks. A caret is marked at one
atom, and the layout shows one caret wherever that is; a selection is marked at its atoms, and the
selected boxes of the layout are theirs.
-/

namespace FormulaEditor

open Atom (withLabels)
open Typeset

variable {root owner a c : Atom} {q : Path} {slot : Slot} {atoms before chosen after : List Atom}
  {marks : Marks} {offset : Int} {start stop : Nat} {b : MathBox} {p : Label → Bool} {e : Editor}

/-! ## Marked atoms -/

/-- A mark for a caret beside an atom. -/
structure Marks.IsBeside (m : Marks) : Prop where
  inside : m.caretInside = false
  beside : m.caretBefore = !m.caretAfter
  selected : m.selected = false

theorem isTransient_mark
    (hm : (marks.caretAfter || marks.caretBefore || marks.caretInside || marks.selected) = true)
    (a : Atom) : (a.mark marks).label.isTransient = true := by
  rw [Atom.label_mark]
  simp only [Label.isTransient, Label.hasCaret, Marks.union, Bool.or_eq_true] at hm ⊢
  tauto

theorem selected_mark (a : Atom) (marks : Marks) :
    (a.mark marks).label.marks.selected = (a.label.marks.selected || marks.selected) := by
  rw [Atom.label_mark]
  rfl

theorem hasCaret_mark_forSelected (a : Atom) :
    (a.mark Marks.forSelected).label.hasCaret = a.label.hasCaret := by
  rw [Atom.label_mark]
  simp [Label.hasCaret, Marks.union, Marks.forSelected, Marks.none]

/-! ## Where marks are set -/

/-- Only a body may be empty, and not that of an accent. -/
theorem IsBranch.of_nil (hb : IsBranch root q slot owner []) (hw : root.isWellFormed = true) :
    slot = .body ∧ owner.kind ≠ .accent := by
  have hfilled := (hb.wellFormed hw).filled
  cases slot with
  | body =>
      refine ⟨rfl, fun hk => ?_⟩
      rw [hk] at hfilled
      exact hfilled rfl rfl
  | _ => exact absurd rfl (hfilled rfl)

/-- The atoms from `start` up to `stop` are marked, and no others. -/
theorem markSelected_eq (hs : start ≤ stop) (hl : stop ≤ atoms.length) :
    ∃ before chosen after, atoms = before ++ chosen ++ after ∧
      markSelected start stop atoms = before ++ chosen.map (·.mark Marks.forSelected) ++ after ∧
      slice (markSelected start stop atoms) start stop = chosen.map (·.mark Marks.forSelected) := by
  refine ⟨atoms.take start, slice atoms start stop, atoms.drop stop, (splice_slice atoms hs).symm,
    if_pos hl, ?_⟩
  have hstart : (atoms.take start).length = start := List.length_take_of_le (Nat.le_trans hs hl)
  have hstop : (atoms.take start ++
      (slice atoms start stop).map (·.mark Marks.forSelected)).length = stop := by
    simp only [slice, List.length_append, List.length_map, List.length_drop, List.length_take]
    omega
  rw [markSelected, if_pos hl, splice, slice, List.take_left' hstop, List.drop_left' hstart]

namespace Editor

/-- A caret is marked beside one of the atoms of its branch, or at the owner of an empty branch. -/
theorem markCaret_cases (hb : IsBranch root q slot owner atoms) (ho : IsOffset atoms offset) :
    (∃ before c after marks, Marks.IsBeside marks ∧ atoms = before ++ [c] ++ after ∧
      markCaret root (q.child slot offset) =
        q.fill slot (before ++ [c.mark marks] ++ after) root) ∨
    (atoms = [] ∧ markCaret root (q.child slot offset) =
      q.modifyAtom (·.mark Marks.forCaretInside) root) := by
  by_cases hoffset : 0 ≤ offset
  · obtain ⟨i, rfl⟩ := Int.eq_ofNat_of_zero_le hoffset
    have hlt : i < atoms.length := by
      have := ho.2
      omega
    have hget : atoms[i]? = some atoms[i] := List.getElem?_eq_getElem hlt
    have hat : (q.child slot i).atom? root = some atoms[i] := (hb.atom? i).trans hget
    refine .inl ⟨atoms.take i, atoms[i], atoms.drop (i + 1), Marks.forCaretAfter, ⟨rfl, rfl, rfl⟩,
      ?_, ?_⟩
    · rw [List.append_assoc, List.singleton_append, ← List.drop_eq_getElem_cons hlt,
        List.take_append_drop]
    · rw [markCaret, hat, Option.isSome_some, if_pos rfl, Path.modifyAtom_child hb hget,
        List.set_eq_take_append_cons_drop, if_pos hlt, List.append_assoc, List.singleton_append]
  · have hgap : offset = leadingGap := by
      have := ho.1
      simp only [leadingGap] at this ⊢
      omega
    subst hgap
    have hnone : (q.child slot leadingGap).atom? root = none := by
      rw [Path.atom?_child, hb.atom?_eq, Option.bind_some, hb.branch_eq, Option.bind_some,
        Step.index?_leadingGap, Option.bind_none]
    cases atoms with
    | nil =>
        refine .inr ⟨rfl, ?_⟩
        rw [markCaret, hnone, hb.branch?]
        exact Path.modifyOwner_child q slot leadingGap _ root
    | cons a rest =>
        refine .inl ⟨[], a, rest, Marks.forCaretBefore, ⟨rfl, rfl, rfl⟩, rfl, ?_⟩
        rw [markCaret, hnone, hb.branch?]
        exact Path.modifyBranch_child hb leadingGap markFirst

/-- The selected atoms, without those below them. -/
def selectedAtoms (e : Editor) : List Atom :=
  slice ((e.selection.focus.branch? e.root).getD []) e.selection.startIndex e.selection.stopIndex

theorem SelectsIn.selectedAtoms_eq {anchor focus : Int}
    (h : e.SelectsIn q slot owner atoms anchor focus) :
    e.selectedAtoms = slice atoms e.selection.startIndex e.selection.stopIndex := by
  rw [selectedAtoms, h.selection_eq, h.branch.branch?, Option.getD_some]

/-! ## What a layout shows -/

/-- One box is a caret, and none is selected. -/
structure ShowsCaret (b : MathBox) : Prop where
  caret : ∃ style, b.having MathBox.isCaret = [caretIn style]
  selected : b.having MathBox.isSelected = []

/-- No box is a caret, and the selected ones are the boxes of certain atoms. -/
structure ShowsSelected (atoms : List Atom) (b : MathBox) : Prop where
  caret : b.having MathBox.isCaret = []
  selected : List.Forall₂ IsBoxOf atoms (b.having MathBox.isSelected)

theorem besideNoCaret_mark (hc : withLabels Label.hasCaret [a] = []) :
    BesideNoCaret (a.mark Marks.forCaretInside) := by
  have hbeside := besideNoCaret hc
  constructor
  · rw [Atom.marks_mark]
    simp [Marks.union, hbeside.before, Marks.forCaretInside, Marks.none]
  · rw [Atom.marks_mark]
    simp [Marks.union, hbeside.after, Marks.forCaretInside, Marks.none]

/-- An atom with a mark for a caret in its empty body shows the caret. -/
theorem exists_having_isCaret_mark (hwa : a.isWellFormed = true)
    (hc : withLabels Label.hasCaret [a] = []) (hk : a.kind ≠ .accent)
    (hb : a.branch .body = some []) (hg : isGridBody a.kind .body = false)
    (h : LaidOut (a.mark Marks.forCaretInside) b) :
    ∃ style, b.having MathBox.isCaret = [caretIn style] := by
  have hkind : (a.mark Marks.forCaretInside).kind = a.kind := Atom.kind_mapMarks ..
  have hbranch : (a.mark Marks.forCaretInside).branch .body = some [] :=
    (Atom.branch_mapMarks a _ .body).trans hb
  have hlead : leadsWithCaret (a.mark Marks.forCaretInside) .body = true := by
    rw [leadsWithCaret_body hkind hk, Atom.marks_mark]
    simp [Marks.union, Marks.forCaretInside, Marks.none]
  have hbelow : withLabels Label.hasCaret (a.mark Marks.forCaretInside).children = [] := by
    rw [Atom.children_mark]
    exact Atom.withLabels_children_eq_nil hc
  exact h.exists_having_isCaret ((Atom.isWellFormed_mapMarks a _).2 hwa) hlead hbranch
    (hkind ▸ hg) hbelow

section

variable (hw : root.isWellFormed = true) (hn : withLabels Label.isTransient [root] = [])
include hw hn

theorem showsCaret_beside (hb : IsBranch root q slot owner (before ++ [c] ++ after))
    (hm : Marks.IsBeside marks)
    (hw' : (q.fill slot (before ++ [c.mark marks] ++ after) root).isWellFormed = true)
    (h : LaidOut (q.fill slot (before ++ [c.mark marks] ++ after) root) b) : ShowsCaret b := by
  have hatoms := hb.withLabels_eq_nil hn
  constructor
  · obtain ⟨style, parts, hitems, hfound⟩ := h.exists_fill hb hw hn hw'
    have hcarets := hasCaret_eq_nil hatoms
    have hwell := (hb.wellFormed hw).wellFormed
    simp only [List.append_assoc, List.singleton_append] at hitems hcarets hwell
    exact ⟨style, (hfound _ fromMarks_isCaret).trans
      (hitems.having_isCaret hwell hcarets hm.inside hm.beside)⟩
  · refine lacks_isSelected hw' ?_ b h
    have hsiblings := selected_eq_nil hatoms
    rw [hb.withLabels_fill (selected_eq_nil hn), Atom.withLabels_between hsiblings]
    simp only [Atom.withLabels_append, List.append_eq_nil_iff] at hsiblings
    have hc := hsiblings.1.2
    refine Atom.withLabels_mark_of_false hc ?_
    rw [selected_mark, (Atom.withLabels_singleton_eq_nil_iff.1 hc).1, hm.selected]
    rfl

theorem showsCaret_inside (hb : IsBranch root q slot owner [])
    (hw' : (q.modifyAtom (·.mark Marks.forCaretInside) root).isWellFormed = true)
    (h : LaidOut (q.modifyAtom (·.mark Marks.forCaretInside) root) b) : ShowsCaret b := by
  have hclear : withLabels Label.isTransient [owner] = [] :=
    Atom.withLabels_descend?_eq_nil hn hb.atom?_eq
  obtain ⟨rfl, hk⟩ := hb.of_nil hw
  constructor
  · have hwo := hb.isWellFormed_owner hw
    have hcaret := hasCaret_eq_nil hclear
    obtain ⟨part, hpart, -, hfound⟩ := h.exists_descend hw hn hb.atom?_eq (Atom.kind_mapMarks ..)
      ((Atom.isWellFormed_mapMarks owner _).2 hwo) (besideNoCaret_mark hcaret)
      (Path.modifyAtom?_eq_some hb.atom?_eq _)
    obtain ⟨style, hshown⟩ :=
      exists_having_isCaret_mark hwo hcaret hk hb.branch_eq hb.not_grid hpart
    exact ⟨style, (hfound _ fromMarks_isCaret).trans hshown⟩
  · refine lacks_isSelected hw' ?_ b h
    rw [Atom.withLabels_modifyAt? (selected_eq_nil hn) hb.atom?_eq
      (Path.modifyAtom?_eq_some hb.atom?_eq _)]
    refine Atom.withLabels_mark_of_false (selected_eq_nil hclear) ?_
    rw [selected_mark]
    exact congrArg (· || false) (selected_eq_false hclear)

/-- The layout of a formula in which a caret was marked shows the caret. -/
theorem showsCaret_markCaret (hb : IsBranch root q slot owner atoms) (ho : IsOffset atoms offset)
    (hw' : (markCaret root (q.child slot offset)).isWellFormed = true)
    (h : LaidOut (markCaret root (q.child slot offset)) b) : ShowsCaret b := by
  rcases markCaret_cases hb ho with ⟨before, c, after, marks, hm, rfl, hmark⟩ | ⟨rfl, hmark⟩
  · rw [hmark] at h hw'
    exact showsCaret_beside hw hn hb hm hw' h
  · rw [hmark] at h hw'
    exact showsCaret_inside hw hn hb hw' h

/-- The layout of a formula in which siblings were marked as selected shows them. -/
theorem showsSelected_fill (hb : IsBranch root q slot owner (before ++ chosen ++ after))
    (hw' : (q.fill slot (before ++ chosen.map (·.mark Marks.forSelected) ++ after)
      root).isWellFormed = true)
    (h : LaidOut (q.fill slot (before ++ chosen.map (·.mark Marks.forSelected) ++ after) root) b) :
    ShowsSelected (chosen.map (·.mark Marks.forSelected)) b := by
  have hatoms := hb.withLabels_eq_nil hn
  constructor
  · refine lacks_isCaret hw' ?_ b h
    have hsiblings := hasCaret_eq_nil hatoms
    rw [hb.withLabels_fill (hasCaret_eq_nil hn), Atom.withLabels_between hsiblings,
      Atom.withLabels_eq_nil_iff]
    simp only [Atom.withLabels_append, List.append_eq_nil_iff] at hsiblings
    refine List.forall_mem_map.2 fun a ha => ?_
    have hnone := Atom.withLabels_eq_nil_iff.1 hsiblings.1.2 a ha
    refine Atom.withLabels_mark_of_false hnone ?_
    rw [hasCaret_mark_forSelected, (Atom.withLabels_singleton_eq_nil_iff.1 hnone).1]
  · obtain ⟨style, parts, hitems, hfound⟩ := h.exists_fill hb hw hn hw'
    have hwell := (hb.wellFormed hw).wellFormed
    have hsiblings := selected_eq_nil hatoms
    simp only [Atom.withLabels_append, List.append_eq_nil_iff] at hsiblings
    obtain ⟨⟨hbefore, hchosen⟩, hafter⟩ := hsiblings
    rw [List.forall_mem_append, List.forall_mem_append] at hwell
    obtain ⟨⟨hwBefore, hwChosen⟩, hwAfter⟩ := hwell
    obtain ⟨left, right, rfl, hleft, hright⟩ := hitems.exists_append
    obtain ⟨first, middle, rfl, hfirst, hmiddle⟩ := hleft.exists_append
    have hlacks {siblings : List Atom} (hws : ∀ s ∈ siblings, s.isWellFormed = true)
        (hns : withLabels (fun l => l.marks.selected) siblings = []) :
        ∀ s ∈ siblings, Lacks MathBox.isSelected s := fun s hs =>
      lacks_isSelected (hws s hs) (Atom.withLabels_eq_nil_iff.1 hns s hs)
    rw [hfound _ fromMarks_isSelected, List.flatMap_append, List.flatMap_append,
      hfirst.flatMap_having_eq_nil (.inl ignoresCarets_isSelected) (hlacks hwBefore hbefore),
      hright.flatMap_having_eq_nil (.inl ignoresCarets_isSelected) (hlacks hwAfter hafter),
      List.nil_append, List.append_nil]
    refine hmiddle.having_isSelected ?_ ?_ ?_
    · exact List.forall_mem_map.2 fun a ha => (Atom.isWellFormed_mapMarks a _).2 (hwChosen a ha)
    · exact List.forall_mem_map.2 fun a _ => (selected_mark a _).trans (Bool.or_true _)
    · refine List.forall_mem_map.2 fun a ha => ?_
      rw [Atom.children_mark]
      exact Atom.withLabels_children_eq_nil (Atom.withLabels_eq_nil_iff.1 hchosen a ha)

end

/-! ## What is marked -/

section

variable (hn : withLabels Label.isTransient [root] = [])
include hn

theorem exists_withLabels_markCaret (hb : IsBranch root q slot owner atoms)
    (ho : IsOffset atoms offset) :
    ∃ a, withLabels Label.isTransient [markCaret root (q.child slot offset)] = [a] := by
  rcases markCaret_cases hb ho with ⟨before, c, after, marks, hm, rfl, hmark⟩ | ⟨-, hmark⟩
  · have hatoms := hb.withLabels_eq_nil hn
    have hc := hatoms
    simp only [Atom.withLabels_append, List.append_eq_nil_iff] at hc
    have hshown : (marks.caretAfter || marks.caretBefore || marks.caretInside || marks.selected) =
        true := by
      rw [hm.beside]
      cases marks.caretAfter <;> rfl
    rw [hmark, hb.withLabels_fill hn, Atom.withLabels_between hatoms,
      Atom.withLabels_mark_of_true hc.1.2 (isTransient_mark hshown c)]
    exact ⟨_, rfl⟩
  · have hclear := Atom.withLabels_descend?_eq_nil hn hb.atom?_eq
    rw [hmark, Atom.withLabels_modifyAt? hn hb.atom?_eq (Path.modifyAtom?_eq_some hb.atom?_eq _),
      Atom.withLabels_mark_of_true hclear (isTransient_mark rfl owner)]
    exact ⟨_, rfl⟩

theorem withLabels_fill_selected (hb : IsBranch root q slot owner (before ++ chosen ++ after)) :
    withLabels Label.isTransient
      [q.fill slot (before ++ chosen.map (·.mark Marks.forSelected) ++ after) root] =
        chosen.map (·.mark Marks.forSelected) := by
  have hatoms := hb.withLabels_eq_nil hn
  have hchosen := hatoms
  simp only [Atom.withLabels_append, List.append_eq_nil_iff] at hchosen
  rw [hb.withLabels_fill hn, Atom.withLabels_between hatoms]
  exact Atom.withLabels_map_mark hchosen.1.2 (isTransient_mark rfl)

end

/-! ## Laying out an editor -/

theorem isWellFormed_prepareForLayout (e : Editor) :
    e.prepareForLayout.root.isWellFormed = true ↔ e.root.isWellFormed = true := by
  rw [← isWellFormed_clearTransientMarks, clearTransientMarks_prepareForLayout,
    isWellFormed_clearTransientMarks]

theorem withLabels_clearTransientMarks (a : Atom) :
    withLabels Label.isTransient [a.clearTransientMarks] = [] :=
  Atom.withLabels_mapLabels_eq_nil (fun _ => rfl) a

theorem prepareForLayout_of_valid
    (h : (e.withRoot e.root.clearTransientMarks).validate = .ok ()) :
    e.prepareForLayout.root = if e.selection.isCollapsed then
      markCaret e.root.clearTransientMarks e.selection.focus
    else e.selection.focus.modifyBranch
      (markSelected e.selection.startIndex e.selection.stopIndex) e.root.clearTransientMarks := by
  simp only [prepareForLayout, h]
  exact apply_ite Editor.root _ _ _

/-- In the formula that is laid out the marks of a valid selection are set. -/
theorem SelectsIn.exists_prepareForLayout {anchor focus : Int}
    (h : e.SelectsIn q slot owner atoms anchor focus) : ∃ owner' atoms',
      (e.withRoot e.root.clearTransientMarks).SelectsIn q slot owner' atoms' anchor focus ∧
      e.prepareForLayout.root = if e.selection.isCollapsed then
        markCaret e.root.clearTransientMarks (q.child slot focus)
      else q.fill slot (markSelected e.selection.startIndex e.selection.stopIndex atoms')
        e.root.clearTransientMarks := by
  obtain ⟨owner', atoms', hcleared⟩ : ∃ owner' atoms',
      (e.withRoot e.root.clearTransientMarks).SelectsIn q slot owner' atoms' anchor focus :=
    h.of_bare_eq (bare_clearTransientMarks e.root).symm rfl
  refine ⟨owner', atoms', hcleared, ?_⟩
  have hfocus : e.selection.focus = q.child slot focus := by rw [h.selection_eq]
  have hb : IsBranch e.root.clearTransientMarks q slot owner' atoms' := hcleared.branch
  have hvalid := (validate_eq_ok_iff _).2 ⟨q, slot, owner', atoms', _, _, hcleared⟩
  rw [prepareForLayout_of_valid hvalid, hfocus, Path.modifyBranch_child hb focus]

/-- The layout of a sound editor shows the caret, or else the selected atoms, and nothing more. For
that the marks of carets and selections are set anew, and nothing else is changed. -/
theorem layout_shows_selection (e : Editor) (h : e.Sound) (style : Style) :
    (e.selection.isCollapsed = true → ShowsCaret (e.layout style).1 ∧
      ∃ a, withLabels Label.isTransient [e.prepareForLayout.root] = [a]) ∧
    (e.selection.isCollapsed = false →
      ShowsSelected e.prepareForLayout.selectedAtoms (e.layout style).1 ∧
      withLabels Label.isTransient [e.prepareForLayout.root] = e.prepareForLayout.selectedAtoms) ∧
    e.prepareForLayout = e.withRoot e.prepareForLayout.root ∧
    e.prepareForLayout.root.clearTransientMarks = e.root.clearTransientMarks ∧
    (∀ root : Atom, root.clearTransientMarks = e.root.clearTransientMarks →
      (e.withRoot root).prepareForLayout = e.prepareForLayout) ∧
    e.prepareForLayout.prepareForLayout = e.prepareForLayout := by
  obtain ⟨q, slot, owner, atoms, anchor, focus, hsel⟩ := h.exists_selectsIn
  obtain ⟨owner', atoms', hcleared, hroot⟩ := hsel.exists_prepareForLayout
  have hb : IsBranch e.root.clearTransientMarks q slot owner' atoms' := hcleared.branch
  have hn := withLabels_clearTransientMarks e.root
  have hw := (isWellFormed_clearTransientMarks e.root).2 h.isWellFormed
  have hw' := (isWellFormed_prepareForLayout e).2 h.isWellFormed
  have hlaid := laidOut_layout style e.prepareForLayout.root
  have hlayout : (e.layout style).1 = Typeset.layout style e.prepareForLayout.root := rfl
  refine ⟨fun hc => ?_, fun hc => ?_, e.prepareForLayout_eq_withRoot,
    clearTransientMarks_prepareForLayout e, fun root => prepareForLayout_withRoot,
    prepareForLayout_prepareForLayout e⟩
  · rw [if_pos hc] at hroot
    rw [hlayout]
    rw [hroot] at hw' hlaid ⊢
    exact ⟨showsCaret_markCaret hw hn hb hcleared.focus hw' hlaid,
      exists_withLabels_markCaret hn hb hcleared.focus⟩
  · rw [if_neg (by simp [hc])] at hroot
    have hle : e.selection.startIndex ≤ e.selection.stopIndex := hcleared.startIndex_le.1
    have hlength : e.selection.stopIndex ≤ atoms'.length := hcleared.startIndex_le.2
    obtain ⟨before, chosen, after, rfl, hmarked, hslice⟩ := markSelected_eq hle hlength
    have hchosen : e.prepareForLayout.selectedAtoms = chosen.map (·.mark Marks.forSelected) := by
      rw [selectedAtoms, selection_prepareForLayout, hroot, hsel.selection_eq, (hb.fill _).branch?,
        Option.getD_some, ← hsel.selection_eq]
      exact hslice
    rw [hmarked] at hroot
    rw [hchosen, hlayout]
    rw [hroot] at hw' hlaid ⊢
    exact ⟨showsSelected_fill hw hn hb hw' hlaid, withLabels_fill_selected hn hb⟩

/-- The formula `xyz` with `yz` selected, and a caret from before still marked at `x`. -/
def reselected : Editor :=
  let x := (Atom.leaf 0 .ordinary (some "x") none).mark Marks.forCaretAfter
  let y := Atom.leaf 1 .ordinary (some "y") none
  let z := Atom.leaf 2 .ordinary (some "z") none
  { Editor.ofRoot (Atom.newRoot [x, y, z] 3).1 4 with
    selection := ⟨Path.inRoot 2, Path.inRoot 0⟩ }

theorem layout_shows_selection_reselected :
    ShowsSelected reselected.prepareForLayout.selectedAtoms (reselected.layout Style.text).1 ∧
      ((reselected.layout Style.text).1.having MathBox.isSelected).length = 2 := by
  have hsound : reselected.Sound := ⟨rfl, by decide, rfl⟩
  obtain ⟨hshows, -⟩ := (layout_shows_selection reselected hsound Style.text).2.1 rfl
  exact ⟨hshows, hshows.selected.length_eq.symm⟩

end Editor

end FormulaEditor

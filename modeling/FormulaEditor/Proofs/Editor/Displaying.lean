import FormulaEditor.Editor.Display
import FormulaEditor.Proofs.Editor.Placed
import FormulaEditor.Proofs.Formula.Resemblance

/-!
# Laying out changes marks only

For a layout the selection is marked in the formula. Likeness does not see marks, so the formula
stays alike, and a position of a formula is one of every formula that is alike.
-/

namespace FormulaEditor

/-! ## Positions of alike formulas -/

section

variable {root root' owner : Atom} {q : Path} {slot : Slot} {atoms : List Atom}

theorem IsFormula.of_bare_eq (h : IsFormula root) (heq : root.bare = root'.bare) :
    IsFormula root' := by
  refine ⟨Atom.kind_of_bare_eq heq ▸ h.kind_root, ?_, h.regular.of_bare_eq heq⟩
  rw [← Atom.isSome_branch_of_bare_eq heq]
  exact h.hasBody

/-- The same branch is in an alike formula, with as many atoms. -/
theorem IsBranch.of_bare_eq (h : IsBranch root q slot owner atoms) (heq : root.bare = root'.bare) :
    ∃ owner' atoms', IsBranch root' q slot owner' atoms' ∧ atoms'.length = atoms.length := by
  have howner := congrArg (q.atom? ·) heq
  simp only [Path.atom?_bare, h.atom?_eq, Option.map_some] at howner
  obtain ⟨owner', howner', hbare⟩ := Option.map_eq_some_iff.1 howner.symm
  have hbranch := Atom.branch_of_bare_eq hbare.symm slot
  rw [h.branch_eq, Option.map_some] at hbranch
  obtain ⟨atoms', hatoms', hmap⟩ := Option.map_eq_some_iff.1 hbranch.symm
  refine ⟨owner', atoms', ⟨howner', hatoms', ?_⟩, ?_⟩
  · rw [Atom.kind_of_bare_eq hbare]
    exact h.not_grid
  · rw [← List.length_map (f := Atom.bare), hmap, List.length_map]

end

namespace Editor

variable {e e' : Editor}

/-- A selection is in the same branch of every alike formula. -/
theorem SelectsIn.of_bare_eq {q : Path} {slot : Slot} {owner : Atom} {atoms : List Atom}
    {anchor focus : Int} (h : e.SelectsIn q slot owner atoms anchor focus)
    (hr : e.root.bare = e'.root.bare) (hs : e'.selection = e.selection) :
    ∃ owner' atoms', e'.SelectsIn q slot owner' atoms' anchor focus := by
  obtain ⟨owner', atoms', hb, hlength⟩ := h.branch.of_bare_eq hr
  refine ⟨owner', atoms', hb, hs.trans h.selection_eq, ?_, ?_⟩
  · exact ⟨h.anchor.1, hlength ▸ h.anchor.2⟩
  · exact ⟨h.focus.1, hlength ▸ h.focus.2⟩

/-- A selection is valid in every alike formula. -/
theorem Placed.of_bare_eq (h : e.Placed) (hr : e.root.bare = e'.root.bare)
    (hs : e'.selection = e.selection) : e'.Placed := by
  obtain ⟨q, slot, owner, atoms, anchor, focus, hsel⟩ := h.exists_selectsIn
  obtain ⟨owner', atoms', hsel'⟩ := hsel.of_bare_eq hr hs
  exact hsel'.placed (h.formula.of_bare_eq hr)

/-! ## Marking the selection -/

/-- Changes of a run of atoms that are not seen in what the atoms are mapped to. -/
theorem map_splice_slice {α : Type} {f : Atom → Atom} {g : Atom → α} (hf : ∀ a, g (f a) = g a)
    {start stop : Nat} (h : start ≤ stop) (atoms : List Atom) :
    (splice atoms start stop ((slice atoms start stop).map f)).map g = atoms.map g := by
  have hslice : (slice atoms start stop).map (g ∘ f) = (slice atoms start stop).map g :=
    List.map_congr_left fun a _ => hf a
  rw [splice, List.map_append, List.map_append, List.map_map, hslice, ← List.map_append,
    ← List.map_append]
  exact congrArg (List.map g) (splice_slice atoms h)

theorem clearTransientMarks_clearTransientMarks (a : Atom) :
    a.clearTransientMarks.clearTransientMarks = a.clearTransientMarks := by
  rw [Atom.clearTransientMarks, Atom.clearTransientMarks, Atom.mapLabels_mapLabels]
  rfl

theorem isWellFormed_clearTransientMarks (a : Atom) :
    a.clearTransientMarks.isWellFormed = true ↔ a.isWellFormed = true :=
  Atom.isWellFormed_mapLabels (f := fun l => { l with marks := l.marks.lasting }) (fun _ => rfl) a

theorem clearTransientMarks_mark {marks : Marks} (hm : marks.lasting = Marks.none) (a : Atom) :
    (a.mark marks).clearTransientMarks = a.clearTransientMarks := by
  obtain ⟨_, _, _, _, error, suggestion⟩ := marks
  refine Atom.mapLabels_mapMarks (fun l => ?_) a
  simp_all [Marks.lasting, Marks.none, Marks.union]

theorem map_clearTransientMarks_markFirst (atoms : List Atom) :
    (markFirst atoms).map Atom.clearTransientMarks = atoms.map Atom.clearTransientMarks := by
  cases atoms with
  | nil => rfl
  | cons a rest => rw [markFirst, List.map_cons, clearTransientMarks_mark rfl, List.map_cons]

theorem map_clearTransientMarks_markSelected {start stop : Nat} (h : start ≤ stop)
    (atoms : List Atom) : (markSelected start stop atoms).map Atom.clearTransientMarks =
      atoms.map Atom.clearTransientMarks := by
  unfold markSelected
  split
  · exact map_splice_slice (clearTransientMarks_mark rfl) h atoms
  · rfl

theorem clearTransientMarks_markCaret (root : Atom) (p : Path) :
    (markCaret root p).clearTransientMarks = root.clearTransientMarks := by
  unfold markCaret
  split
  · exact Path.mapLabels_modifyAtom fun a _ => clearTransientMarks_mark rfl a
  split
  · exact Path.mapLabels_modifyOwner fun a _ => clearTransientMarks_mark rfl a
  · exact Path.mapLabels_modifyBranch fun atoms _ => map_clearTransientMarks_markFirst atoms

/-- The formula that is laid out differs from the edited one in marks for carets and selections
only. -/
theorem clearTransientMarks_prepareForLayout (e : Editor) :
    e.prepareForLayout.root.clearTransientMarks = e.root.clearTransientMarks := by
  have hcleared : e.root.clearTransientMarks.clearTransientMarks = e.root.clearTransientMarks :=
    clearTransientMarks_clearTransientMarks e.root
  unfold prepareForLayout
  simp only
  split
  · exact hcleared
  · rename_i hvalid
    obtain ⟨q, slot, owner, atoms, anchor, focus, hsel⟩ := (validate_eq_ok_iff _).1 hvalid
    have hle : e.selection.startIndex ≤ e.selection.stopIndex := hsel.startIndex_le.1
    split
    · exact (clearTransientMarks_markCaret ..).trans hcleared
    · exact (Path.mapLabels_modifyBranch fun atoms _ =>
        map_clearTransientMarks_markSelected hle atoms).trans hcleared

theorem bare_clearTransientMarks (a : Atom) : a.clearTransientMarks.bare = a.bare :=
  Atom.bare_mapLabels (f := fun l => { l with marks := l.marks.lasting }) (fun _ => rfl) a

/-- The formula that is laid out is alike the edited one. -/
theorem bare_prepareForLayout (e : Editor) : e.prepareForLayout.root.bare = e.root.bare := by
  rw [← bare_clearTransientMarks, clearTransientMarks_prepareForLayout, bare_clearTransientMarks]

theorem selection_prepareForLayout (e : Editor) : e.prepareForLayout.selection = e.selection := by
  unfold prepareForLayout
  simp only
  split
  · rfl
  · split <;> rfl

/-- Nothing but the formula is changed. -/
theorem prepareForLayout_eq_withRoot (e : Editor) :
    e.prepareForLayout = e.withRoot e.prepareForLayout.root := by
  unfold prepareForLayout
  simp only
  split
  · rfl
  · split <;> rfl

/-- The marks for carets and selections that were there before do not matter. -/
theorem prepareForLayout_withRoot {root : Atom}
    (h : root.clearTransientMarks = e.root.clearTransientMarks) :
    (e.withRoot root).prepareForLayout = e.prepareForLayout := by
  have hcleared : (e.withRoot root).withRoot (e.withRoot root).root.clearTransientMarks =
      e.withRoot e.root.clearTransientMarks := by
    rw [← h]
    rfl
  unfold prepareForLayout
  rw [hcleared]

theorem prepareForLayout_prepareForLayout (e : Editor) :
    e.prepareForLayout.prepareForLayout = e.prepareForLayout := by
  rw [e.prepareForLayout_eq_withRoot]
  exact (prepareForLayout_withRoot (clearTransientMarks_prepareForLayout e)).trans
    e.prepareForLayout_eq_withRoot

theorem Placed.layout (h : e.Placed) (style : Typeset.Style) : (e.layout style).2.Placed :=
  h.of_bare_eq (bare_prepareForLayout e).symm (selection_prepareForLayout e)

end Editor

end FormulaEditor

import FormulaEditor.Proofs.Editor.Placed.Deleting
import FormulaEditor.Proofs.Latex.Regular

/-!
# Insertion keeps an editor placed

An insertion takes the selection or what stands before the caret out, reads what is inserted and puts
it at the caret. All of it happens in one branch, which the caret does not leave before the insertion
is done. A script is entered or filled in the branch of an atom that may carry it.
-/

namespace FormulaEditor.Editor

open Atom (Regular)

variable {e e' : Editor} {q : Path} {slot : Slot} {owner : Atom} {atoms taken inserted : List Atom}
  {anchor focus offset : Int}

/-! ## Editing at the caret -/

/-- The caret is in the edited branch. -/
structure EditsAtCaret (e : Editor) (q : Path) (slot : Slot) (atoms : List Atom) (offset : Int) :
    Prop extends e.EditsIn q slot atoms where
  selection_eq : e.selection = Selection.caret (q.child slot offset)
  isOffset : IsOffset atoms offset

theorem EditsAtCaret.of_eq (h : e.EditsAtCaret q slot atoms offset) (hr : e'.root = e.root)
    (hs : e'.selection = e.selection) : e'.EditsAtCaret q slot atoms offset :=
  ⟨h.toEditsIn.of_root_eq hr, hs.trans h.selection_eq, h.isOffset⟩

theorem EditsAtCaret.caret_eq (h : e.EditsAtCaret q slot atoms offset) :
    e.caret = q.child slot offset := by
  rw [caret, h.selection_eq]
  rfl

theorem EditsAtCaret.placed (h : e.EditsAtCaret q slot atoms offset) : e.Placed :=
  h.toEditsIn.placed h.selection_eq h.isOffset h.isOffset

/-- The caret can be put anywhere in an edited branch. -/
theorem EditsIn.atCaret (h : e.EditsIn q slot atoms) (ho : IsOffset atoms offset) :
    (e.setCaret (q.child slot offset)).EditsAtCaret q slot atoms offset :=
  ⟨h.of_root_eq rfl, rfl, ho⟩

/-- The branch of the caret. -/
theorem Placed.caretBranch (h : e.Placed) :
    ∃ q slot offset atoms, e.caret = q.child slot offset ∧ e.EditsIn q slot atoms ∧
      IsOffset atoms offset := by
  obtain ⟨q, slot, offset, owner, atoms, hp, hb, ho⟩ := h.caret
  exact ⟨q, slot, offset, atoms, hp, h.editsIn hb, ho⟩

theorem regular_slice (h : ∀ a ∈ atoms, a.Regular) (start stop : Nat) :
    ∀ a ∈ slice atoms start stop, a.Regular := fun a ha =>
  h a (mem_of_mem_slice ha)

/-! ## Arguments -/

theorem Placed.takeSelection (h : e.Placed) :
    ∃ q slot content offset, e.takeSelection.2.EditsAtCaret q slot content offset ∧
      ∀ a ∈ e.takeSelection.1, a.Regular := by
  obtain ⟨q, slot, owner, atoms, anchor, focus, hsel⟩ := h.exists_selectsIn
  have hedits := h.editsIn hsel.branch
  unfold Editor.takeSelection
  simp only
  split
  · rename_i hcollapsed
    have heq : q.child slot anchor = q.child slot focus := by
      simpa [Selection.isCollapsed, hsel.selection_eq] using hcollapsed
    refine ⟨q, slot, atoms, focus, ⟨hedits, ?_, hsel.focus⟩, List.forall_mem_nil _⟩
    rw [hsel.selection_eq, heq]
    rfl
  · obtain ⟨hstart, -, -, -⟩ := hsel.start_stop
    obtain ⟨hle, hlen⟩ := hsel.startIndex_le
    obtain ⟨hindex, -⟩ := hsel.indices
    have hbranch : ((q.child slot (min anchor focus)).branch? e.root).getD [] = atoms := by
      rw [hsel.branch.branch?, Option.getD_some]
    have hroot : (e.setCaret (q.child slot (min anchor focus))).root = e.root := rfl
    simp only [hstart, hroot, hbranch, Nat.not_lt.2 hlen, if_false]
    have hoffset : IsOffset (FormulaEditor.splice atoms e.selection.startIndex
        e.selection.stopIndex []) ((e.selection.startIndex : Int) - 1) :=
      isOffset_splice (Nat.le_trans hle hlen)
    rw [hindex, Int.add_sub_cancel] at hoffset
    have hnone : ∀ a ∈ ([] : List Atom), a.Regular := List.forall_mem_nil _
    have hremoved := (hedits.of_root_eq hroot).splice (min anchor focus) e.selection.startIndex
      e.selection.stopIndex hnone
    refine ⟨q, slot, _, min anchor focus, ⟨hremoved, rfl, hoffset⟩, ?_⟩
    split
    · exact List.forall_mem_nil _
    · exact regular_slice hedits.regular _ _

theorem EditsAtCaret.takeImplicitArgument (h : e.EditsAtCaret q slot atoms offset) :
    ∃ content offset', e.takeImplicitArgument.2.EditsAtCaret q slot content offset' ∧
      ∀ a ∈ e.takeImplicitArgument.1, a.Regular := by
  unfold Editor.takeImplicitArgument
  simp only [h.caret_eq, h.branch?]
  split
  · exact ⟨atoms, offset, h, nofun⟩
  · simp only [Path.offset_child, Path.withOffset_child]
    have hlt := Nat.min_le_right (offset + 1).toNat atoms.length
    exact ⟨_, _, (h.splice offset _ _ (by simp)).atCaret
      (isOffset_splice (Nat.le_trans (Nat.sub_le _ _) hlt)), regular_slice h.regular _ _⟩

/-- Taking the arguments of a fragment out leaves the caret in an edited branch. -/
theorem Placed.takeArgument (h : e.Placed) (text : String) :
    ∃ q slot content offset, (e.takeArgument text).2.EditsAtCaret q slot content offset ∧
      ∀ a ∈ (e.takeArgument text).1, a.Regular := by
  obtain ⟨q, slot, content, offset, htaken⟩ := h.takeSelection
  unfold Editor.takeArgument
  simp only
  split
  · exact ⟨q, slot, htaken.1.takeImplicitArgument⟩
  · exact ⟨q, slot, content, offset, htaken⟩

/-! ## Inserting -/

theorem EditsIn.insert (h : e.EditsIn q slot atoms) (hi : ∀ a ∈ inserted, a.Regular)
    (offset : Int) :
    (e.putBranch (q.child slot offset)
      (withInserted atoms (q.child slot offset) inserted)).EditsIn q slot
        (withInserted atoms (q.child slot offset) inserted) := by
  refine h.putBranch offset (regular_splice ?_ hi)
  unfold insertionPoint
  split
  · exact nofun
  · exact h.regular

theorem EditsAtCaret.insertAtoms (h : e.EditsAtCaret q slot atoms offset)
    (hi : ∀ a ∈ inserted, a.Regular) (mode : SelectionMode) :
    (e.insertAtoms inserted mode).state.Placed := by
  unfold Editor.insertAtoms
  simp only [h.caret_eq, h.branch?]
  split
  · rw [Path.offset_child]
    exact h.placed_settleCaret _ fun _ => h.isOffset
  · rename_i hne
    replace hne : inserted ≠ [] := by simpa using hne
    have hinserted := h.insert hi offset
    have hoffset := isOffset_withInserted h.isOffset q slot hne
    obtain ⟨owner, hb⟩ := hinserted.exists_branch
    have hlength := length_withInserted h.isOffset q slot inserted
    have hpos := List.length_pos_iff.2 hne
    exact (hinserted.placed h.selection_eq hoffset hoffset).selectInserted hb offset (by omega)
      (by omega) mode

theorem Placed.insert (h : e.Placed) (text : String) (options : InsertOptions) :
    (e.insert text options).state.Placed := by
  obtain ⟨q, slot, content, offset, hedits, htaken⟩ := h.takeArgument text
  have hargs : ∀ atoms ∈ [(e.takeArgument text).1], ∀ a ∈ atoms, a.Regular := by
    simpa using htaken
  have hreads := readsInto_textAtoms (e := (e.takeArgument text).2)
    (Latex.regular_parseFragment hargs) (fun _ => Atom.regular_of_isWellFormed) text options.format
    (if (e.takeArgument text).2.inText then .text else .math)
  unfold Editor.insert
  rw [h.whenValid]
  exact (hedits.of_eq hreads.root_eq hreads.selection_eq).insertAtoms hreads.forall_mem
    options.selectionMode

/-! ## Scripts -/

/-- At the path stands an atom of an edited branch that may carry scripts. -/
structure CarriesScripts (e : Editor) (base : Path) : Prop where
  formula : IsFormula e.root
  exists_base : ∃ q slot owner atoms a, ∃ i : Nat, base = q.child slot i ∧
    IsBranch e.root q slot owner atoms ∧ atoms[i]? = some a ∧ a.kind.allowsScripts = true

theorem EditsIn.carriesScripts {a : Atom} {i : Nat} (h : e.EditsIn q slot atoms)
    (hi : atoms[i]? = some a) (hk : a.kind.allowsScripts = true) :
    e.CarriesScripts (q.child slot i) := by
  obtain ⟨owner, hb⟩ := h.exists_branch
  exact ⟨h.formula, q, slot, owner, atoms, a, i, rfl, hb, hi, hk⟩

theorem EditsIn.putPlaceholder (h : e.EditsIn q slot atoms) (offset : Int) (start stop : Nat) :
    ((e.mint Atom.newPlaceholder).2.putBranch (q.child slot offset)
      (FormulaEditor.splice atoms start stop [Atom.placeholder e.supply])).EditsIn q slot
        (FormulaEditor.splice atoms start stop [Atom.placeholder e.supply]) :=
  have hminted : (e.mint Atom.newPlaceholder).2.EditsIn q slot atoms := h.of_root_eq rfl
  hminted.splice offset start stop (by simp [Atom.regular_placeholder])

/-- The script of the base is a branch that can be edited. -/
theorem CarriesScripts.ensureScript {base : Path} (h : e.CarriesScripts base)
    (hs : slot.isScript = true) :
    ∃ script e', e.ensureScript base slot = (some script, e') ∧ e'.EditsIn base slot script := by
  obtain ⟨q, slot', owner, atoms, a, i, rfl, hb, hi, hk⟩ := h.exists_base
  have hbranch := (h.formula.regular_owner hb).branch hb.branch_eq
  have hset := hbranch.set hi (Atom.exists_branch_ensureBranch hs hk e.supply).1
    ((hbranch.regular a (List.mem_of_getElem? hi)).ensureBranch hs hk e.supply)
  obtain ⟨script, e', hensure, hroot, hscript⟩ := ensureScript_eq hb hi hk hs
  refine ⟨script, e', hensure, ?_, _, hscript⟩
  rw [hroot]
  exact h.formula.fill hb hset.regular

theorem Placed.carriesScripts_scriptBase (h : e.Placed) :
    (e.scriptBase e.caret).2.CarriesScripts (e.scriptBase e.caret).1 := by
  obtain ⟨q, slot, offset, owner, atoms, hp, hb, ho⟩ := h.caret
  have hedits := h.editsIn hb
  rw [hp]
  rcases scriptBase_cases hb ho with ⟨a, i, hi, hk, heq⟩ | ⟨i, hle, heq⟩
  · rw [heq]
    exact hedits.carriesScripts hi hk
  · rw [heq]
    exact (hedits.putPlaceholder offset i i).carriesScripts (getElem?_splice_singleton hle i _) rfl

theorem Placed.enterScript (h : e.Placed) (hs : slot.isScript = true) :
    (e.enterScript slot).state.Placed := by
  obtain ⟨script, e', hensure, hedits⟩ :=
    (h.collapse .forward).carriesScripts_scriptBase.ensureScript hs
  unfold Editor.enterScript
  simp only [hensure]
  exact hedits.setCaret (isOffset_lastOffset script)

theorem Placed.carriesScripts_takeForScript (h : e.Placed)
    (hsel : e.SelectsIn q slot owner atoms anchor focus) :
    (e.takeForScript atoms).2.CarriesScripts (e.takeForScript atoms).1 := by
  have hedits := h.editsIn hsel.branch
  rcases hsel.takeForScript_cases with ⟨a, i, hi, hk, heq⟩ | ⟨hle, heq⟩
  · rw [heq]
    exact (hedits.splice i _ _ (by simp)).carriesScripts hi hk
  · rw [heq]
    exact (hedits.putPlaceholder (min anchor focus) _ _).carriesScripts
      (getElem?_splice_singleton hle _ _) rfl

theorem Placed.promote (h : e.Placed) (hs : slot.isScript = true) :
    (e.promote slot).state.Placed := by
  unfold Editor.promote
  split
  · exact h.enterScript hs
  · obtain ⟨q, slot', owner, atoms, anchor, focus, hsel⟩ := h.exists_selectsIn
    obtain ⟨hstart, -, -, -⟩ := hsel.start_stop
    have hmoved := regular_slice (h.editsIn hsel.branch).regular e.selection.startIndex
      e.selection.stopIndex
    obtain ⟨script, e', hensure, hedits⟩ := (h.carriesScripts_takeForScript hsel).ensureScript hs
    simp only [hstart, hsel.branch.branch?, hensure]
    refine (hedits.putBranch _ fun a ha => ?_).setCaret (isOffset_lastOffset _)
    split at ha
    · exact hmoved a ha
    · exact (List.mem_append.1 ha).elim (hedits.regular a) (hmoved a)

end FormulaEditor.Editor

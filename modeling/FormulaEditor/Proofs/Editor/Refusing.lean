import FormulaEditor.Proofs.Editor.Placed.Operations

/-!
# Refused operations

An operation is refused before it changes anything. What it does to an editor with a valid selection
stays in the branch of the caret, which is there until the operation is done, and a script is only
given to an atom that may carry it; so none of the later reasons to refuse ever applies. This depends
on neither what the formula is nor on where in it the caret is. Only completing a command checks the
selection a second time, after the command was taken out of the formula.
-/

namespace FormulaEditor.Editor

variable {e e' : Editor} {q base : Path} {slot : Slot} {owner : Atom} {atoms : List Atom}
  {anchor focus offset : Int}

/-! ## The branch of the caret -/

theorem SelectsIn.isPosition_caret (h : e.SelectsIn q slot owner atoms anchor focus) :
    IsPosition e.root e.caret := by
  rw [caret, h.selection_eq]
  exact h.branch.isPosition h.focus

/-- A caret in a branch that was filled with other atoms is at a position if its offset is one. -/
theorem isPosition_caret_putBranch (hb : IsBranch e.root q slot owner atoms) (at' : Int)
    {content : List Atom} (ho : IsOffset content offset) (hc : e'.caret = q.child slot offset)
    (hr : e'.root = (e.putBranch (q.child slot at') content).root) :
    IsPosition e'.root e'.caret := by
  rw [hc, hr, putBranch, withRoot, Path.putBranch_child hb]
  exact (hb.fill content).isPosition ho

theorem isPosition_caret_takeSelection (h : e.SelectsIn q slot owner atoms anchor focus) :
    IsPosition e.takeSelection.2.root e.takeSelection.2.caret := by
  obtain ⟨hstart, -, hoffset, -⟩ := h.start_stop
  obtain ⟨hle, hlen⟩ := h.startIndex_le
  obtain ⟨hindex, -⟩ := h.indices
  unfold takeSelection
  simp only
  split
  · exact h.isPosition_caret
  split
  · rw [hstart]
    exact h.branch.isPosition hoffset
  · have hbranch : (e.selection.startPath.branch? e.root).getD [] = atoms := by
      rw [hstart, h.branch.branch?, Option.getD_some]
    have ho : IsOffset (splice atoms e.selection.startIndex e.selection.stopIndex [])
        ((e.selection.startIndex : Int) - 1) := isOffset_splice (Nat.le_trans hle hlen)
    rw [hindex, Int.add_sub_cancel, ← hbranch] at ho
    rw [hstart] at ho ⊢
    exact isPosition_caret_putBranch (e := e.setCaret (q.child slot (min anchor focus))) h.branch
      (min anchor focus) ho rfl rfl

theorem isPosition_caret_takeImplicitArgument (h : IsPosition e.root e.caret) :
    IsPosition e.takeImplicitArgument.2.root e.takeImplicitArgument.2.caret := by
  obtain ⟨q, slot, offset, owner, atoms, hcaret, hb, ho⟩ := h
  unfold takeImplicitArgument
  simp only [hcaret, hb.branch?]
  split
  · rw [hcaret]
    exact hb.isPosition ho
  · simp only [Path.offset_child, Path.withOffset_child]
    have hlt := Nat.min_le_right (offset + 1).toNat atoms.length
    exact isPosition_caret_putBranch hb offset (isOffset_splice (Nat.le_trans (Nat.sub_le _ _) hlt))
      rfl rfl

theorem isPosition_caret_takeArgument (h : e.validate = .ok ()) (text : String) :
    IsPosition (e.takeArgument text).2.root (e.takeArgument text).2.caret := by
  obtain ⟨q, slot, owner, atoms, anchor, focus, hsel⟩ := (validate_eq_ok_iff e).1 h
  have htaken := isPosition_caret_takeSelection hsel
  unfold takeArgument
  simp only
  split
  · exact isPosition_caret_takeImplicitArgument htaken
  · exact htaken

/-! ## Insertion -/

theorem whenValid_of_valid (h : e.validate = .ok ()) (operation : Editor → Outcome Editor Unit) :
    e.whenValid operation = operation e := by
  simp [whenValid, h]

theorem answer_insertAtoms (h : IsPosition e.root e.caret) (atoms : List Atom)
    (mode : SelectionMode) : (e.insertAtoms atoms mode).answer = .ok () := by
  obtain ⟨q, slot, offset, owner, branch, hcaret, hb, -⟩ := h
  unfold insertAtoms
  simp only [hcaret, hb.branch?]
  split
  · rfl
  · rfl

/-- Reading changes neither the formula nor the selection. -/
theorem ReadsInto.isPosition_caret {P : Atom → Prop} {r : List Atom × Editor}
    (h : e.ReadsInto P r) (hp : IsPosition e.root e.caret) : IsPosition r.2.root r.2.caret := by
  rw [caret, h.root_eq, h.selection_eq]
  exact hp

theorem answer_insert (h : e.validate = .ok ()) (text : String) (options : InsertOptions) :
    (e.insert text options).answer = .ok () := by
  have hposition := isPosition_caret_takeArgument h text
  have hreads : (e.takeArgument text).2.ReadsInto (fun _ => True)
      ((e.takeArgument text).2.textAtoms text options.format
        (if (e.takeArgument text).2.inText then .text else .math) [(e.takeArgument text).1]) :=
    readsInto_textAtoms (fun _ _ _ _ _ => trivial) (fun _ _ => trivial) text options.format _
  unfold insert
  rw [whenValid_of_valid h]
  exact answer_insertAtoms (hreads.isPosition_caret hposition) _ _

/-! ## Scripts -/

theorem answer_whenValid_done (h : e.validate = .ok ()) (operation : Editor → Editor) :
    (e.whenValid fun e => .done (operation e)).answer = .ok () := by
  rw [whenValid_of_valid h]
  rfl

end FormulaEditor.Editor

import FormulaEditor.Proofs.Editor.Placed
import FormulaEditor.Proofs.Editor.Scripting

/-!
# Deletion keeps an editor placed

Deleting takes atoms out of a branch, dissolves a script behind its base or replaces an atom by what
it holds. The branch may have been empty before; what it holds afterwards is regular all the same,
and settling it gives the caret a place.
-/

namespace FormulaEditor

open Atom (Regular)

theorem regular_splice {atoms middle : List Atom} {start stop : Nat} (h : ∀ a ∈ atoms, a.Regular)
    (hm : ∀ a ∈ middle, a.Regular) : ∀ a ∈ splice atoms start stop middle, a.Regular := fun a ha =>
  (mem_of_mem_splice ha).elim (h a) (hm a)

theorem Atom.Regular.contentOf {a : Atom} (h : a.Regular) (slots : List Slot) :
    ∀ b ∈ contentOf a slots, b.Regular := by
  intro b hb
  obtain ⟨slot, -, hb⟩ := List.mem_flatMap.1 hb
  have hb := (List.mem_filter.1 hb).1
  cases hs : a.branch slot with
  | none => simp [hs] at hb
  | some atoms =>
      rw [hs] at hb
      exact (h.branch hs).regular b hb

namespace Editor

variable {e : Editor} {q : Path} {slot : Slot} {owner a : Atom} {atoms middle : List Atom}

/-! ## Taking atoms out -/

/-- A run of an edited branch may be replaced by regular atoms. -/
theorem EditsIn.splice (h : e.EditsIn q slot atoms) (offset : Int) (start stop : Nat)
    (hm : ∀ a ∈ middle, a.Regular) :
    (e.putBranch (q.child slot offset) (splice atoms start stop middle)).EditsIn q slot
      (FormulaEditor.splice atoms start stop middle) :=
  h.putBranch offset (regular_splice h.regular hm)

theorem EditsIn.eraseIdx (h : e.EditsIn q slot atoms) (i : Nat) :
    (e.withRoot ((q.child slot i).modifyBranch (fun b => b.eraseIdx i) e.root)).EditsIn q slot
      (atoms.eraseIdx i) :=
  h.modifyBranch i fun a ha => h.regular a (List.mem_of_mem_eraseIdx ha)

theorem Placed.removeSelection (h : e.Placed) : e.removeSelection.Placed := by
  by_cases hc : e.selection.isCollapsed = true
  · rwa [Editor.removeSelection, if_pos hc]
  · obtain ⟨q, slot, owner, atoms, anchor, focus, hsel⟩ := h.exists_selectsIn
    rw [hsel.removeSelection_eq hc]
    exact ((h.editsIn hsel.branch).splice _ _ _ (by simp)).placed_settleCaret _
      fun _ => hsel.isOffset_removed

theorem Placed.removeAtom (h : e.Placed) (hb : IsBranch e.root q slot owner atoms) {i : Nat}
    (hi : i < atoms.length) : (e.removeAtom (q.child slot i)).Placed := by
  rw [removeAtom_child]
  exact ((h.editsIn hb).eraseIdx i).placed_settleCaret _ fun _ => isOffset_eraseIdx hi

/-! ## Dissolving atoms -/

/-- A script is dissolved into the branch of its base, which is still there without the script. -/
theorem Placed.hoistScript (h : e.Placed) (hb : IsBranch e.root q slot owner atoms)
    (hs : slot.isScript = true) : (e.hoistScript q slot).Placed := by
  have hopt := Slot.isOptional_of_isScript hs
  have hremove := Atom.removeBranch_of_isOptional owner hopt
  obtain ⟨q', slot', i, content, rfl, hi, hremoved⟩ := (h.editsIn hb).exists_removed hopt
  have hscript : ∀ a ∈ withoutPlaceholders atoms, a.Regular := fun a ha =>
    (h.editsIn hb).regular a (List.mem_filter.1 ha).1
  have hspliced := hremoved.modifyBranch i
    (f := fun b => FormulaEditor.splice b (i + 1) (i + 1) (withoutPlaceholders atoms))
    (regular_splice hremoved.regular hscript)
  unfold Editor.hoistScript
  simp only [Path.index?_child, Step.index?_natCast, hb.atom?_eq, Option.bind_some, hremove,
    hb.branch_eq, Option.getD_some]
  refine hspliced.setCaret (isOffset_natCast ?_)
  rw [length_splice _ _ _ hi]
  omega

theorem Placed.unwrapAtom (h : e.Placed) (hb : IsBranch e.root q slot owner atoms) {i : Nat}
    (hi : atoms[i]? = some a) (inner : Slot) : (e.unwrapAtom (q.child slot i) inner).Placed := by
  have hregular := (h.editsIn hb).regular
  have hcontent := (hregular a (List.mem_of_getElem? hi)).contentOf (unwrappedSlots a)
  rw [unwrapAtom_child (by rw [hb.atom?, hi])]
  exact ((h.editsIn hb).modifyBranch i
    (f := fun b => FormulaEditor.splice b i (i + 1) (contentOf a (unwrappedSlots a)))
    (regular_splice hregular hcontent)).placed_settleCaret _
      fun _ => isOffset_unwrapped (Atom.lt_length_of_getElem?_eq_some hi) a inner

/-! ## Deleting -/

/-- The caret may stay where it was, unless its branch is gone. -/
theorem Placed.keepCaret (h : e.Placed) {caret : Int} (hc : leadingGap ≤ caret)
    (hb : ∀ branch, (q.child slot caret).branch? e.root = some branch →
      ∃ owner, IsBranch e.root q slot owner branch) : (e.keepCaret (q.child slot caret)).Placed := by
  unfold Editor.keepCaret
  split
  · rename_i branch hbranch
    obtain ⟨owner, hb⟩ := hb branch hbranch
    split
    · exact h
    · have hlast := isOffset_lastOffset branch
      rw [Path.withOffset_child, Path.offset_child]
      exact h.setCaret (hb.isPosition ⟨by have := hlast.1; omega, by have := hlast.2; omega⟩)
  · exact h

theorem Placed.of_deletesTo (h : e.Placed) {e' : Editor} (hd : e.DeletesTo e') : e'.Placed := by
  cases hd with
  | stays => exact h
  | steps d => exact h.stepCaret d false
  | removesSelection => exact h.removeSelection
  | removes hb hi => exact h.removeAtom hb (Atom.lt_length_of_getElem?_eq_some hi)
  | removesNext hb hi _ hc =>
      have hremoved := h.removeAtom hb (Atom.lt_length_of_getElem?_eq_some hi)
      rw [removeAtom_child] at hremoved ⊢
      obtain ⟨owner', herased⟩ := ((h.editsIn hb).eraseIdx _).exists_branch
      exact hremoved.keepCaret hc fun branch => isBranch_settleCaret herased _ _
  | hoists hb hs => exact h.hoistScript hb hs
  | unwraps hb hi => exact h.unwrapAtom hb hi _

theorem Placed.deleteOnce (h : e.Placed) (d : Direction) : (e.deleteOnce d).Placed :=
  h.of_deletesTo (deletesTo_deleteOnce h.formula.regular h.caret d)

theorem Placed.deleteTimes (d : Direction) (n : Nat) (h : e.Placed) :
    (deleteTimes d n e).Placed := by
  induction n generalizing e with
  | zero => exact h
  | succ n ih => exact ih (h.deleteOnce d)

theorem Placed.leaveEmptyCommand (h : e.Placed) : e.leaveEmptyCommand.Placed := by
  unfold Editor.leaveEmptyCommand
  split
  · exact h.of_eq rfl rfl
  · exact h

theorem Placed.delete (h : e.Placed) (d : Direction) (n : Nat) : (e.delete d n).state.Placed :=
  h.state_whenValid (h.deleteTimes d n).leaveEmptyCommand

end Editor

end FormulaEditor

import FormulaEditor.Proofs.Editor.Operations
import FormulaEditor.Proofs.Editor.Placed.Inserting
import FormulaEditor.Proofs.Editor.Suggesting

/-!
# Operations keep an editor placed

Every command leaves a placed editor placed, whether it is carried out or refused. This includes the
commands that take suggested characters away and may leave a branch empty that should not be empty:
the formula is ill formed then, but the caret still has a place in it.
-/

namespace FormulaEditor.Editor

open Atom (Regular)

variable {e : Editor} {q : Path} {slot : Slot} {atoms inserted : List Atom} {offset : Int}

/-- The branch of the caret, with the run of command atoms around it. -/
theorem Placed.onCommandRun (h : e.Placed) :
    ∃ q slot offset atoms, e.caret = q.child slot offset ∧ e.EditsIn q slot atoms ∧
      IsOffset atoms offset ∧ ∀ {α : Type} (default : α) (f : List Atom → CommandRun → α),
        e.onCommandRun default f = f atoms (CommandRun.around atoms offset) := by
  obtain ⟨q, slot, offset, atoms, hp, hedits, ho⟩ := h.caretBranch
  refine ⟨q, slot, offset, atoms, hp, hedits, ho, fun default f => ?_⟩
  unfold Editor.onCommandRun
  rw [hp, hedits.branch?, Path.offset_child]

/-! ## Marks -/

theorem EditsIn.mapRun (h : e.EditsIn q slot atoms) (hp : e.caret = q.child slot offset)
    (start stop : Nat) (f : Marks → Marks) :
    (e.mapRun atoms start stop fun a => a.mapMarks f).EditsIn q slot
      (remarked atoms start stop f) := by
  unfold Editor.mapRun
  rw [hp]
  refine h.splice offset start stop fun a ha => ?_
  obtain ⟨b, hb, rfl⟩ := List.mem_map.1 ha
  exact (regular_slice h.regular start stop b hb).mapMarks f

/-- Marks change neither what is selected nor how long the branch is. -/
theorem Placed.mapRun (h : e.Placed) (hp : e.caret = q.child slot offset)
    (hedits : e.EditsIn q slot atoms) {start stop : Nat} (hs : start ≤ stop)
    (he : stop ≤ atoms.length) (f : Marks → Marks) :
    (e.mapRun atoms start stop fun a => a.mapMarks f).Placed := by
  have hlength : (remarked atoms start stop f).length = atoms.length :=
    length_splice_map _ atoms hs he
  obtain ⟨q', slot', owner, atoms', anchor, focus, hsel⟩ := h.exists_selectsIn
  have hfocus : q'.child slot' focus = q.child slot offset := by
    rw [← hp, Editor.caret, hsel.selection_eq]
  obtain ⟨rfl, rfl, rfl⟩ := Path.child_injective hfocus
  cases (hedits.branch? focus).symm.trans (hsel.branch.branch? focus)
  refine (hedits.mapRun hp start stop f).placed hsel.selection_eq ?_ ?_
  · exact ⟨hsel.anchor.1, by rw [hlength]; exact hsel.anchor.2⟩
  · exact ⟨hsel.focus.1, by rw [hlength]; exact hsel.focus.2⟩

theorem Placed.decorateCommand (h : e.Placed) (error : Bool) :
    (e.decorateCommand error).Placed := by
  obtain ⟨q, slot, offset, atoms, hp, hedits, -, hrun⟩ := h.onCommandRun
  obtain ⟨hstart, hstop, hend⟩ := CommandRun.bounds atoms offset
  unfold Editor.decorateCommand
  rw [hrun]
  exact h.mapRun hp hedits (Nat.le_trans hstart hstop) hend _

theorem Placed.commitCommand (h : e.Placed) : e.commitCommand.Placed := by
  obtain ⟨q, slot, offset, atoms, hp, hedits, -, hrun⟩ := h.onCommandRun
  obtain ⟨hstart, hstop, hend⟩ := CommandRun.bounds atoms offset
  unfold Editor.commitCommand
  rw [hrun]
  exact h.mapRun hp hedits hstart (Nat.le_trans hstop hend) _

theorem Placed.acceptSuggestion (h : e.Placed) : e.acceptSuggestion.Placed := by
  obtain ⟨q, slot, offset, atoms, hp, hedits, -, hrun⟩ := h.onCommandRun
  obtain ⟨hstart, hstop, hend⟩ := CommandRun.bounds atoms offset
  have hmarked := hedits.mapRun hp (CommandRun.around atoms offset).start
    (CommandRun.around atoms offset).stop fun m => { m with suggestion := false }
  unfold Editor.acceptSuggestion
  rw [hrun, hp, Path.withOffset_child]
  refine hmarked.setCaret ⟨?_, ?_⟩
  · simp only [leadingGap]
    omega
  · rw [remarked, length_splice_map _ atoms (Nat.le_trans hstart hstop) hend]
    omega

/-! ## Suggestions -/

/-- Suggested characters are taken away from the branch of the caret, which may be empty then. -/
theorem Placed.exists_removeSuggestion (h : e.Placed) :
    ∃ q slot content offset, e.removeSuggestion.EditsAtCaret q slot content offset := by
  obtain ⟨q, slot, offset, atoms, hp, hedits, -, hrun⟩ := h.onCommandRun
  obtain ⟨hstart, hstop, hend⟩ := CommandRun.bounds atoms offset
  have hleft : (e.putBranch (q.child slot offset)
      (withoutSuggested atoms (CommandRun.around atoms offset))).EditsIn q slot
        (withoutSuggested atoms (CommandRun.around atoms offset)) := by
    refine hedits.splice offset _ _ fun a ha => ?_
    rcases List.mem_append.1 ha with ha | ha
    · exact regular_slice hedits.regular _ _ a (List.mem_filter.1 ha).1
    · exact regular_slice hedits.regular _ _ a (List.mem_filter.1 ha).1
  refine ⟨q, slot, withoutSuggested atoms (CommandRun.around atoms offset),
    (CommandRun.around atoms offset).start +
      typedBefore atoms (CommandRun.around atoms offset) - 1, ?_⟩
  unfold Editor.removeSuggestion
  simp only [hrun, hp, Path.withOffset_child]
  refine hleft.atCaret ⟨?_, ?_⟩
  · simp only [leadingGap]
    omega
  · rw [withoutSuggested, length_splice _ _ _ (by omega), List.length_append]
    omega

theorem Placed.removeSuggestion (h : e.Placed) : e.removeSuggestion.Placed := by
  obtain ⟨q, slot, content, offset, hremoved⟩ := h.exists_removeSuggestion
  exact hremoved.placed

theorem Placed.insertSuggestion (h : e.Placed) (text : List Char) (trim : Nat) :
    (e.insertSuggestion text trim).Placed := by
  obtain ⟨q, slot, content, offset, hremoved⟩ := h.exists_removeSuggestion
  obtain ⟨hstart, hstop, hend⟩ := CommandRun.bounds content offset
  have hminted : (e.removeSuggestion.mint (newCommandChars text)).2.EditsIn q slot content :=
    hremoved.of_root_eq rfl
  have hcaret : (e.removeSuggestion.mint (newCommandChars text)).2.caret = q.child slot offset :=
    hremoved.caret_eq
  have hchars : ∀ a ∈ (newCommandChars text e.removeSuggestion.supply).1.map asSuggested,
      a.Regular := by
    intro a ha
    obtain ⟨b, hb, rfl⟩ := List.mem_map.1 ha
    exact (Atom.regular_of_isWellFormed (isWellFormed_newCommandChars text _ b hb)).mapMarks _
  unfold Editor.insertSuggestion Editor.onCommandRun
  simp only [hremoved.caret_eq, hremoved.branch?, Path.offset_child, hcaret, Path.withOffset_child]
  refine (hminted.splice offset _ _ hchars).setCaret ⟨?_, ?_⟩
  · simp only [leadingGap]
    omega
  · rw [length_splice _ _ _ (by omega)]
    omega

/-! ## Typing and discarding commands -/

theorem Placed.insertAtCaret (h : e.Placed) (hi : ∀ a ∈ inserted, a.Regular)
    (hne : inserted ≠ []) : (e.insertAtCaret inserted).Placed := by
  obtain ⟨q, slot, offset, atoms, hp, hedits, ho⟩ := h.caretBranch
  have hlength := length_withInserted ho q slot inserted
  have hpos := List.length_pos_iff.2 hne
  unfold Editor.insertAtCaret
  simp only [hp, hedits.branch?, Path.withOffset_child]
  refine (hedits.insert hi offset).setCaret ⟨?_, by omega⟩
  simp only [leadingGap]
  omega

theorem Placed.typeIntoCommand (h : e.Placed) (c : Char) : (e.typeIntoCommand c).Placed := by
  have hminted : (e.removeSelection.mint (Atom.newCommandChar c)).2.Placed :=
    h.removeSelection.of_eq rfl rfl
  exact hminted.insertAtCaret
    (fun a ha => Atom.regular_of_isWellFormed (isWellFormed_commandChar c _ a ha)) (by simp)

theorem Placed.insertCommandChar (h : e.Placed) (c : Char) :
    (e.insertCommandChar c).state.Placed :=
  h.state_whenValid (h.typeIntoCommand c)

theorem Placed.enterCommandMode (h : e.Placed) : e.enterCommandMode.state.Placed :=
  h.state_whenValid ((h.typeIntoCommand '\\').of_eq rfl rfl)

theorem Placed.removeCommand (h : e.Placed) : e.removeCommand.Placed := by
  have hmath : ({ e with mode := .math } : Editor).Placed := h.of_eq rfl rfl
  obtain ⟨q, slot, offset, atoms, hp, hedits, -, hrun⟩ := hmath.onCommandRun
  obtain ⟨hstart, hstop, hend⟩ := CommandRun.bounds atoms offset
  unfold Editor.removeCommand
  simp only [hrun, hp]
  exact (hedits.splice offset _ _ (by simp)).placed_settleCaret _ fun _ =>
    isOffset_splice (by omega)

theorem Placed.completeCommand (h : e.Placed) : e.completeCommand.state.Placed := by
  have hremoved := h.acceptSuggestion.removeCommand
  unfold Editor.completeCommand
  rw [h.whenValid]
  simp only
  split
  · exact hremoved
  · exact hremoved.insert _ _

/-! ## Commands -/

theorem Placed.selectAll (h : e.Placed) : e.selectAll.state.Placed := by
  unfold Editor.selectAll
  rw [h.whenValid]
  split
  · exact h.setCaret h.isPosition_fieldStart
  · exact h.selectContent

theorem Placed.selectGroup (h : e.Placed) : e.selectGroup.state.Placed := by
  obtain ⟨q, slot, owner, atoms, anchor, focus, hsel⟩ := h.exists_selectsIn
  have hbranch : e.selection.focus.branch? e.root = some atoms := by
    rw [hsel.selection_eq]
    exact hsel.branch.branch? focus
  unfold Editor.selectGroup
  rw [h.whenValid]
  simp only [hbranch]
  exact h.growSelection hsel

/-- Every command leaves the editor placed. -/
theorem Placed.applyTo (h : e.Placed) (c : Command) : (c.applyTo e).state.Placed := by
  cases c with
  | moveToNextChar => exact h.state_whenValid (h.move .forward)
  | moveToPreviousChar => exact h.state_whenValid (h.move .backward)
  | moveToNextPlaceholder => exact h.state_whenValid (h.stepPlaceholder .forward)
  | moveToPreviousPlaceholder => exact h.state_whenValid (h.stepPlaceholder .backward)
  | moveToSuperscript => exact h.state_whenValid (h.enterScript rfl)
  | moveToSubscript => exact h.state_whenValid (h.enterScript rfl)
  | moveUp => exact h.state_whenValid (h.moveVertically .backward)
  | moveDown => exact h.state_whenValid (h.moveVertically .forward)
  | moveToGroupStart => exact h.state_whenValid (h.setCaret h.isPosition_branchStart)
  | moveToGroupEnd => exact h.state_whenValid (h.setCaret h.isPosition_branchEnd)
  | moveToFieldStart => exact h.state_whenValid (h.setCaret h.isPosition_fieldStart)
  | moveToFieldEnd => exact h.state_whenValid (h.setCaret h.isPosition_fieldEnd)
  | setRange anchor focus =>
      rcases h.select anchor focus with ⟨-, hselected⟩ | ⟨reason, hrefused⟩
      · exact hselected
      · exact (congrArg Outcome.state hrefused).symm ▸ h
  | selectAll => exact h.selectAll
  | selectGroup => exact h.selectGroup
  | extendToNextChar => exact h.state_whenValid (h.extend .forward)
  | extendToPreviousChar => exact h.state_whenValid (h.extend .backward)
  | insert text options => exact h.insert text options
  | delete d count => exact h.delete d count
  | promoteToSuperscript => exact h.state_whenValid (h.promote rfl)
  | promoteToSubscript => exact h.state_whenValid (h.promote rfl)
  | enterCommandMode => exact h.enterCommandMode
  | completeCommand => exact h.completeCommand
  | exitCommandMode => exact h.state_whenValid h.removeCommand
  | acceptSuggestion => exact h.acceptSuggestion
  | insertSuggestion text trim => exact h.insertSuggestion text.toList trim
  | removeSuggestion => exact h.removeSuggestion
  | commitCommand => exact h.commitCommand
  | decorateCommand error => exact h.decorateCommand error
  | undo => exact h
  | redo => exact h
  | snapshot => exact h

/-- Whatever is loaded gets the caret at its end. -/
theorem placed_setAtoms (e : Editor) (h : ∀ a ∈ atoms, a.Regular) : (e.setAtoms atoms).Placed :=
  placed_setCaret_endOf
    (e := { e with root := (Atom.newRoot atoms e.supply).1
                   supply := (Atom.newRoot atoms e.supply).2
                   mode := .math })
    (isFormula_newRoot h e.supply)

end FormulaEditor.Editor

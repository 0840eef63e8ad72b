import FormulaEditor.Field.Command
import FormulaEditor.Proofs.Editor.CommandTyping
import FormulaEditor.Proofs.Editor.Scripting

/-!
# Operations keep an editor sound

Every operation on a sound editor is carried out and leaves the editor sound; setting the selection
may be refused, and then nothing changes. The two commands that take suggested characters away
without settling their branch are left aside.
-/

namespace FormulaEditor

/-- Whether a command takes suggested characters away and leaves their branch as it is then. -/
def Command.dropsSuggestion : Command → Bool
  | insertSuggestion .. | removeSuggestion => true
  | _ => false

/-- Whether a command sets the selection to given positions. -/
def Command.isSetRange : Command → Bool
  | setRange .. => true
  | _ => false

namespace Editor

variable {e : Editor}

theorem Sound.carriedOut_whenValid (h : e.Sound) {operation : Editor → Outcome Editor Unit}
    (ho : CarriedOut (operation e)) : CarriedOut (e.whenValid operation) := by
  rwa [h.whenValid]

theorem Sound.whenValid_done (h : e.Sound) (operation : Editor → Editor)
    (ho : (operation e).Sound) : CarriedOut (e.whenValid fun e => .done (operation e)) :=
  h.carriedOut_whenValid (carriedOut_done ho)

theorem Sound.delete (h : e.Sound) (d : Direction) (count : Nat) : CarriedOut (e.delete d count) :=
  h.whenValid_done (fun e => (Editor.deleteTimes d count e).leaveEmptyCommand)
    (h.deleteTimes d count).leaveEmptyCommand

theorem Sound.insertCommandChar (h : e.Sound) (c : Char) : CarriedOut (e.insertCommandChar c) :=
  h.whenValid_done (fun e => e.typeIntoCommand c) (h.typeIntoCommand c)

theorem Sound.enterCommandMode (h : e.Sound) : CarriedOut e.enterCommandMode :=
  h.whenValid_done (fun e => { e.typeIntoCommand '\\' with mode := .command })
    ((h.typeIntoCommand '\\').of_eq rfl rfl)

theorem Sound.selectAll (h : e.Sound) : CarriedOut e.selectAll := by
  unfold Editor.selectAll
  rw [h.whenValid]
  split
  · exact carriedOut_done (h.setCaret h.placed.isPosition_fieldStart)
  · exact carriedOut_done h.selectContent

theorem Sound.selectGroup (h : e.Sound) : CarriedOut e.selectGroup := by
  obtain ⟨q, slot, owner, atoms, anchor, focus, hsel⟩ := h.exists_selectsIn
  have hbranch : e.selection.focus.branch? e.root = some atoms := by
    rw [hsel.selection_eq]
    exact hsel.branch.branch? focus
  unfold Editor.selectGroup
  rw [h.whenValid]
  simp only [hbranch]
  exact carriedOut_done (h.growSelection hsel)

/-- Every other command is carried out and leaves the editor sound. -/
theorem Sound.applyTo (h : e.Sound) {c : Command} (hs : c.isSetRange = false)
    (hd : c.dropsSuggestion = false) : CarriedOut (c.applyTo e) := by
  cases c with
  | moveToNextChar => exact h.whenValid_done _ (h.move .forward)
  | moveToPreviousChar => exact h.whenValid_done _ (h.move .backward)
  | moveToNextPlaceholder => exact h.whenValid_done _ (h.stepPlaceholder .forward)
  | moveToPreviousPlaceholder => exact h.whenValid_done _ (h.stepPlaceholder .backward)
  | moveToSuperscript =>
      exact h.carriedOut_whenValid (h.enterScript (rfl : Slot.superscript.isScript = true))
  | moveToSubscript =>
      exact h.carriedOut_whenValid (h.enterScript (rfl : Slot.subscript.isScript = true))
  | moveUp => exact h.whenValid_done _ (h.moveVertically .backward)
  | moveDown => exact h.whenValid_done _ (h.moveVertically .forward)
  | moveToGroupStart => exact h.whenValid_done _ (h.setCaret h.placed.isPosition_branchStart)
  | moveToGroupEnd => exact h.whenValid_done _ (h.setCaret h.placed.isPosition_branchEnd)
  | moveToFieldStart => exact h.whenValid_done _ (h.setCaret h.placed.isPosition_fieldStart)
  | moveToFieldEnd => exact h.whenValid_done _ (h.setCaret h.placed.isPosition_fieldEnd)
  | setRange anchor focus => cases hs
  | selectAll => exact h.selectAll
  | selectGroup => exact h.selectGroup
  | extendToNextChar => exact h.whenValid_done _ (h.extend .forward)
  | extendToPreviousChar => exact h.whenValid_done _ (h.extend .backward)
  | insert text options => exact h.insert text options
  | delete d count => exact h.delete d count
  | promoteToSuperscript =>
      exact h.carriedOut_whenValid (h.promote (rfl : Slot.superscript.isScript = true))
  | promoteToSubscript =>
      exact h.carriedOut_whenValid (h.promote (rfl : Slot.subscript.isScript = true))
  | enterCommandMode => exact h.enterCommandMode
  | completeCommand => exact h.completeCommand
  | exitCommandMode => exact h.whenValid_done _ h.removeCommand
  | acceptSuggestion => exact carriedOut_done h.acceptSuggestion
  | insertSuggestion text trim => cases hd
  | removeSuggestion => cases hd
  | commitCommand => exact carriedOut_done h.commitCommand
  | decorateCommand error => exact carriedOut_done (h.decorateCommand error)
  | undo => exact carriedOut_done h
  | redo => exact carriedOut_done h
  | snapshot => exact carriedOut_done h

/-- From a sound editor every operation is carried out and leaves the editor sound. Setting the
selection is carried out likewise, or refused without any change. -/
theorem operations_keep_sound (h : e.Sound) :
    (∀ c : Command, c.isSetRange = false → c.dropsSuggestion = false →
      (c.applyTo e).answer = .ok () ∧ (c.applyTo e).state.Sound) ∧
    (∀ ch : Char, (e.insertCommandChar ch).answer = .ok () ∧ (e.insertCommandChar ch).state.Sound) ∧
    ∀ anchor focus : Path,
      (((Command.setRange anchor focus).applyTo e).answer = .ok () ∧
        ((Command.setRange anchor focus).applyTo e).state.Sound) ∨
      ∃ reason, (Command.setRange anchor focus).applyTo e = .refused e reason :=
  ⟨fun _ hs hd => h.applyTo hs hd, h.insertCommandChar, h.select⟩

/-- The formula `x^2` with the caret behind the `2`. -/
def squared : Editor :=
  let x := Atom.leaf 0 .ordinary (some "x") none
  let two := Atom.leaf 1 .ordinary (some "2") none
  { Editor.ofRoot (Atom.newRoot [(x.setBranch .superscript [two] 2).getD x] 3).1 4 with
    selection := Selection.caret ((Path.root.child .body 0).child .superscript 0) }

theorem operations_keep_sound_squared :
    squared.Sound ∧ (squared.delete .backward 3).answer = .ok () ∧
      (squared.delete .backward 3).state.Sound :=
  have hsound : squared.Sound := ⟨rfl, by decide, rfl⟩
  ⟨hsound, (operations_keep_sound hsound).1 (.delete .backward 3) rfl rfl⟩

end Editor

end FormulaEditor

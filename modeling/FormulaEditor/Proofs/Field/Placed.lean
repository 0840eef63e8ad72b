import FormulaEditor.Proofs.Editor.Displaying
import FormulaEditor.Proofs.Editor.Placed.Operations
import FormulaEditor.Proofs.Field.Invariant

/-!
# Placed fields

A field is placed if its editor is, and so is every recorded state. This holds from a new field on
whatever is done to it, even where a branch is left empty that should not be: the selection is always
valid, and going through the history never leads to a selection that is not.
-/

namespace FormulaEditor

/-! ## Recorded states -/

/-- What a placed editor shows. -/
def Snapshot.Placed (s : Snapshot) : Prop :=
  ∃ e : Editor, e.Placed ∧ Snapshot.ofEditor e = s

/-- What a placed editor has shown is shown again as it was, with its selection. -/
theorem Snapshot.Placed.restore {s : Snapshot} (h : s.Placed) (e : Editor) :
    (s.restore e).Placed ∧ Snapshot.ofEditor (s.restore e) = s := by
  obtain ⟨shown, hshown, rfl⟩ := h
  have hplaced : Editor.Placed { e with
      root := shown.root, selection := shown.selection, mode := shown.mode } :=
    hshown.of_eq rfl rfl
  have hrestore : (Snapshot.ofEditor shown).restore e =
      { e with root := shown.root, selection := shown.selection, mode := shown.mode } := by
    simp only [Snapshot.restore, Snapshot.ofEditor, Editor.restore, hplaced.valid]
  rw [hrestore]
  exact ⟨hplaced, rfl⟩

namespace Field

variable {f : Field}

/-- The editor is placed, and so is every recorded state. -/
structure Placed (f : Field) : Prop where
  editor : f.editor.Placed
  history : ∀ s ∈ f.history.states, s.Placed

theorem Placed.withEditor (h : f.Placed) {e : Editor} (he : e.Placed) : (f.withEditor e).Placed :=
  ⟨he, h.history⟩

theorem Placed.note (h : f.Placed) (event : Event) : (f.note event).Placed :=
  h.withEditor (h.editor.of_eq rfl rfl)

theorem Placed.endTyping (h : f.Placed) : f.endTyping.Placed :=
  ⟨h.editor, h.history⟩

theorem Placed.snapshot (h : f.Placed) : (Snapshot.ofEditor f.editor).Placed :=
  ⟨f.editor, h.editor, rfl⟩

/-! ## History -/

theorem Placed.record (h : f.Placed) : f.record.Placed := by
  have hrecorded : Placed { f with
      history := (f.history.record Snapshot.same (Snapshot.ofEditor f.editor)).1 } :=
    ⟨h.editor, History.forall_record Snapshot.same h.history h.snapshot⟩
  exact hrecorded.note _

theorem Placed.undo (h : f.Placed) : f.undo.state.Placed := by
  obtain ⟨hstates, hshown⟩ := History.forall_undo Snapshot.same h.history h.snapshot
  unfold Field.undo
  split <;> rename_i history shown hundo <;> rw [hundo] at hstates hshown
  · exact ⟨((hshown _ rfl).restore _).1, hstates⟩
  · exact ⟨h.editor, hstates⟩

theorem Placed.redo (h : f.Placed) : f.redo.state.Placed := by
  obtain ⟨hstates, hshown⟩ := History.forall_redo h.history
  unfold Field.redo
  split <;> rename_i history shown hredo <;> rw [hredo] at hstates hshown
  · exact ⟨((hshown _ rfl).restore _).1, hstates⟩
  · exact ⟨h.editor, hstates⟩

/-! ## Commands -/

theorem Placed.updateSuggestion (h : f.Placed) : f.updateSuggestion.Placed := by
  unfold Field.updateSuggestion
  simp only
  split
  · exact h.withEditor (h.editor.removeSuggestion.decorateCommand false)
  · split
    · exact h.withEditor ((h.editor.insertSuggestion _ 0).decorateCommand false)
    · exact h.withEditor (h.editor.removeSuggestion.decorateCommand true)

theorem Placed.setLatex (h : f.Placed) (source : String) : (f.setLatex source).2.Placed :=
  h.endTyping.record.withEditor
    (Editor.placed_setAtoms _ (Latex.regular_parseFragment (by simp) source .math _))

/-- Every step leaves the field placed. -/
theorem invariant_placed : Invariant Placed where
  typing h _ := ⟨h.editor, h.history⟩
  record h := h.record
  undo h := h.undo
  redo h := h.redo
  applyTo h c := h.withEditor (h.editor.applyTo c)
  insertCommandChar h c := h.withEditor (h.editor.insertCommandChar c)
  updateSuggestion h := h.updateSuggestion
  setLatex h source := h.setLatex source

/-! ## Runs -/

theorem Placed.layout (h : f.Placed) (style : Typeset.Style) : (f.layout style).2.Placed :=
  h.withEditor (h.editor.layout style)

/-- The fields that a new field can become: by steps, by layouts, and by deciding anew what happens at
either end of the formula. -/
inductive Reachable : Field → Prop
  | new {shortcuts : ShortcutTable} {g : Field} (h : Field.new shortcuts = .ok g) : Reachable g
  | after {g : Field} (h : Reachable g) (step : Step) : Reachable (g.after step)
  | layout {g : Field} (h : Reachable g) (style : Typeset.Style) : Reachable (g.layout style).2
  | setBoundary {g : Field} (h : Reachable g) (boundary : Direction → BoundaryAction) :
      Reachable (g.withEditor { g.editor with boundary := boundary })

theorem Reachable.afterAll (h : f.Reachable) (steps : List Step) : (f.afterAll steps).Reachable := by
  induction steps generalizing f with
  | nil => exact h
  | cons step rest ih => exact ih (h.after step)

/-- Typing several characters is a run of steps, up to the first one that is refused. -/
theorem Reachable.typeChars (h : f.Reachable) (chars : List Char) :
    (f.typeChars chars).state.Reachable := by
  induction chars generalizing f with
  | nil => exact h
  | cons c rest ih => exact state_andThen (h.after (.typeChar c)) fun _ hg => ih hg

theorem placed_new {shortcuts : ShortcutTable} (h : Field.new shortcuts = .ok f) : f.Placed := by
  refine ⟨(sound_new h).editor.placed, ?_⟩
  obtain ⟨-, rfl⟩ := new_eq_ok_iff.1 h
  exact nofun

/-- The selection of a reachable field is valid, and so are those of its recorded states. -/
theorem Reachable.placed (h : f.Reachable) : f.Placed := by
  induction h with
  | new h => exact placed_new h
  | after _ step ih => exact invariant_placed.after ih step
  | layout _ style ih => exact ih.layout style
  | setBoundary _ boundary ih => exact ih.withEditor (ih.editor.of_eq rfl rfl)

end Field

end FormulaEditor

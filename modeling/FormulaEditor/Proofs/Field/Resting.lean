import FormulaEditor.Proofs.Editor.Resting
import FormulaEditor.Proofs.Field.Sound

/-!
# Where the caret of a field rests

Along a run the caret stays at positions of the formula, and so at stops as long as it does not come
to lie behind a lone placeholder. A deletion that dissolves an empty script of a placeholder leaves it
there, and so do insertions that end behind a placeholder.
-/

namespace FormulaEditor.Field

variable {f : Field}

/-- A movement leads the caret of a sound field to a stop. -/
theorem Sound.atStop_perform (h : f.Sound) {c : Command} (hc : c.movesCaret = true) :
    (f.perform c).state.editor.AtStop := by
  have hedit (g : Field) (hg : g.Sound) : (g.edit fun e => c.applyTo e).state.editor.AtStop :=
    hg.editor.atStop_applyTo hc
  cases c with
  | moveToSuperscript => exact hedit _ h.endTyping.record
  | moveToSubscript => exact hedit _ h.endTyping.record
  | moveToNextChar | moveToPreviousChar | moveToGroupStart | moveToGroupEnd | moveToFieldStart
  | moveToFieldEnd => exact hedit _ h.endTyping
  | _ => cases hc

/-- From a new field on, as long as no step empties a branch that needs content, the caret is at a
stop exactly if it is not behind a lone placeholder. From there the arrow keys lead to the start of
the formula. -/
theorem caret_mem_caretStops_run_iff {shortcuts : ShortcutTable} (h : Field.new shortcuts = .ok f)
    {steps : List Step} (hrun : ∀ n (hn : n < steps.length),
      (f.afterAll (steps.take n)).emptiedByStep steps[n] = false) :
    ((f.afterAll steps).editor.caret ∈ (f.afterAll steps).editor.root.caretStops ↔
      isBehindLonePlaceholder (f.afterAll steps).editor.root (f.afterAll steps).editor.caret =
        false) ∧
    ((f.afterAll steps).editor.selection.isCollapsed = true →
      isBehindLonePlaceholder (f.afterAll steps).editor.root (f.afterAll steps).editor.caret =
        true → ∀ d, ((f.afterAll steps).editor.move d).caret = Path.inRoot leadingGap) := by
  have hsound := ((sound_new h).afterAll hrun).editor
  refine ⟨hsound.caret_mem_caretStops_iff, fun hc hb d => ?_⟩
  rw [hsound.move_of_isBehindLonePlaceholder hc hb d]
  rfl

/-- Makes a placeholder with an empty superscript, and dissolves the superscript. -/
def hoistSteps : List Step :=
  [.typeChar '^', .keystroke "Backspace"]

/-- The deletion leaves the caret behind the placeholder that is all the formula holds, which is no
stop. -/
theorem caret_mem_caretStops_run_hoistSteps :
    ∃ f, Field.new ⟨[], false⟩ = .ok f ∧
      (f.afterAll hoistSteps).editor.selection.isCollapsed = true ∧
      (f.afterAll hoistSteps).editor.caret ∉ (f.afterAll hoistSteps).editor.root.caretStops := by
  have hnew : Field.new ⟨[], false⟩ = .ok ⟨Editor.empty, History.empty History.defaultLimit,
    ⟨[], false⟩, []⟩ := rfl
  refine ⟨_, hnew, by decide +kernel, ?_⟩
  rw [(caret_mem_caretStops_run_iff hnew (by decide +kernel)).1]
  decide +kernel

end FormulaEditor.Field

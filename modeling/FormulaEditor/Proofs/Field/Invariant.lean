import FormulaEditor.Proofs.Field.Sound

/-!
# Invariants of fields

Commands and typed keys are made of a few operations. A property that each of these operations keeps
is kept by every step.
-/

namespace FormulaEditor.Field

variable {P : Field → Prop} {f : Field}

/-- What steps are made of keeps a property of fields, also where it is refused. -/
structure Invariant (P : Field → Prop) : Prop where
  typing {f : Field} : P f → ∀ typed, P { f with typed := typed }
  record {f : Field} : P f → P f.record
  undo {f : Field} : P f → P f.undo.state
  redo {f : Field} : P f → P f.redo.state
  applyTo {f : Field} : P f → ∀ c : Command, P (f.edit fun e => c.applyTo e).state
  insertCommandChar {f : Field} : P f → ∀ c, P (f.edit fun e => e.insertCommandChar c).state
  updateSuggestion {f : Field} : P f → P f.updateSuggestion
  setLatex {f : Field} : P f → ∀ source, P (f.setLatex source).2

namespace Invariant

variable (hi : Invariant P)

include hi

theorem endTyping (h : P f) : P f.endTyping :=
  hi.typing h []

/-! ## Commands -/

theorem run (h : P f) (c : Command) : P (f.run c).state := by
  have hrecorded : P (if c.isMutation then f.record else f) := by
    split
    · exact hi.record h
    · exact h
  cases c with
  | undo => exact hi.undo h
  | redo => exact hi.redo h
  | snapshot => exact hi.record h
  | delete d n =>
      refine state_andThen (hi.applyTo (hi.record h) (.delete d n)) fun g hg => ?_
      rw [Outcome.state_done]
      split
      · exact hi.updateSuggestion hg
      · exact hg
  | _ => exact hi.applyTo hrecorded _

theorem perform (h : P f) (c : Command) : P (f.perform c).state :=
  hi.run (hi.endTyping h) c

/-! ## Typing -/

theorem applyShortcut (h : P f) : P f.applyShortcut.state := by
  unfold Field.applyShortcut
  split
  · exact h
  · rename_i s _
    refine state_andThen (state_andThen ?_ fun g hg => ?_) fun g hg => hi.endTyping hg
    · exact hi.applyTo (hi.record h) (.delete .backward s.length)
    · exact hi.applyTo hg (.insert s.substitute (InsertOptions.latex .placeholder))

theorem insertTyped (h : P f) (c : Char) : P (f.insertTyped c).state := by
  refine state_andThen (hi.run h (.insert (String.singleton c) InsertOptions.standard))
    fun g hg => ?_
  split
  · exact hi.endTyping hg
  · exact hi.applyShortcut (hi.typing hg _)

theorem typeMathChar (h : P f) (c : Char) : P (f.typeMathChar c).state := by
  unfold Field.typeMathChar
  split
  · exact hi.perform h _
  split
  · exact hi.perform h _
  split
  · exact hi.perform h _
  split
  · exact hi.endTyping h
  · exact hi.insertTyped h c

theorem typeCommandChar (h : P f) (c : Char) : P (f.typeCommandChar c).state := by
  have htyped := hi.insertCommandChar h c
  unfold Field.typeCommandChar
  split
  · exact state_andThen htyped fun g hg => hi.updateSuggestion hg
  split
  · exact state_andThen htyped fun g hg => hi.perform hg _
  · exact state_andThen (hi.perform h _) fun g hg => hi.typeMathChar hg c

theorem typeChar (h : P f) (c : Char) : P (f.typeChar c).state := by
  unfold Field.typeChar
  split
  · exact hi.typeMathChar h c
  · exact hi.typeCommandChar h c

theorem keystroke (h : P f) (key : String) : P (f.keystroke key).state := by
  unfold Field.keystroke
  split
  · exact h
  · rw [state_andThen_answer]
    exact hi.perform h _

/-! ## Steps -/

theorem after (h : P f) (step : Step) : P (f.after step) := by
  cases step with
  | perform c => exact hi.perform h c
  | typeChar c => exact hi.typeChar h c
  | keystroke key => exact hi.keystroke h key
  | setLatex source => exact hi.setLatex h source

end Invariant

end FormulaEditor.Field

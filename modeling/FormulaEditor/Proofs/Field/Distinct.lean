import FormulaEditor.Proofs.Editor.Conserving.Operations
import FormulaEditor.Proofs.Field.Placed

/-!
# The identities of a field are distinct

In a formula no identity occurs twice. The supply is a counter without bound, and what it gives out
is below it from then on; so the identities in the formula are distinct if they were and no
operation doubles one. The recorded formulas share identities with the one that is shown, but only
one of them is shown at a time, and the supply does not step back when an earlier one is.
-/

namespace FormulaEditor

open Atom Scale

/-- No identity occurs twice in a formula, and a supply has given all of them out. -/
structure Atom.Distinct (root : Atom) (supply : Nat) : Prop where
  nodup : root.identities.Nodup
  below : ∀ i ∈ root.identities, i < supply

/-- Every identity weighs no more than what was given out of it. -/
theorem Atom.distinct_iff {root : Atom} {supply : Nat} :
    root.Distinct supply ↔ ∀ i, weight (only i).label [root] ≤ (only i).given supply := by
  have hcount (i : Nat) : weight (only i).label [root] = root.identities.count i := by
    rw [weight_only, identitiesOf_singleton]
  refine ⟨fun h i => ?_, fun h => ⟨?_, fun i hi => ?_⟩⟩
  · rw [hcount, given_only]
    split
    · exact List.nodup_iff_count_le_one.1 h.nodup i
    · rename_i hge
      exact Nat.le_of_eq (List.count_eq_zero.2 fun hi => hge (h.below i hi))
  · rw [List.nodup_iff_count_le_one]
    intro i
    have hle := h i
    rw [hcount, given_only] at hle
    split at hle <;> omega
  · have hpos := List.count_pos_iff.2 hi
    have hle := h i
    rw [hcount, given_only] at hle
    by_contra hge
    rw [if_neg hge] at hle
    omega

theorem Atom.Distinct.mono {root : Atom} {n n' : Nat} (h : root.Distinct n) (hn : n ≤ n') :
    root.Distinct n' :=
  ⟨h.nodup, fun i hi => Nat.lt_of_lt_of_le (h.below i hi) hn⟩

/-- An operation that doubles no identity leaves them distinct. -/
theorem Editor.Conserves.distinct {e e' : Editor} (h : e.Conserves [] e' [])
    (hd : e.root.Distinct e.supply) : e'.root.Distinct e'.supply := by
  rw [Atom.distinct_iff] at hd ⊢
  intro i
  have hbefore := hd i
  have hcount := h.count i
  rw [weight_nil] at hcount
  omega

theorem Snapshot.root_restore (s : Snapshot) (e : Editor) : (s.restore e).root = s.root := by
  unfold Snapshot.restore Editor.restore
  simp only
  split <;> rfl

theorem Snapshot.supply_restore (s : Snapshot) (e : Editor) : (s.restore e).supply = e.supply := by
  unfold Snapshot.restore Editor.restore
  simp only
  split <;> rfl

namespace Field

variable {f : Field}

/-- The identities of the formula are distinct, and so are those of every recorded one. -/
structure Distinct (f : Field) : Prop where
  editor : f.editor.root.Distinct f.editor.supply
  history : ∀ s ∈ f.history.states, s.root.Distinct f.editor.supply

theorem Distinct.withEditor (h : f.Distinct) {e : Editor} (he : f.editor.Conserves [] e []) :
    (f.withEditor e).Distinct :=
  ⟨he.distinct h.editor, fun s hs => (h.history s hs).mono he.supply⟩

theorem Distinct.note (h : f.Distinct) (event : Event) : (f.note event).Distinct :=
  h.withEditor ((Editor.Conserves.refl f.editor []).of_eq rfl rfl)

theorem Distinct.endTyping (h : f.Distinct) : f.endTyping.Distinct :=
  ⟨h.editor, h.history⟩

/-! ## History -/

theorem Distinct.record (h : f.Distinct) : f.record.Distinct := by
  have hrecorded : Distinct { f with
      history := (f.history.record Snapshot.same (Snapshot.ofEditor f.editor)).1 } :=
    ⟨h.editor, History.forall_record Snapshot.same h.history h.editor⟩
  exact hrecorded.note _

/-- A formula that was recorded is shown again, and the supply stays as it is. -/
theorem Distinct.restore (h : f.Distinct) {s : Snapshot}
    (hs : s.root.Distinct f.editor.supply) : (f.withEditor (s.restore f.editor)).Distinct := by
  have hsupply := s.supply_restore f.editor
  refine ⟨?_, fun t ht => ?_⟩
  · change ((s.restore f.editor).root).Distinct (s.restore f.editor).supply
    rw [s.root_restore, hsupply]
    exact hs
  · change t.root.Distinct (s.restore f.editor).supply
    rw [hsupply]
    exact h.history t ht

theorem Distinct.undo (h : f.Distinct) : f.undo.state.Distinct := by
  have hnow : (Snapshot.ofEditor f.editor).root.Distinct f.editor.supply := h.editor
  obtain ⟨hstates, hshown⟩ := History.forall_undo Snapshot.same h.history hnow
  unfold Field.undo
  split <;> rename_i history shown hundo <;> rw [hundo] at hstates hshown
  · have hstepped : Distinct { f with history := history } := ⟨h.editor, hstates⟩
    exact (hstepped.note _).restore (hshown _ rfl)
  · exact ⟨h.editor, hstates⟩

theorem Distinct.redo (h : f.Distinct) : f.redo.state.Distinct := by
  obtain ⟨hstates, hshown⟩ := History.forall_redo h.history
  unfold Field.redo
  split <;> rename_i history shown hredo <;> rw [hredo] at hstates hshown
  · have hstepped : Distinct { f with history := history } := ⟨h.editor, hstates⟩
    exact (hstepped.note _).restore (hshown _ rfl)
  · exact ⟨h.editor, hstates⟩

/-! ## Commands -/

theorem Distinct.updateSuggestion (h : f.Distinct) : f.updateSuggestion.Distinct := by
  have hsame := Editor.Conserves.refl f.editor []
  unfold Field.updateSuggestion
  simp only
  split
  · exact h.withEditor
      (Editor.conserves_decorateCommand (Editor.conserves_removeSuggestion hsame) false)
  · split
    · exact h.withEditor
        (Editor.conserves_decorateCommand (Editor.conserves_insertSuggestion hsame _ 0) false)
    · exact h.withEditor
        (Editor.conserves_decorateCommand (Editor.conserves_removeSuggestion hsame) true)

/-- New content takes all its identities from the supply. -/
theorem Distinct.setLatex (h : f.Distinct) (source : String) : (f.setLatex source).2.Distinct := by
  have hread := (Editor.Conserves.refl f.endTyping.record.editor []).mint
    (m := Latex.parseFormula source)
    (weight_parseFragment_le (c := only 0) rfl source .math [] _).1
    fun i => (weight_parseFragment_le (c := only i) rfl source .math [] _).2
  exact h.endTyping.record.withEditor (Editor.conserves_setAtoms hread)

/-- Every step leaves the identities distinct. -/
theorem invariant_distinct : Invariant Distinct where
  typing h _ := ⟨h.editor, h.history⟩
  record h := h.record
  undo h := h.undo
  redo h := h.redo
  applyTo h c := h.withEditor (Editor.conserves_applyTo (Editor.Conserves.refl _ _) c)
  insertCommandChar h c :=
    h.withEditor (Editor.conserves_insertCommandChar (Editor.Conserves.refl _ _) c)
  updateSuggestion h := h.updateSuggestion
  setLatex h source := h.setLatex source

/-! ## Runs -/

theorem Distinct.layout (h : f.Distinct) (style : Typeset.Style) :
    (f.layout style).2.Distinct :=
  h.withEditor (Editor.conserves_layout (Editor.Conserves.refl _ _) style)

theorem distinct_new {shortcuts : ShortcutTable} (h : Field.new shortcuts = .ok f) :
    f.Distinct := by
  obtain ⟨-, rfl⟩ := new_eq_ok_iff.1 h
  have hempty : Editor.empty.root.Distinct Editor.empty.supply := ⟨by decide, by decide⟩
  exact ⟨hempty, nofun⟩

theorem Reachable.distinct (h : f.Reachable) : f.Distinct := by
  induction h with
  | new h => exact distinct_new h
  | after _ step ih => exact invariant_distinct.after ih step
  | layout _ style ih => exact ih.layout style
  | setBoundary _ boundary ih =>
      exact ih.withEditor ((Editor.Conserves.refl _ _).of_eq rfl rfl)

/-- Whatever was done to a field, no two atoms of its formula have one identity, and the supply will
give none of their identities out again. -/
theorem Reachable.nodup_identities (h : f.Reachable) :
    f.editor.root.identities.Nodup ∧ ∀ i ∈ f.editor.root.identities, i < f.editor.supply :=
  ⟨h.distinct.editor.nodup, h.distinct.editor.below⟩

/-- Types `x+a`, selects the `a`, uses it twice in a fragment, undoes and redoes that, and raises
what stands before the caret then to the power of itself. -/
def doublingSteps : List Step :=
  [.typeChar 'x', .typeChar '+', .typeChar 'a',
    .perform (.setRange (Path.inRoot 1) (Path.inRoot 2)),
    .perform (.insert "\\frac\x7b#0\x7d\x7b#0\x7d" (InsertOptions.latex .item)), .perform .undo,
    .perform .redo, .perform .moveToNextChar,
    .perform (.insert "#@^\x7b#@\x7d" (InsertOptions.latex .after))]

theorem Reachable.nodup_identities_doublingSteps :
    ∃ f, Field.new ⟨[], false⟩ = .ok f ∧ (f.afterAll doublingSteps).Reachable ∧
      (f.afterAll doublingSteps).latex =
        "x+\\frac\x7ba\x7d\x7ba\x7d^\x7b\\frac\x7ba\x7d\x7ba\x7d\x7d" ∧
      (f.afterAll doublingSteps).editor.root.identities.Nodup := by
  have hnew : Field.new ⟨[], false⟩ = .ok ⟨Editor.empty, History.empty History.defaultLimit,
    ⟨[], false⟩, []⟩ := rfl
  have hreachable := (Reachable.new hnew).afterAll doublingSteps
  exact ⟨_, hnew, hreachable, by decide +kernel, (Reachable.nodup_identities hreachable).1⟩

end Field

end FormulaEditor

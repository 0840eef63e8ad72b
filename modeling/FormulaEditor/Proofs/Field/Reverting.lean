import FormulaEditor.Proofs.Field.Placed
import FormulaEditor.Proofs.Field.Undoing

/-!
# Commands can be reverted

A command that may change the formula is preceded by a record. If it does change what is shown, that
is not the latest record, so that the state it leads to is kept when it is undone, whatever could be
undone or redone before. Selections come back with the formulas as they are valid in them.
-/

namespace FormulaEditor

namespace History

variable {σ : Type} {same : σ → σ → Bool} {h : History σ} {s shown : σ}

/-- The oldest states go first: the latest one is never dropped. -/
theorem getLast?_trimmed_concat {limit : Nat} (hl : 0 < limit) (states : List σ) :
    (trimmed limit (states ++ [shown])).getLast? = some shown := by
  unfold trimmed
  split
  · rename_i hlt
    rw [List.length_append, List.length_singleton] at hlt
    have hne : states ≠ [] := List.ne_nil_of_length_pos (by omega)
    rw [List.tail_append_of_ne_nil hne, List.getLast?_concat]
  · exact List.getLast?_concat ..

/-- After a record the latest state is the recorded one, or was the same as that before. -/
theorem getLast?_record (hrefl : ∀ s, same s s = true) (h : History σ) (shown : σ) :
    ∃ s, (h.record same shown).1.states.getLast? = some s ∧ same s shown = true := by
  unfold record
  simp only
  split
  · rename_i hends
    exact (Option.any_eq_true ..).1 hends
  · exact ⟨shown, getLast?_trimmed_concat h.limit_pos _, hrefl shown⟩

/-- From a state that differs from the latest record, one can go back to that record and forth again. -/
theorem undo_of_getLast? (hc : h.cursor = h.states.length) (hlast : h.states.getLast? = some s)
    (hne : same s shown = false) :
    (h.undo same shown).2 = some s ∧ (h.undo same shown).1.redo.2 = some shown := by
  have hends : endsWith same h.states shown = false := by
    rw [endsWith, hlast, Option.any_some, hne]
  have hpos : 0 < h.states.length := by
    cases hs : h.states with
    | nil => simp [hs] at hlast
    | cons => exact Nat.zero_lt_succ _
  obtain ⟨hstates, hcursor⟩ := settle_of_not_endsWith hc hends
  have hundone : (h.undo same shown).2 = some s := by
    rw [List.getLast?_eq_getElem?] at hlast
    simp only [undo, hstates, hcursor]
    rw [if_neg (by omega), List.getElem?_append_left (by omega), hlast]
  refine ⟨hundone, ?_⟩
  rw [redo_undo hundone, getElem?_settle, if_pos hc, hends]
  simp

end History

/-! ## Snapshots that show the same -/

namespace Snapshot

variable {s t u : Snapshot}

theorem same_iff : s.same t = true ↔
    s.root.bare = t.root.bare ∧ s.selection = t.selection ∧ s.mode = t.mode := by
  simp only [same, Bool.and_eq_true, Atom.alike_iff, beq_iff_eq, and_assoc]

theorem same_refl (s : Snapshot) : s.same s = true :=
  same_iff.2 ⟨rfl, rfl, rfl⟩

/-- What is the same as a state differs from all that the state differs from. -/
theorem same_eq_false_of_same (h : s.same t = true) (hne : t.same u = false) : s.same u = false := by
  rw [← Bool.not_eq_true] at hne ⊢
  intro hsu
  obtain ⟨hroot, hselection, hmode⟩ := same_iff.1 h
  obtain ⟨hroot', hselection', hmode'⟩ := same_iff.1 hsu
  exact hne (same_iff.2 ⟨hroot.symm.trans hroot', hselection.symm.trans hselection',
    hmode.symm.trans hmode'⟩)

end Snapshot

/-! ## Reverting -/

namespace Field

variable {f : Field}

/-- In a placed field whose latest record differs from what is shown, undoing shows the record and
redoing what was shown. -/
theorem Placed.undo_redo_of_getLast? (h : f.Placed) {s : Snapshot}
    (hc : f.history.cursor = f.history.states.length) (hlast : f.history.states.getLast? = some s)
    (hne : s.same (Snapshot.ofEditor f.editor) = false) :
    (f.perform .undo).answer = .ok () ∧ Snapshot.ofEditor (f.perform .undo).state.editor = s ∧
      ((f.perform .undo).state.perform .redo).answer = .ok () ∧
      Snapshot.ofEditor ((f.perform .undo).state.perform .redo).state.editor =
        Snapshot.ofEditor f.editor := by
  obtain ⟨hundone, hredone⟩ := History.undo_of_getLast? hc hlast hne
  obtain ⟨hundo, hhistory, e, he⟩ := undo_of_eq_some (f := f.endTyping) hundone
  have hback : Snapshot.ofEditor (f.perform .undo).state.editor = s :=
    (congrArg Snapshot.ofEditor he).trans
      ((h.history s (List.mem_of_getLast? hlast)).restore e).2
  have hredo : (f.perform .undo).state.endTyping.history.redo.2 =
      some (Snapshot.ofEditor f.editor) :=
    (congrArg (fun history => history.redo.2) hhistory).trans hredone
  obtain ⟨hredo, -, e', he'⟩ := redo_of_eq_some hredo
  exact ⟨hundo, hback, hredo, (congrArg Snapshot.ofEditor he').trans (h.snapshot.restore e').2⟩

/-- Whatever was done to a field before: if a command that may change the formula changes what is
shown, undoing right after it is not refused and shows formula, selection and mode as they were, and
redoing then is not refused and shows what the command led to. -/
theorem perform_undo_redo (h : f.Reachable) {c : Command} (hc : c.isMutation = true)
    (hchanged : (Snapshot.ofEditor f.editor).same
      (Snapshot.ofEditor (f.perform c).state.editor) = false) :
    let g := (f.perform c).state
    (g.perform .undo).answer = .ok () ∧
      (Snapshot.ofEditor (g.perform .undo).state.editor).same (Snapshot.ofEditor f.editor) = true ∧
      ((g.perform .undo).state.perform .redo).answer = .ok () ∧
      Snapshot.ofEditor ((g.perform .undo).state.perform .redo).state.editor =
        Snapshot.ofEditor g.editor := by
  intro g
  have hhistory : g.history =
      (f.history.record Snapshot.same (Snapshot.ofEditor f.editor)).1 := history_run hc f.endTyping
  obtain ⟨s, hlast, hs⟩ :=
    History.getLast?_record Snapshot.same_refl f.history (Snapshot.ofEditor f.editor)
  rw [← hhistory] at hlast
  have hcursor : g.history.cursor = g.history.states.length := by rw [hhistory]; rfl
  have hne := Snapshot.same_eq_false_of_same hs hchanged
  obtain ⟨hundo, hback, hredo, hforth⟩ :=
    (invariant_placed.perform h.placed c).undo_redo_of_getLast? hcursor hlast hne
  exact ⟨hundo, hback ▸ hs, hredo, hforth⟩

/-- Types `x2`, and goes back to the `x`. -/
def branchingSteps : List Step :=
  [.typeChar 'x', .typeChar '2', .perform .undo]

/-- With the `2` still to be redone, a superscript is entered. Undoing leads back to the `x`. -/
theorem perform_undo_redo_branchingSteps :
    ∃ f g, Field.new ⟨[], false⟩ = .ok f ∧ f.afterAll branchingSteps = g ∧
      g.history.canRedo = true ∧ Command.moveToSuperscript.isMutation = true ∧
      (Snapshot.ofEditor ((g.perform .moveToSuperscript).state.perform .undo).state.editor).same
        (Snapshot.ofEditor g.editor) = true := by
  have hnew : Field.new ⟨[], false⟩ = .ok ⟨Editor.empty, History.empty History.defaultLimit,
    ⟨[], false⟩, []⟩ := rfl
  have hreachable := (Reachable.new hnew).afterAll branchingSteps
  exact ⟨_, _, hnew, rfl, by decide +kernel, rfl,
    (perform_undo_redo hreachable (c := .moveToSuperscript) rfl (by decide +kernel)).2.1⟩

end Field

end FormulaEditor

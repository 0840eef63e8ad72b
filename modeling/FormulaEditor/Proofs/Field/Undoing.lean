import FormulaEditor.Proofs.Field.Sound

/-!
# What undoing and redoing answer

A history can be redone exactly if there is a state behind the cursor. It can be undone if there is
one before the cursor, unless that is the shown state itself: a command that was recorded and then
changed nothing. Undoing keeps the shown state only if it comes from the end of the history, so what
is redone afterwards is the recorded state at the cursor wherever there is one.
-/

namespace FormulaEditor

namespace History

variable {σ : Type} {same : σ → σ → Bool} {h : History σ} {shown : σ}

/-! ## Settling -/

theorem settle_of_lt (hlt : h.cursor < h.states.length) : h.settle same shown = h := by
  unfold settle
  rw [if_neg (by omega)]

theorem settle_of_endsWith (hc : h.cursor = h.states.length)
    (hends : endsWith same h.states shown = true) :
    (h.settle same shown).states = h.states ∧
      (h.settle same shown).cursor = h.states.length - 1 := by
  unfold settle
  simp only [if_pos hc, hends, if_true, and_self]

theorem settle_of_not_endsWith (hc : h.cursor = h.states.length)
    (hends : endsWith same h.states shown = false) :
    (h.settle same shown).states = h.states ++ [shown] ∧
      (h.settle same shown).cursor = h.states.length := by
  unfold settle
  simp [if_pos hc, hends]

/-- A settled history has a state at its cursor: the recorded one if there is one already, and the
shown one otherwise, unless that repeats the latest record. -/
theorem getElem?_settle (same : σ → σ → Bool) (h : History σ) (shown : σ) :
    (h.settle same shown).states[(h.settle same shown).cursor]? =
      if h.cursor = h.states.length then
        if endsWith same h.states shown then h.states.getLast? else some shown
      else h.states[h.cursor]? := by
  by_cases hc : h.cursor = h.states.length
  · rw [if_pos hc]
    by_cases hends : endsWith same h.states shown = true
    · obtain ⟨hstates, hcursor⟩ := settle_of_endsWith hc hends
      rw [hstates, hcursor, if_pos hends, List.getLast?_eq_getElem?]
    · obtain ⟨hstates, hcursor⟩ := settle_of_not_endsWith hc (by simpa using hends)
      rw [hstates, hcursor, if_neg hends, List.getElem?_concat_length]
  · rw [if_neg hc, settle_of_lt (Nat.lt_of_le_of_ne h.cursor_le hc)]

/-- Whether the shown state is all that is recorded. -/
def holdsOnly (same : σ → σ → Bool) (h : History σ) (shown : σ) : Bool :=
  match h.states with
  | [s] => same s shown
  | _ => false

theorem holdsOnly_iff : h.holdsOnly same shown = true ↔
    h.states.length = 1 ∧ endsWith same h.states shown = true := by
  unfold holdsOnly endsWith
  split <;> rename_i heq
  · simp [heq]
  · cases hs : h.states with
    | nil => simp
    | cons s rest =>
        cases rest with
        | nil => exact absurd hs (heq s)
        | cons => simp

theorem cursor_settle_ne_zero_iff : (h.settle same shown).cursor ≠ 0 ↔
    h.canUndo = true ∧ h.holdsOnly same shown = false := by
  have hle := h.cursor_le
  rw [← Bool.not_eq_true, holdsOnly_iff, canUndo, decide_eq_true_iff]
  by_cases hc : h.cursor = h.states.length
  · by_cases hends : endsWith same h.states shown = true
    · rw [(settle_of_endsWith hc hends).2]
      simp only [hends, and_true]
      omega
    · rw [(settle_of_not_endsWith hc (by simpa using hends)).2]
      simp only [hends, Bool.false_eq_true, and_false, not_false_eq_true, and_true]
      omega
  · rw [settle_of_lt (Nat.lt_of_le_of_ne hle hc)]
    omega

/-! ## Answers -/

theorem undo_eq_none (hc : (h.settle same shown).cursor = 0) :
    h.undo same shown = (h.settle same shown, none) := by
  simp [undo, hc]

theorem undo_eq_some (hc : (h.settle same shown).cursor ≠ 0) : ∃ s,
    (h.undo same shown).2 = some s := by
  have hle := (h.settle same shown).cursor_le
  have hlt : (h.settle same shown).cursor - 1 < (h.settle same shown).states.length := by omega
  exact ⟨(h.settle same shown).states[(h.settle same shown).cursor - 1],
    by simp [undo, hc, List.getElem?_eq_getElem hlt]⟩

/-- A step back that is not possible only settles the history, at its first state. -/
theorem undo_fst_of_eq_none (hs : (h.undo same shown).2 = none) :
    (h.undo same shown).1 = h.settle same shown ∧ (h.settle same shown).cursor = 0 := by
  by_cases hc : (h.settle same shown).cursor = 0
  · exact ⟨congrArg Prod.fst (undo_eq_none hc), hc⟩
  · obtain ⟨s, hsome⟩ := undo_eq_some hc
    cases hs.symm.trans hsome

/-- There is a state to step back to if one is before the cursor, unless it is the shown one. -/
theorem isSome_undo_iff : (h.undo same shown).2.isSome = true ↔
    h.canUndo = true ∧ h.holdsOnly same shown = false := by
  rw [← cursor_settle_ne_zero_iff]
  constructor
  · intro hsome hc
    simp [undo_eq_none hc] at hsome
  · intro hc
    obtain ⟨s, hs⟩ := undo_eq_some hc
    rw [hs]
    rfl

theorem redo_snd (h : History σ) : h.redo.2 = h.states[h.cursor + 1]? := by
  unfold redo
  split <;> rename_i hr
  · rw [List.getElem?_eq_getElem hr]
  · rw [List.getElem?_eq_none (Nat.le_of_not_lt hr)]

theorem isSome_redo_iff : h.redo.2.isSome = true ↔ h.canRedo = true := by
  rw [redo_snd, isSome_getElem?, canRedo, decide_eq_true_iff]

/-- Stepping forward right after stepping back leads to where the history was settled. -/
theorem redo_undo {s : σ} (hs : (h.undo same shown).2 = some s) :
    (h.undo same shown).1.redo.2 =
      (h.settle same shown).states[(h.settle same shown).cursor]? := by
  have hc : (h.settle same shown).cursor ≠ 0 := fun hc => by
    simp [undo_eq_none hc] at hs
  have hnext : (h.settle same shown).cursor - 1 + 1 = (h.settle same shown).cursor := by omega
  rw [redo_snd]
  simp only [undo, if_neg hc, hnext]

/-- A state that is stepped back to is the one at the cursor then. -/
theorem getElem?_undo {s : σ} (hs : (h.undo same shown).2 = some s) :
    (h.undo same shown).1.states[(h.undo same shown).1.cursor]? = some s := by
  unfold undo at hs ⊢
  simp only at hs ⊢
  split at hs
  · cases hs
  · rename_i hc
    rw [if_neg hc]
    exact hs

theorem getElem?_redo {s : σ} (hs : h.redo.2 = some s) :
    h.redo.1.states[h.redo.1.cursor]? = some s := by
  unfold redo at hs ⊢
  split at hs
  · rename_i hr
    rw [dif_pos hr]
    exact (List.getElem?_eq_getElem hr).trans hs
  · cases hs

end History

/-! ## Fields -/

namespace Editor

@[simp] theorem root_restore (e : Editor) (root : Atom) (selection : Selection) (mode : Mode) :
    (e.restore root selection mode).root = root := by
  unfold restore
  simp only
  split <;> rfl

@[simp] theorem mode_restore (e : Editor) (root : Atom) (selection : Selection) (mode : Mode) :
    (e.restore root selection mode).mode = mode := by
  unfold restore
  simp only
  split <;> rfl

end Editor

namespace Field

variable {f : Field}

/-! ## Records -/

theorem history_updateSuggestion (f : Field) : f.updateSuggestion.history = f.history := by
  unfold updateSuggestion
  simp only
  split
  · rfl
  · split <;> rfl

/-- A command that may change the formula leaves the history as it was recorded before. -/
theorem history_run {c : Command} (hc : c.isMutation = true) (f : Field) :
    (f.run c).state.history = f.record.history := by
  cases c with
  | delete d n =>
      refine state_andThen (Q := fun g => g.history = f.record.history) rfl fun g hg => ?_
      rw [Outcome.state_done]
      split
      · rw [history_updateSuggestion, hg]
      · exact hg
  | insert | promoteToSuperscript | promoteToSubscript | moveToSuperscript | moveToSubscript
  | enterCommandMode | completeCommand => rfl
  | _ => cases hc

/-! ## Steps back and forth -/

/-- The history after a step back. -/
def undone (f : Field) : History Snapshot × Option Snapshot :=
  f.history.undo Snapshot.same (Snapshot.ofEditor f.editor)

/-- A state that is gone to is shown, with its selection if that is valid there. -/
theorem undo_of_eq_some {s : Snapshot} (h : f.undone.2 = some s) :
    f.undo.answer = .ok () ∧ f.undo.state.history = f.undone.1 ∧
      ∃ e, f.undo.state.editor = s.restore e := by
  obtain ⟨history, hu⟩ : ∃ history, f.undone = (history, some s) := ⟨f.undone.1, by rw [← h]⟩
  unfold undone at hu
  simp only [undo, undone, hu]
  exact ⟨rfl, rfl, _, rfl⟩

theorem undo_of_eq_none (h : f.undone.2 = none) :
    f.undo = .refused { f with history := f.undone.1 } .emptyHistory := by
  obtain ⟨history, hu⟩ : ∃ history, f.undone = (history, none) := ⟨f.undone.1, by rw [← h]⟩
  unfold undone at hu
  simp [undo, undone, hu]

theorem redo_of_eq_some {s : Snapshot} (h : f.history.redo.2 = some s) :
    f.redo.answer = .ok () ∧ f.redo.state.history = f.history.redo.1 ∧
      ∃ e, f.redo.state.editor = s.restore e := by
  obtain ⟨history, hr⟩ : ∃ history, f.history.redo = (history, some s) :=
    ⟨f.history.redo.1, by rw [← h]⟩
  simp only [redo, hr]
  exact ⟨rfl, rfl, _, rfl⟩

theorem redo_of_eq_none (h : f.history.redo.2 = none) :
    f.redo = .refused { f with history := f.history.redo.1 } .emptyHistory := by
  obtain ⟨history, hr⟩ : ∃ history, f.history.redo = (history, none) :=
    ⟨f.history.redo.1, by rw [← h]⟩
  simp [redo, hr]

theorem answer_undo_iff (f : Field) : f.undo.answer = .ok () ↔ f.undone.2.isSome = true := by
  cases h : f.undone.2 with
  | none => simp [undo_of_eq_none h]
  | some s => simp [undo_of_eq_some h]

theorem answer_redo_iff (f : Field) :
    f.redo.answer = .ok () ↔ f.history.redo.2.isSome = true := by
  cases h : f.history.redo.2 with
  | none => simp [redo_of_eq_none h]
  | some s => simp [redo_of_eq_some h]

/-- An undo that is refused leaves the editor as it is, and nothing to go back to. -/
theorem perform_undo_of_ne_ok (h : (f.perform .undo).answer ≠ .ok ()) :
    (f.perform .undo).state.editor = f.editor ∧
      (f.perform .undo).state.history.canUndo = false := by
  have hnone : f.endTyping.undone.2 = none := by
    rw [← Option.not_isSome_iff_eq_none]
    exact fun hsome => h ((answer_undo_iff f.endTyping).2 hsome)
  have hundo : f.perform .undo = .refused { f.endTyping with history := f.endTyping.undone.1 } _ :=
    undo_of_eq_none hnone
  obtain ⟨hsettled, hc⟩ := History.undo_fst_of_eq_none hnone
  rw [hundo]
  refine ⟨rfl, ?_⟩
  show History.canUndo f.endTyping.undone.1 = false
  rw [undone, hsettled, History.canUndo, hc]
  rfl

/-- Whenever there is a state to go back to, it is gone back to, unless it is the shown one and the
only one: then the undo is refused, and there is nothing to go back to any more. Whenever there is a
state to go forward to, it is gone forward to. -/
theorem answer_perform_undo_redo_iff (f : Field) :
    ((f.perform .undo).answer = .ok () ↔ f.history.canUndo = true ∧
      f.history.holdsOnly Snapshot.same (Snapshot.ofEditor f.editor) = false) ∧
    ((f.perform .redo).answer = .ok () ↔ f.history.canRedo = true) ∧
    ((f.perform .undo).answer ≠ .ok () → (f.perform .undo).state.editor = f.editor ∧
      (f.perform .undo).state.history.canUndo = false) := by
  refine ⟨?_, ?_, perform_undo_of_ne_ok⟩
  · exact (answer_undo_iff f.endTyping).trans History.isSome_undo_iff
  · exact (answer_redo_iff f.endTyping).trans History.isSome_redo_iff

/-! ## Going back and forth -/

/-- Whether a snapshot has the formula and the mode that the field shows. -/
def shows (f : Field) (s : Snapshot) : Bool :=
  s.root.alike f.editor.root && s.mode == f.editor.mode

/-- Whether the recorded state at the cursor, if there is one, is what the field shows. -/
def isUpToDate (f : Field) : Bool :=
  (f.history.states[f.history.cursor]?).all f.shows

theorem shows_congr {s t : Snapshot} (hr : s.root = t.root) (hm : s.mode = t.mode) :
    f.shows s = f.shows t := by
  simp only [shows, hr, hm]

theorem shows_self (f : Field) : f.shows (Snapshot.ofEditor f.editor) = true := by
  simp [shows, Snapshot.ofEditor, Atom.alike_refl]

theorem shows_of_same {s : Snapshot} (h : s.same (Snapshot.ofEditor f.editor) = true) :
    f.shows s = true := by
  simp only [Snapshot.same, Bool.and_eq_true] at h
  exact Bool.and_eq_true _ _ ▸ ⟨h.1.1, h.2⟩

/-- The state that a history is settled at is what the field shows, unless the history had another
state there. -/
theorem shows_settle (f : Field) : ∃ s,
    (f.history.settle Snapshot.same (Snapshot.ofEditor f.editor)).states[
      (f.history.settle Snapshot.same (Snapshot.ofEditor f.editor)).cursor]? = some s ∧
      f.shows s = f.isUpToDate := by
  have hle := f.history.cursor_le
  rw [History.getElem?_settle]
  unfold isUpToDate
  split
  · rename_i hc
    rw [hc, List.getElem?_eq_none (Nat.le_refl _), Option.all_none]
    split
    · rename_i hends
      obtain ⟨s, hlast, hsame⟩ := (Option.any_eq_true ..).1 hends
      exact ⟨s, hlast, shows_of_same hsame⟩
    · exact ⟨_, rfl, f.shows_self⟩
  · rename_i hc
    have hlt := Nat.lt_of_le_of_ne hle hc
    rw [List.getElem?_eq_getElem hlt]
    exact ⟨_, rfl, rfl⟩

/-- Redoing right after undoing is never refused. It brings formula and mode back exactly if the
history had no other state at its cursor: a change that was not recorded is lost otherwise. -/
theorem shows_redo_undo_iff (h : (f.perform .undo).answer = .ok ()) :
    ((f.perform .undo).state.perform .redo).answer = .ok () ∧
      (f.shows (Snapshot.ofEditor ((f.perform .undo).state.perform .redo).state.editor) = true ↔
        f.isUpToDate = true) := by
  obtain ⟨s, hs⟩ := Option.isSome_iff_exists.1 ((answer_undo_iff f.endTyping).1 h)
  obtain ⟨-, hhistory, -⟩ := undo_of_eq_some hs
  obtain ⟨t, ht, hshows⟩ := shows_settle f.endTyping
  have hredo : (f.perform .undo).state.endTyping.history.redo.2 = some t :=
    (congrArg (fun h => h.redo.2) hhistory).trans ((History.redo_undo hs).trans ht)
  obtain ⟨hanswer, -, e, he⟩ := redo_of_eq_some hredo
  replace he : ((f.perform .undo).state.perform .redo).state.editor = t.restore e := he
  have hback : f.shows (Snapshot.ofEditor (t.restore e)) = f.shows t :=
    shows_congr (Editor.root_restore ..) (Editor.mode_restore ..)
  rw [he, hback]
  exact ⟨hanswer, iff_of_eq (congrArg (· = true) hshows)⟩

end Field

end FormulaEditor

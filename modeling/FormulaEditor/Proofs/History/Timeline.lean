import FormulaEditor.History
import Mathlib.Data.List.Chain

/-!
# Histories are timelines

A timeline keeps what was shown before, what is shown, and what was stepped back from. A history
keeps the same in one list: the states before its cursor are the past and those behind it the future,
and the shown state is recorded only when it is stepped back from. Whatever is edited, undone and
redone, the two give the same answers, as long as every edit leads to a different state.
-/

namespace FormulaEditor

/-- A shown state between the states before it, oldest first, and the states that were stepped back
from, next first. -/
structure Timeline (σ : Type) where
  past : List σ
  shown : σ
  future : List σ

/-- What is done to a state with a history. -/
inductive HistoryStep (σ : Type) where
  /-- The shown state is recorded and gives way to another one. -/
  | edit (next : σ)
  | undo
  | redo

/-- Carries out steps one after the other and collects their answers. -/
def answerAll {S A B : Type} (step : S → A → S × B) (s : S) : List A → S × List B
  | [] => (s, [])
  | a :: rest =>
      let (s, answer) := step s a
      let (s, answers) := answerAll step s rest
      (s, answer :: answers)

variable {σ : Type}

/-- The last states of a list, `limit` of them at most. -/
def newest (limit : Nat) (states : List σ) : List σ :=
  states.drop (states.length - limit)

/-- One step on a timeline that keeps `limit` states of the past. Undoing and redoing answer the state
that is shown then, if there is one. -/
def Timeline.step (limit : Nat) (t : Timeline σ) : HistoryStep σ → Timeline σ × Option σ
  | .edit next => (⟨newest limit (t.past ++ [t.shown]), next, []⟩, none)
  | .undo =>
      match t.past.getLast? with
      | some s => (⟨t.past.dropLast, s, t.shown :: t.future⟩, some s)
      | none => (t, none)
  | .redo =>
      match t.future with
      | s :: rest => (⟨t.past ++ [t.shown], s, rest⟩, some s)
      | [] => (t, none)

/-- Whether a step, if it is an edit, leads to a state that differs from the shown one. -/
def Timeline.changes (same : σ → σ → Bool) (t : Timeline σ) : HistoryStep σ → Bool
  | .edit next => !same t.shown next
  | .undo | .redo => true

/-- Whether every edit of a run leads to a state that differs from the one shown before it. -/
def Timeline.alwaysChanges (same : σ → σ → Bool) (limit : Nat) (t : Timeline σ) :
    List (HistoryStep σ) → Bool
  | [] => true
  | a :: rest => t.changes same a && alwaysChanges same limit (t.step limit a).1 rest

/-- A shown state with its history. -/
structure Chronicle (σ : Type) where
  history : History σ
  shown : σ

namespace Chronicle

/-- One step with a history. A state that the history answers is shown. -/
def step (same : σ → σ → Bool) (c : Chronicle σ) : HistoryStep σ → Chronicle σ × Option σ
  | .edit next => (⟨(c.history.record same c.shown).1, next⟩, none)
  | .undo =>
      let (history, back) := c.history.undo same c.shown
      (⟨history, back.getD c.shown⟩, back)
  | .redo =>
      let (history, ahead) := c.history.redo
      (⟨history, ahead.getD c.shown⟩, ahead)

/-- The history as a timeline: the cursor divides the recorded states. -/
def timeline (c : Chronicle σ) : Timeline σ :=
  ⟨c.history.states.take c.history.cursor, c.shown, c.history.states.drop (c.history.cursor + 1)⟩

/-- The cursor is on the shown state or behind all recorded ones, and no two states in a row are the
same. Stepping back may record one state more than the limit, but the past stays within it. -/
structure Tracks (same : σ → σ → Bool) (limit : Nat) (c : Chronicle σ) : Prop where
  limit_eq : c.history.limit = limit
  shown_eq : ∀ s, c.history.states[c.history.cursor]? = some s → s = c.shown
  differ : List.IsChain (fun s t => same s t = false)
    (c.timeline.past ++ c.shown :: c.timeline.future)
  cursor_le : c.history.cursor ≤ limit
  length_le : c.history.states.length ≤ limit + 1

variable {same : σ → σ → Bool} {limit : Nat} {c : Chronicle σ}

theorem tracks_empty (same : σ → σ → Bool) (hl : 1 ≤ limit) (start : σ) :
    Tracks same limit ⟨History.empty limit, start⟩ := by
  constructor
  · exact Nat.max_eq_left hl
  · intro s hs
    cases hs
  · exact List.isChain_singleton start
  · exact Nat.zero_le _
  · exact Nat.zero_le _

theorem endsWith_eq_false {states : List σ} {shown : σ}
    (h : ∀ s, states.getLast? = some s → same s shown = false) :
    History.endsWith same states shown = false := by
  unfold History.endsWith
  cases hlast : states.getLast? with
  | none => rfl
  | some s => exact h s hlast

/-- The shown state differs from the latest state of the past. -/
theorem Tracks.endsWith_past (h : Tracks same limit c) :
    History.endsWith same c.timeline.past c.shown = false := by
  apply endsWith_eq_false
  intro s hs
  exact (List.isChain_append.1 h.differ).2.2 s hs c.shown rfl

/-- With the cursor on the shown state, the recorded states are the timeline. -/
theorem Tracks.states_eq (h : Tracks same limit c) (hlt : c.history.cursor < c.history.states.length) :
    c.timeline.past ++ c.shown :: c.timeline.future = c.history.states := by
  have hshown : c.history.states[c.history.cursor] = c.shown :=
    h.shown_eq _ (List.getElem?_eq_getElem hlt)
  calc c.timeline.past ++ c.shown :: c.timeline.future
      = c.history.states.take c.history.cursor ++ c.history.states.drop c.history.cursor := by
        rw [List.drop_eq_getElem_cons hlt, hshown]
        rfl
    _ = c.history.states := List.take_append_drop _ _

/-- The cursor may be moved to any recorded state within the limit. -/
theorem Tracks.moveTo (h : Tracks same limit c) (hlt : c.history.cursor < c.history.states.length)
    {k : Nat} {s : σ} (hs : c.history.states[k]? = some s) (hk : k ≤ limit)
    (hle : k ≤ c.history.states.length) :
    Tracks same limit ⟨{ c.history with cursor := k, cursor_le := hle }, s⟩ := by
  obtain ⟨hk', hget⟩ := List.getElem?_eq_some_iff.1 hs
  have hstates : c.history.states.take k ++ s :: c.history.states.drop (k + 1) =
      c.history.states := by
    rw [← hget, ← List.drop_eq_getElem_cons hk', List.take_append_drop]
  constructor
  · exact h.limit_eq
  · intro t ht
    exact Option.some_inj.1 (ht.symm.trans hs)
  · show List.IsChain _ (c.history.states.take k ++ s :: c.history.states.drop (k + 1))
    rw [hstates, ← h.states_eq hlt]
    exact h.differ
  · exact hk
  · exact h.length_le

/-! ## Editing -/

/-- Dropping the oldest state if there are too many leaves the newest ones. -/
theorem trimmed_eq_newest {limit : Nat} {states : List σ} (h : states.length ≤ limit + 1) :
    History.trimmed limit states = newest limit states := by
  unfold History.trimmed newest
  split
  · rename_i hlt
    rw [← List.drop_one, show states.length - limit = 1 by omega]
  · rw [Nat.sub_eq_zero_of_le (by omega), List.drop_zero]

theorem length_newest_le (limit : Nat) (states : List σ) : (newest limit states).length ≤ limit := by
  rw [newest, List.length_drop]
  omega

/-- Recording the shown state appends it to the past, and nothing is left to be redone. -/
theorem Tracks.record (h : Tracks same limit c) :
    (c.history.record same c.shown).1.states =
        newest limit (c.timeline.past ++ [c.shown]) ∧
      (c.history.record same c.shown).1.cursor =
        (c.history.record same c.shown).1.states.length := by
  have hlength : (c.timeline.past ++ [c.shown]).length ≤ limit + 1 := by
    have hcursor := h.cursor_le
    simp only [timeline, List.length_append, List.length_take, List.length_singleton]
    omega
  refine ⟨?_, rfl⟩
  have hnew : History.endsWith same (c.history.states.take c.history.cursor) c.shown = false :=
    h.endsWith_past
  simp only [History.record, hnew, Bool.false_eq_true, if_false, h.limit_eq]
  exact trimmed_eq_newest hlength

theorem Tracks.edit (h : Tracks same limit c) {next : σ} (hn : same c.shown next = false) :
    (c.step same (.edit next)).1.timeline = (c.timeline.step limit (.edit next)).1 ∧
      Tracks same limit (c.step same (.edit next)).1 := by
  obtain ⟨hstates, hcursor⟩ := h.record
  have hpast : (c.step same (.edit next)).1.timeline.past =
      newest limit (c.timeline.past ++ [c.shown]) := by
    show List.take (c.history.record same c.shown).1.cursor
      (c.history.record same c.shown).1.states = _
    rw [hcursor, List.take_length, hstates]
  have hfuture : (c.step same (.edit next)).1.timeline.future = [] := by
    show List.drop ((c.history.record same c.shown).1.cursor + 1) _ = _
    rw [hcursor]
    exact List.drop_eq_nil_of_le (Nat.le_succ _)
  have hbound := length_newest_le limit (c.timeline.past ++ [c.shown])
  constructor
  · show Timeline.mk (c.step same (.edit next)).1.timeline.past next
      (c.step same (.edit next)).1.timeline.future = _
    rw [hpast, hfuture]
    rfl
  · constructor
    · exact h.limit_eq
    · intro s hs
      have hlt := (List.getElem?_eq_some_iff.1 hs).1
      exact absurd hcursor (Nat.ne_of_lt hlt)
    · -- The chain up to the shown state is a part of the old one, and the new state comes behind it.
      rw [hpast, hfuture]
      have hold : List.IsChain (fun s t => same s t = false) (c.timeline.past ++ [c.shown]) := by
        have hdiffer := h.differ
        rw [← List.singleton_append, ← List.append_assoc] at hdiffer
        exact hdiffer.left_of_append
      have hall : List.IsChain (fun s t => same s t = false) (c.timeline.past ++ [c.shown, next]) :=
        List.isChain_append_cons_cons.2 ⟨hold, hn, List.isChain_singleton next⟩
      rw [List.append_cons] at hall
      have hdrop := hall.drop ((c.timeline.past ++ [c.shown]).length - limit)
      rwa [List.drop_append_of_le_length (Nat.sub_le _ _)] at hdrop
    · show (c.history.record same c.shown).1.cursor ≤ limit
      rw [hcursor, hstates]
      exact hbound
    · show (c.history.record same c.shown).1.states.length ≤ limit + 1
      rw [hstates]
      exact Nat.le_succ_of_le hbound

/-! ## Stepping -/

/-- Settling puts the cursor on the shown state, and the timeline is what it was. -/
theorem Tracks.settle (h : Tracks same limit c) :
    (c.history.settle same c.shown).cursor < (c.history.settle same c.shown).states.length ∧
      (⟨c.history.settle same c.shown, c.shown⟩ : Chronicle σ).timeline = c.timeline ∧
      Tracks same limit ⟨c.history.settle same c.shown, c.shown⟩ := by
  by_cases hc : c.history.cursor = c.history.states.length
  · have hpast : c.timeline.past = c.history.states := by
      show List.take c.history.cursor _ = _
      rw [hc, List.take_length]
    have hfuture : c.timeline.future = [] := by
      show List.drop (c.history.cursor + 1) _ = _
      exact List.drop_eq_nil_of_le (by omega)
    have hnew : History.endsWith same c.history.states c.shown = false := hpast ▸ h.endsWith_past
    have hcursor := h.cursor_le
    have hsettled : (c.history.settle same c.shown).states = c.history.states ++ [c.shown] ∧
        (c.history.settle same c.shown).cursor = c.history.states.length := by
      simp [History.settle, hc, hnew]
    have hlimit : (c.history.settle same c.shown).limit = limit := by
      simp [History.settle, hc, h.limit_eq]
    have htimeline : (⟨c.history.settle same c.shown, c.shown⟩ : Chronicle σ).timeline =
        c.timeline := by
      show Timeline.mk (List.take _ _) _ (List.drop _ _) =
        Timeline.mk c.timeline.past c.shown c.timeline.future
      rw [hsettled.1, hsettled.2, hpast, hfuture]
      simp
    refine ⟨?_, htimeline, ?_⟩
    · rw [hsettled.1, hsettled.2, List.length_append]
      exact Nat.lt_succ_self _
    · constructor
      · exact hlimit
      · intro s hs
        rw [hsettled.1, hsettled.2, List.getElem?_concat_length] at hs
        exact (Option.some_inj.1 hs).symm
      · rw [htimeline]
        exact h.differ
      · rw [hsettled.2]
        omega
      · rw [hsettled.1, List.length_append, List.length_singleton]
        omega
  · have hsame : c.history.settle same c.shown = c.history := by simp [History.settle, hc]
    have hle := c.history.cursor_le
    rw [hsame]
    exact ⟨by omega, rfl, h⟩

/-- The state before the cursor is the latest of the past. -/
theorem getLast?_past (hlt : c.history.cursor ≤ c.history.states.length)
    (hpos : 0 < c.history.cursor) :
    c.timeline.past.getLast? = c.history.states[c.history.cursor - 1]? := by
  show (List.take c.history.cursor _).getLast? = _
  rw [List.getLast?_eq_getElem?, List.length_take, Nat.min_eq_left hlt,
    List.getElem?_take_of_lt (by omega)]

/-- From the shown state the cursor goes one state back. -/
theorem Tracks.stepBack (h : Tracks same limit c) (hlt : c.history.cursor < c.history.states.length)
    (hu : c.history.settle same c.shown = c.history) :
    (c.step same .undo).2 = (c.timeline.step limit .undo).2 ∧
      (c.step same .undo).1.timeline = (c.timeline.step limit .undo).1 ∧
      Tracks same limit (c.step same .undo).1 := by
  by_cases hzero : c.history.cursor = 0
  · have hpast : c.timeline.past = [] := by
      show List.take c.history.cursor _ = _
      rw [hzero, List.take_zero]
    have hstep : c.step same .undo = (c, none) := by
      simp [step, History.undo, hu, hzero]
    simp only [hstep, Timeline.step, hpast, List.getLast?_nil, true_and]
    exact h
  · have hpos := Nat.pos_of_ne_zero hzero
    have hle := c.history.cursor_le
    have hlimit := h.cursor_le
    have hget : c.history.states[c.history.cursor - 1]? =
        some c.history.states[c.history.cursor - 1] := List.getElem?_eq_getElem (by omega)
    generalize c.history.states[c.history.cursor - 1] = s at hget
    have hlast : c.timeline.past.getLast? = some s := (getLast?_past hle hpos).trans hget
    have hmoved := h.moveTo hlt hget (by omega) (by omega)
    have hstep : c.step same .undo =
        (⟨{ c.history with cursor := c.history.cursor - 1, cursor_le := by omega }, s⟩, some s) := by
      simp [step, History.undo, hu, hzero, hget]
    have hpast : c.history.states.take (c.history.cursor - 1) = c.timeline.past.dropLast := by
      show _ = (List.take c.history.cursor _).dropLast
      rw [List.dropLast_take hlt]
    have hfuture : c.history.states.drop (c.history.cursor - 1 + 1) =
        c.shown :: c.timeline.future := by
      rw [Nat.sub_add_cancel hpos, List.drop_eq_getElem_cons hlt,
        h.shown_eq _ (List.getElem?_eq_getElem hlt)]
      rfl
    simp only [hstep, Timeline.step, hlast, true_and]
    exact ⟨congrArg₂ (fun p f => Timeline.mk p s f) hpast hfuture, hmoved⟩

/-- Stepping back settles first, which the timeline does not show. -/
theorem Tracks.undo (h : Tracks same limit c) :
    (c.step same .undo).2 = (c.timeline.step limit .undo).2 ∧
      (c.step same .undo).1.timeline = (c.timeline.step limit .undo).1 ∧
      Tracks same limit (c.step same .undo).1 := by
  obtain ⟨hlt, htimeline, hsettled⟩ := h.settle
  have hagain : (c.history.settle same c.shown).settle same c.shown = c.history.settle same c.shown :=
    if_neg (Nat.ne_of_lt hlt)
  have hstep : (⟨c.history.settle same c.shown, c.shown⟩ : Chronicle σ).step same .undo =
      c.step same .undo := by
    simp only [step, History.undo, hagain]
  have hback := hsettled.stepBack hlt hagain
  rw [htimeline, hstep] at hback
  exact hback

theorem Tracks.redo (h : Tracks same limit c) :
    (c.step same .redo).2 = (c.timeline.step limit .redo).2 ∧
      (c.step same .redo).1.timeline = (c.timeline.step limit .redo).1 ∧
      Tracks same limit (c.step same .redo).1 := by
  by_cases hlt : c.history.cursor + 1 < c.history.states.length
  · have hget : c.history.states[c.history.cursor + 1]? = some c.history.states[c.history.cursor + 1] :=
      List.getElem?_eq_getElem hlt
    have hfuture : c.timeline.future = c.history.states[c.history.cursor + 1] ::
        c.history.states.drop (c.history.cursor + 1 + 1) := List.drop_eq_getElem_cons hlt
    have hpast : c.history.states.take (c.history.cursor + 1) = c.timeline.past ++ [c.shown] := by
      have hshown : c.history.states[c.history.cursor] = c.shown :=
        h.shown_eq _ (List.getElem?_eq_getElem (by omega))
      rw [← hshown]
      exact (List.take_append_getElem (Nat.lt_of_succ_lt hlt)).symm
    have hlimit := h.length_le
    have hmoved := h.moveTo (by omega) hget (by omega) (Nat.le_of_lt hlt)
    have hstep : c.step same .redo =
        (⟨{ c.history with cursor := c.history.cursor + 1, cursor_le := Nat.le_of_lt hlt },
          c.history.states[c.history.cursor + 1]⟩, some c.history.states[c.history.cursor + 1]) := by
      simp [step, History.redo, hlt]
    simp only [hstep, Timeline.step, hfuture, true_and]
    exact ⟨congrArg (fun p => Timeline.mk p _ _) hpast, hmoved⟩
  · have hfuture : c.timeline.future = [] := List.drop_eq_nil_of_le (by omega)
    have hstep : c.step same .redo = (c, none) := by
      simp [step, History.redo, hlt]
    simp only [hstep, Timeline.step, hfuture, true_and]
    exact h

/-- One step is the same with a history as on the timeline. -/
theorem Tracks.step (h : Tracks same limit c) {a : HistoryStep σ} (ha : c.timeline.changes same a = true) :
    (c.step same a).2 = (c.timeline.step limit a).2 ∧
      (c.step same a).1.timeline = (c.timeline.step limit a).1 ∧
      Tracks same limit (c.step same a).1 := by
  cases a with
  | edit next =>
      have hn : same c.shown next = false := by simpa [Timeline.changes, timeline] using ha
      exact ⟨rfl, h.edit hn⟩
  | undo => exact h.undo
  | redo => exact h.redo

/-- So is a whole run. -/
theorem Tracks.answerAll (h : Tracks same limit c) (steps : List (HistoryStep σ))
    (hs : c.timeline.alwaysChanges same limit steps = true) :
    (FormulaEditor.answerAll (Chronicle.step same) c steps).2 =
        (FormulaEditor.answerAll (Timeline.step limit) c.timeline steps).2 ∧
      (FormulaEditor.answerAll (Chronicle.step same) c steps).1.timeline =
        (FormulaEditor.answerAll (Timeline.step limit) c.timeline steps).1 ∧
      Tracks same limit (FormulaEditor.answerAll (Chronicle.step same) c steps).1 := by
  induction steps generalizing c with
  | nil => exact ⟨rfl, rfl, h⟩
  | cons a rest ih =>
      simp only [Timeline.alwaysChanges, Bool.and_eq_true] at hs
      obtain ⟨hanswer, htimeline, htracks⟩ := h.step hs.1
      have hrest := ih htracks (htimeline ▸ hs.2)
      rw [htimeline] at hrest
      exact ⟨congrArg₂ List.cons hanswer hrest.1, hrest.2.1, hrest.2.2⟩

theorem canUndo_iff (c : Chronicle σ) :
    c.history.canUndo = true ↔ c.timeline.past ≠ [] := by
  have hle := c.history.cursor_le
  show decide (0 < c.history.cursor) = true ↔ List.take c.history.cursor _ ≠ []
  rw [decide_eq_true_iff, ← List.length_pos_iff, List.length_take]
  omega

theorem canRedo_iff (c : Chronicle σ) :
    c.history.canRedo = true ↔ c.timeline.future ≠ [] := by
  show decide (c.history.cursor + 1 < c.history.states.length) = true ↔
    List.drop (c.history.cursor + 1) _ ≠ []
  rw [decide_eq_true_iff, ← List.length_pos_iff, List.length_drop]
  omega

theorem Tracks.length_past_le (h : Tracks same limit c) : c.timeline.past.length ≤ limit := by
  have hcursor := h.cursor_le
  show (List.take c.history.cursor _).length ≤ _
  rw [List.length_take]
  omega

/-- From an empty history on, a run of edits, each of which leads to a different state, and of steps
back and forth gives the answers of a timeline that keeps `limit` states of the past, and ends with
that timeline. Whether there is something to undo or redo is told from the cursor. -/
theorem answerAll_eq_timeline (same : σ → σ → Bool) {limit : Nat} (hl : 1 ≤ limit) (start : σ)
    {steps : List (HistoryStep σ)}
    (hs : Timeline.alwaysChanges same limit ⟨[], start, []⟩ steps = true) :
    let c := answerAll (Chronicle.step same) ⟨History.empty limit, start⟩ steps
    let t := answerAll (Timeline.step limit) ⟨[], start, []⟩ steps
    c.2 = t.2 ∧ c.1.timeline = t.1 ∧ t.1.past.length ≤ limit ∧
      (c.1.history.canUndo = true ↔ t.1.past ≠ []) ∧
      (c.1.history.canRedo = true ↔ t.1.future ≠ []) := by
  intro c t
  obtain ⟨hanswers, htimeline, htracks⟩ := (tracks_empty same hl start).answerAll steps hs
  replace htimeline : c.1.timeline = t.1 := htimeline
  refine ⟨hanswers, htimeline, ?_, ?_, ?_⟩
  · rw [← htimeline]
    exact htracks.length_past_le
  · rw [← htimeline]
    exact canUndo_iff c.1
  · rw [← htimeline]
    exact canRedo_iff c.1

/-- Four edits with room for two states, so that the two oldest are dropped, then steps back and
forth, and an edit that leaves nothing to redo. -/
def tightSteps : List (HistoryStep Nat) :=
  [.edit 1, .edit 2, .edit 3, .edit 4, .undo, .undo, .undo, .redo, .edit 5, .redo, .undo]

theorem answerAll_eq_timeline_tightSteps :
    Timeline.alwaysChanges (· == ·) 2 ⟨[], 0, []⟩ tightSteps = true ∧
      (answerAll (Chronicle.step (· == ·)) ⟨History.empty 2, 0⟩ tightSteps).2 =
        [none, none, none, none, some 3, some 2, none, some 3, none, none, some 3] := by
  have hs : Timeline.alwaysChanges (· == ·) 2 ⟨[], 0, []⟩ tightSteps = true := by decide
  exact ⟨hs, (answerAll_eq_timeline (· == ·) (by decide) 0 hs).1⟩

end Chronicle

end FormulaEditor

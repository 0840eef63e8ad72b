import FormulaEditor.Proofs.Editor.Consisting
import FormulaEditor.Proofs.Editor.Displaying
import FormulaEditor.Proofs.Field.Undoing

/-!
# When redoing brings back what was undone

A field is up to date if the recorded state at the cursor, where there is one, is what it shows. A
record leaves the cursor behind all states, going back or forth shows the state at the cursor, and
neither moving the caret nor marking characters counts as a change. So a field is up to date until,
with a recorded state at the cursor, something is changed without a record: by a letter of a command,
by a suggestion, or by discarding a command.
-/

namespace FormulaEditor

/-- The cursor is behind all recorded states. -/
def History.AtEnd {σ : Type} (h : History σ) : Prop :=
  h.cursor = h.states.length

/-- Whether a command changes formula or mode without being recorded. -/
def Command.editsUnrecorded : Command → Bool
  | exitCommandMode | insertSuggestion .. | removeSuggestion => true
  | _ => false

namespace Editor

variable {e : Editor}

/-! ## Marks of a command -/

theorem bare_onCommandRun {operation : List Atom → CommandRun → Editor}
    (h : ∀ branch, e.caret.branch? e.root = some branch →
      (operation branch (CommandRun.around branch e.caret.offset)).root.bare = e.root.bare) :
    (e.onCommandRun e operation).root.bare = e.root.bare := by
  unfold onCommandRun
  split
  · rfl
  · rename_i branch hbranch
    exact h branch hbranch

theorem bare_mapRun {branch : List Atom} (hb : e.caret.branch? e.root = some branch)
    {start stop : Nat} (h : start ≤ stop) (f : Marks → Marks) :
    (e.mapRun branch start stop fun a => a.mapMarks f).root.bare = e.root.bare :=
  Path.mapLabels_modifyBranch fun atoms ha => by
    cases hb.symm.trans ha
    exact map_splice_slice (fun a => Atom.bare_mapMarks a f) h branch

/-- Commands that mark the characters of a command leave the formula alike, in the same mode. -/
theorem bare_decorateCommand (e : Editor) (error : Bool) :
    (e.decorateCommand error).root.bare = e.root.bare ∧ (e.decorateCommand error).mode = e.mode := by
  constructor
  · refine bare_onCommandRun fun branch hb => ?_
    obtain ⟨hstart, hstop, -⟩ := CommandRun.bounds branch e.caret.offset
    exact bare_mapRun hb (Nat.le_trans hstart hstop) _
  · unfold decorateCommand onCommandRun
    split <;> rfl

theorem bare_commitCommand (e : Editor) :
    e.commitCommand.root.bare = e.root.bare ∧ e.commitCommand.mode = e.mode := by
  constructor
  · refine bare_onCommandRun fun branch hb => ?_
    exact bare_mapRun hb (CommandRun.bounds branch e.caret.offset).1 _
  · unfold commitCommand onCommandRun
    split <;> rfl

theorem bare_acceptSuggestion (e : Editor) :
    e.acceptSuggestion.root.bare = e.root.bare ∧ e.acceptSuggestion.mode = e.mode := by
  constructor
  · refine bare_onCommandRun fun branch hb => ?_
    obtain ⟨hstart, hstop, -⟩ := CommandRun.bounds branch e.caret.offset
    exact bare_mapRun hb (Nat.le_trans hstart hstop) _
  · unfold acceptSuggestion onCommandRun
    split <;> rfl

end Editor

namespace Field

variable {f g : Field}

/-! ## Staying up to date -/

theorem isUpToDate_of_atEnd (h : f.history.AtEnd) : f.isUpToDate = true := by
  rw [isUpToDate, h, List.getElem?_eq_none (Nat.le_refl _), Option.all_none]

theorem isUpToDate_of_restore {s : Snapshot} {e : Editor}
    (hs : f.history.states[f.history.cursor]? = some s) (he : f.editor = s.restore e) :
    f.isUpToDate = true := by
  rw [isUpToDate, hs, Option.all_some, shows, he]
  simp [Snapshot.restore, Atom.alike_refl]

theorem isUpToDate_congr (hh : g.history = f.history)
    (hr : g.editor.root.bare = f.editor.root.bare) (hm : g.editor.mode = f.editor.mode) :
    g.isUpToDate = f.isUpToDate := by
  have hshows : g.shows = f.shows := by
    funext s
    have halike : s.root.alike g.editor.root = s.root.alike f.editor.root := by
      rw [Bool.eq_iff_iff, Atom.alike_iff, Atom.alike_iff, hr]
    rw [shows, shows, halike, hm]
  rw [isUpToDate, isUpToDate, hh, hshows]

theorem atEnd_record (f : Field) : f.record.history.AtEnd :=
  rfl

theorem atEnd_run {c : Command} (hc : c.isMutation = true) (f : Field) :
    (f.run c).state.history.AtEnd :=
  (history_run hc f).symm ▸ f.atEnd_record

/-- The state that is gone back to is at the cursor. A refused undo only settles the history. -/
theorem isUpToDate_undo (hu : f.isUpToDate = true) : f.undo.state.isUpToDate = true := by
  cases hs : f.undone.2 with
  | some s =>
      obtain ⟨-, hhistory, e, he⟩ := undo_of_eq_some hs
      refine isUpToDate_of_restore (s := s) ?_ he
      rw [hhistory]
      exact History.getElem?_undo hs
  | none =>
      obtain ⟨s, hget, hshows⟩ := shows_settle f
      have hrefused : f.undo.state.isUpToDate = (f.undone.1.states[f.undone.1.cursor]?).all f.shows := by
        rw [undo_of_eq_none hs]
        rfl
      rw [hrefused, undone, (History.undo_fst_of_eq_none hs).1, hget]
      exact hshows.trans hu

theorem isUpToDate_redo (hu : f.isUpToDate = true) : f.redo.state.isUpToDate = true := by
  cases hs : f.history.redo.2 with
  | some s =>
      obtain ⟨-, hhistory, e, he⟩ := redo_of_eq_some hs
      refine isUpToDate_of_restore (s := s) ?_ he
      rw [hhistory]
      exact History.getElem?_redo hs
  | none =>
      have hsame : f.history.redo.1 = f.history := by
        unfold History.redo at hs ⊢
        split at hs
        · cases hs
        · rename_i hr
          rw [dif_neg hr]
      rw [redo_of_eq_none hs, hsame]
      exact hu

/-! ## Commands -/

theorem isUpToDate_run (hu : f.isUpToDate = true) {c : Command} (hc : c.editsUnrecorded = false) :
    (f.run c).state.isUpToDate = true := by
  have hmove (hm : c.isMovement = true) :
      (f.edit fun e => c.applyTo e).state.isUpToDate = true := by
    have honly := Editor.onlySelects_applyTo f.editor hm
    rw [← hu]
    exact isUpToDate_congr rfl (congrArg Atom.bare honly.root_eq) honly.mode_eq
  have hmark {e : Editor} (he : e.root.bare = f.editor.root.bare ∧ e.mode = f.editor.mode) :
      (f.withEditor e).isUpToDate = true := by
    rw [← hu]
    exact isUpToDate_congr rfl he.1 he.2
  cases c with
  | undo => exact isUpToDate_undo hu
  | redo => exact isUpToDate_redo hu
  | snapshot => exact isUpToDate_of_atEnd f.atEnd_record
  | acceptSuggestion => exact hmark f.editor.bare_acceptSuggestion
  | commitCommand => exact hmark f.editor.bare_commitCommand
  | decorateCommand error => exact hmark (f.editor.bare_decorateCommand error)
  | exitCommandMode | insertSuggestion | removeSuggestion => cases hc
  | insert | delete | promoteToSuperscript | promoteToSubscript | moveToSuperscript | moveToSubscript
  | enterCommandMode | completeCommand => exact isUpToDate_of_atEnd (atEnd_run rfl f)
  | _ => exact hmove rfl

/-! ## Typing -/

theorem atEnd_applyShortcut (h : f.history.AtEnd) : f.applyShortcut.state.history.AtEnd := by
  unfold applyShortcut
  split
  · exact h
  · exact state_andThen (Q := fun g => g.history.AtEnd)
      (state_andThen (Q := fun g => g.history.AtEnd) f.atEnd_record fun g hg => hg) fun g hg => hg

theorem atEnd_insertTyped (f : Field) (c : Char) : (f.insertTyped c).state.history.AtEnd := by
  refine state_andThen (Q := fun g => g.history.AtEnd) (atEnd_run rfl f) fun g hg => ?_
  split
  · exact hg
  · exact atEnd_applyShortcut hg

/-- A character of a formula is recorded, unless it is a space that does not count. -/
theorem typeMathChar_cases (f : Field) (c : Char) :
    f.typeMathChar c = .done f.endTyping ∨ (f.typeMathChar c).state.history.AtEnd := by
  unfold typeMathChar
  split
  · exact Or.inr (atEnd_run rfl f.endTyping)
  split
  · exact Or.inr (atEnd_run rfl f.endTyping)
  split
  · exact Or.inr (atEnd_run rfl f.endTyping)
  split
  · exact Or.inl rfl
  · exact Or.inr (f.atEnd_insertTyped c)

theorem isUpToDate_typeMathChar (hu : f.isUpToDate = true) (c : Char) :
    (f.typeMathChar c).state.isUpToDate = true := by
  rcases f.typeMathChar_cases c with hsame | hend
  · rw [hsame]
    exact hu
  · exact isUpToDate_of_atEnd hend

/-- What completes a command is recorded. -/
theorem isUpToDate_typeCommandChar (hu : f.isUpToDate = true) {c : Char}
    (hc : Text.isLetter c = false) : (f.typeCommandChar c).state.isUpToDate = true := by
  unfold typeCommandChar
  rw [if_neg (by simp [hc])]
  split
  · cases hv : f.editor.validate with
    | ok u =>
        have hdone : (f.edit fun e => e.insertCommandChar c) =
            .done (f.withEditor (f.editor.typeIntoCommand c)) := by
          simp only [edit, Editor.insertCommandChar, Editor.whenValid, hv]
          rfl
        rw [hdone]
        exact isUpToDate_of_atEnd (atEnd_run (c := .completeCommand) rfl
          (f.withEditor (f.editor.typeIntoCommand c)).endTyping)
    | error reason =>
        have hrefused : (f.edit fun e => e.insertCommandChar c) = .refused f reason := by
          simp only [edit, Editor.insertCommandChar, Editor.whenValid, hv]
          rfl
        rw [hrefused]
        exact hu
  · refine isUpToDate_of_atEnd (state_andThen (Q := fun g => g.history.AtEnd)
      (atEnd_run rfl f.endTyping) fun g hg => ?_)
    rcases g.typeMathChar_cases c with hsame | hend
    · rw [hsame]
      exact hg
    · exact hend

/-! ## Runs -/

/-- Whether a step changes formula or mode without being recorded. -/
def editsUnrecorded (f : Field) : Step → Bool
  | .perform c => c.editsUnrecorded
  | .typeChar c => f.editor.mode = .command && Text.isLetter c
  | .keystroke key => (Keymap.find? f.editor.mode key).any Command.editsUnrecorded
  | .setLatex _ => false

/-- Whether a step changes formula or mode without being recorded while a recorded state is at the
cursor, which the history keeps instead of the changed one. -/
def forgets (f : Field) (step : Step) : Bool :=
  f.history.cursor < f.history.states.length && f.editsUnrecorded step

theorem history_perform_of_editsUnrecorded {c : Command} (hc : c.editsUnrecorded = true) (f : Field) :
    (f.perform c).state.history = f.history := by
  cases c with
  | exitCommandMode | insertSuggestion | removeSuggestion => rfl
  | _ => cases hc

theorem keystroke_state (f : Field) (key : String) :
    (f.keystroke key).state = ((Keymap.find? f.editor.mode key).elim f fun c => (f.perform c).state) := by
  unfold keystroke
  cases Keymap.find? f.editor.mode key with
  | none => rfl
  | some c => exact state_andThen_answer _ _

/-- A change that is not recorded does not touch the history. -/
theorem history_after_of_editsUnrecorded {step : Step} (hs : f.editsUnrecorded step = true) :
    (f.after step).history = f.history := by
  cases step with
  | perform c => exact history_perform_of_editsUnrecorded hs f
  | typeChar c =>
      simp only [editsUnrecorded, Bool.and_eq_true, decide_eq_true_eq] at hs
      simp only [after, typeChar, hs.1, typeCommandChar, hs.2, if_true]
      refine state_andThen (Q := fun g => g.history = f.history) rfl fun g hg => ?_
      rw [Outcome.state_done, history_updateSuggestion, hg]
  | keystroke key =>
      obtain ⟨c, hkey, hc⟩ := (Option.any_eq_true ..).1 hs
      rw [after, keystroke_state, hkey]
      exact history_perform_of_editsUnrecorded hc f
  | setLatex source => cases hs

theorem isUpToDate_after_of_not_editsUnrecorded (hu : f.isUpToDate = true) {step : Step}
    (hs : f.editsUnrecorded step = false) : (f.after step).isUpToDate = true := by
  cases step with
  | perform c => exact isUpToDate_run (f := f.endTyping) hu hs
  | typeChar c =>
      simp only [after, typeChar]
      cases hmode : f.editor.mode with
      | math => exact isUpToDate_typeMathChar hu c
      | command =>
          simp only [editsUnrecorded, hmode, decide_true, Bool.true_and] at hs
          exact isUpToDate_typeCommandChar hu hs
  | keystroke key =>
      rw [after, keystroke_state]
      cases hkey : Keymap.find? f.editor.mode key with
      | none => exact hu
      | some c =>
          rw [editsUnrecorded, hkey, Option.any_some] at hs
          exact isUpToDate_run (f := f.endTyping) hu hs
  | setLatex source => exact isUpToDate_of_atEnd f.endTyping.atEnd_record

/-- One step keeps a field up to date, unless it changes a recorded state without a record. -/
theorem isUpToDate_after (hu : f.isUpToDate = true) {step : Step} (hs : f.forgets step = false) :
    (f.after step).isUpToDate = true := by
  cases hedits : f.editsUnrecorded step with
  | false => exact isUpToDate_after_of_not_editsUnrecorded hu hedits
  | true =>
      have hle := f.history.cursor_le
      have hlt : ¬ f.history.cursor < f.history.states.length := by
        simpa only [forgets, hedits, Bool.and_true, decide_eq_false_iff_not] using hs
      refine isUpToDate_of_atEnd ?_
      rw [history_after_of_editsUnrecorded hedits, History.AtEnd]
      omega

/-- So does a run. -/
theorem isUpToDate_afterAll (hu : f.isUpToDate = true) {steps : List Step}
    (hrun : ∀ n (hn : n < steps.length), (f.afterAll (steps.take n)).forgets steps[n] = false) :
    (f.afterAll steps).isUpToDate = true := by
  induction steps generalizing f with
  | nil => exact hu
  | cons step rest ih =>
      have hstep := isUpToDate_after hu (hrun 0 (Nat.zero_lt_succ _))
      exact ih hstep fun n hn => hrun (n + 1) (Nat.succ_lt_succ hn)

theorem isUpToDate_new {shortcuts : ShortcutTable} (h : Field.new shortcuts = .ok f) :
    f.isUpToDate = true := by
  obtain ⟨-, rfl⟩ := new_eq_ok_iff.1 h
  rfl

/-- From a new field on, redoing right after an undo that was not refused is not refused either. It
brings formula and mode back exactly if the field was up to date, as it is after every run without a
change that the history forgets. -/
theorem redo_undo_run {shortcuts : ShortcutTable} (h : Field.new shortcuts = .ok f)
    (steps : List Step) :
    let g := f.afterAll steps
    let back := (g.perform .undo).state
    ((g.perform .undo).answer = .ok () → (back.perform .redo).answer = .ok () ∧
      (g.shows (Snapshot.ofEditor (back.perform .redo).state.editor) = true ↔
        g.isUpToDate = true)) ∧
    ((∀ n (hn : n < steps.length), (f.afterAll (steps.take n)).forgets steps[n] = false) →
      g.isUpToDate = true) :=
  ⟨shows_redo_undo_iff, isUpToDate_afterAll (isUpToDate_new h)⟩

/-- Starts a command, goes back and forth again, and then types a letter that is not recorded. -/
def lostLetterSteps : List Step :=
  [.typeChar '\\', .perform .undo, .perform .redo, .typeChar 'a']

/-- Before the letter the field is up to date. Afterwards redoing right after undoing brings back `\`
instead of `\a`. -/
theorem redo_undo_run_lostLetterSteps :
    ∃ f g, Field.new ⟨[], false⟩ = .ok f ∧ f.afterAll lostLetterSteps = g ∧
      (f.afterAll (lostLetterSteps.take 3)).isUpToDate = true ∧
      (g.perform .undo).answer = .ok () ∧ ((g.perform .undo).state.perform .redo).answer = .ok () ∧
      g.shows (Snapshot.ofEditor ((g.perform .undo).state.perform .redo).state.editor) = false := by
  have hnew : Field.new ⟨[], false⟩ = .ok ⟨Editor.empty, History.empty History.defaultLimit,
    ⟨[], false⟩, []⟩ := rfl
  refine ⟨_, _, hnew, rfl, (redo_undo_run hnew (lostLetterSteps.take 3)).2 (by decide +kernel), ?_⟩
  -- The run is evaluated once, for both conditions.
  have heval : (((afterAll ⟨Editor.empty, History.empty History.defaultLimit, ⟨[], false⟩, []⟩
      lostLetterSteps).endTyping.undone.2.isSome && !(afterAll ⟨Editor.empty,
      History.empty History.defaultLimit, ⟨[], false⟩, []⟩ lostLetterSteps).isUpToDate)) = true := by
    decide +kernel
  rw [Bool.and_eq_true, Bool.not_eq_true'] at heval
  have hundo := (answer_undo_iff _).2 heval.1
  obtain ⟨hredo, hshows⟩ := (redo_undo_run hnew lostLetterSteps).1 hundo
  refine ⟨hundo, hredo, ?_⟩
  rw [← Bool.not_eq_true, hshows, heval.2]
  exact Bool.false_ne_true

end Field

end FormulaEditor

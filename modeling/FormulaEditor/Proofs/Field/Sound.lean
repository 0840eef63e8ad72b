import FormulaEditor.Field.Typing
import FormulaEditor.Proofs.Editor.Operations
import FormulaEditor.Proofs.Editor.Suggesting
import FormulaEditor.Proofs.Latex.WellFormed

/-!
# Sound fields

A field is sound if its editor is and every recorded formula is well formed, so that stepping through
the history stays among well-formed formulas. Whatever is done to a sound field leaves it sound,
apart from the removal of suggestions where nothing else was in a branch: there the formula becomes
ill formed.
-/

namespace FormulaEditor

/-! ## Recorded states -/

namespace History

variable {σ : Type} {P : σ → Prop} {h : History σ} {shown : σ}

theorem forall_record (same : σ → σ → Bool) (hh : ∀ s ∈ h.states, P s) (hs : P shown) :
    ∀ s ∈ (h.record same shown).1.states, P s := by
  have hpast : ∀ s ∈ h.states.take h.cursor, P s := fun s hm => hh s (List.mem_of_mem_take hm)
  have hall : ∀ s ∈ h.states.take h.cursor ++ [shown], P s :=
    List.forall_mem_append.2 ⟨hpast, by simpa using hs⟩
  unfold record trimmed
  simp only
  split
  · exact hpast
  · split
    · exact fun s hm => hall s (List.mem_of_mem_tail hm)
    · exact hall

theorem forall_settle (same : σ → σ → Bool) (hh : ∀ s ∈ h.states, P s) (hs : P shown) :
    ∀ s ∈ (h.settle same shown).states, P s := by
  unfold settle
  split
  · simp only
    split
    · exact hh
    · exact List.forall_mem_append.2 ⟨hh, by simpa using hs⟩
  · exact hh

theorem forall_undo (same : σ → σ → Bool) (hh : ∀ s ∈ h.states, P s) (hs : P shown) :
    (∀ s ∈ (h.undo same shown).1.states, P s) ∧ ∀ s, (h.undo same shown).2 = some s → P s := by
  have hsettled := forall_settle same hh hs
  unfold undo
  simp only
  split
  · exact ⟨hsettled, by simp⟩
  · exact ⟨hsettled, fun s hget => hsettled s (List.mem_of_getElem? hget)⟩

theorem forall_redo (hh : ∀ s ∈ h.states, P s) :
    (∀ s ∈ h.redo.1.states, P s) ∧ ∀ s, h.redo.2 = some s → P s := by
  unfold redo
  split
  · refine ⟨hh, fun s hget => ?_⟩
    simp only [Option.some.injEq] at hget
    exact hget ▸ hh _ (List.getElem_mem _)
  · exact ⟨hh, by simp⟩

end History

/-- A snapshot of a well-formed formula. -/
structure Snapshot.Sound (s : Snapshot) : Prop where
  kind_root : s.root.kind = .root
  isWellFormed : s.root.isWellFormed = true

/-- Showing a well-formed formula again makes the editor sound, whatever the selection was. -/
theorem Snapshot.Sound.restore {s : Snapshot} (h : s.Sound) (e : Editor) : (s.restore e).Sound := by
  unfold Snapshot.restore Editor.restore
  simp only
  split
  · rename_i hvalid
    exact ⟨h.kind_root, h.isWellFormed, hvalid⟩
  · exact Editor.sound_setCaret_endOf h.kind_root h.isWellFormed

namespace Field

variable {f : Field}

/-- The editor is sound, and so is every recorded state. -/
structure Sound (f : Field) : Prop where
  editor : f.editor.Sound
  history : ∀ s ∈ f.history.states, s.Sound

/-- The field is sound, or its formula is ill formed as a branch that needs content was emptied. -/
structure SoundUnless (f : Field) (emptied : Bool) : Prop where
  isWellFormed_iff : f.editor.root.isWellFormed = true ↔ emptied = false
  sound : f.editor.root.isWellFormed = true → f.Sound

theorem Sound.soundUnless (h : f.Sound) : f.SoundUnless false :=
  ⟨iff_of_true h.editor.isWellFormed rfl, fun _ => h⟩

theorem Sound.withEditor (h : f.Sound) {e : Editor} (he : e.Sound) : (f.withEditor e).Sound :=
  ⟨he, h.history⟩

theorem Sound.withEditor_unless (h : f.Sound) {e : Editor} {emptied : Bool}
    (he : e.SoundUnless emptied) : (f.withEditor e).SoundUnless emptied :=
  ⟨he.isWellFormed_iff, fun hw => h.withEditor (he.sound hw)⟩

theorem Sound.note (h : f.Sound) (event : Event) : (f.note event).Sound :=
  h.withEditor (h.editor.of_eq rfl rfl)

theorem Sound.endTyping (h : f.Sound) : f.endTyping.Sound :=
  ⟨h.editor, h.history⟩

theorem Sound.snapshot (h : f.Sound) : (Snapshot.ofEditor f.editor).Sound :=
  ⟨h.editor.kind_root, h.editor.isWellFormed⟩

/-! ## History -/

theorem Sound.record (h : f.Sound) : f.record.Sound := by
  have hrecorded : Sound { f with
      history := (f.history.record Snapshot.same (Snapshot.ofEditor f.editor)).1 } :=
    ⟨h.editor, History.forall_record Snapshot.same h.history h.snapshot⟩
  exact hrecorded.note _

theorem Sound.undo (h : f.Sound) : f.undo.state.Sound := by
  obtain ⟨hstates, hshown⟩ := History.forall_undo Snapshot.same h.history h.snapshot
  unfold Field.undo
  split <;> rename_i history shown hundo <;> rw [hundo] at hstates hshown
  · exact ⟨(hshown _ rfl).restore _, hstates⟩
  · exact ⟨h.editor, hstates⟩

theorem Sound.redo (h : f.Sound) : f.redo.state.Sound := by
  obtain ⟨hstates, hshown⟩ := History.forall_redo h.history
  unfold Field.redo
  split <;> rename_i history shown hredo <;> rw [hredo] at hstates hshown
  · exact ⟨(hshown _ rfl).restore _, hstates⟩
  · exact ⟨h.editor, hstates⟩

/-! ## Commands -/

theorem state_andThen {Q : Field → Prop} {o : Outcome Field Unit} {α : Type}
    {next : Field → Outcome Field α} (h : Q o.state) (hn : ∀ f : Field, Q f → Q (next f).state) :
    Q (o.andThen next).state := by
  unfold Outcome.andThen
  split
  · exact hn _ h
  · exact h

theorem Sound.edit (h : f.Sound) {operation : Editor → Outcome Editor Unit}
    (ho : (operation f.editor).state.Sound) : (f.edit operation).state.Sound :=
  h.withEditor ho

/-- After an operation that is carried out the field goes on with the editor it leaves behind. -/
theorem edit_andThen {operation : Editor → Outcome Editor Unit}
    (ho : Editor.CarriedOut (operation f.editor)) {α : Type} (next : Field → Outcome Field α) :
    (f.edit operation).andThen next = next (f.withEditor (operation f.editor).state) := by
  unfold Field.edit Outcome.lift Outcome.andThen
  rw [ho.1]

/-- Updating the suggestion takes the earlier one away, which may have been all there was. -/
theorem Sound.updateSuggestion (h : f.Sound) :
    f.updateSuggestion.SoundUnless f.editor.onlySuggested := by
  unfold Field.updateSuggestion
  simp only
  split
  · exact h.withEditor_unless (h.editor.decorateCommand_removeSuggestion false)
  · rename_i hsize
    split
    · have htyped : f.editor.onlySuggested = false := by
        rw [← Bool.not_eq_true]
        intro hall
        rw [Editor.commandTextBefore_of_onlySuggested hall] at hsize
        exact hsize (by decide)
      have hremoved : f.editor.removeSuggestion.Sound :=
        h.editor.removeSuggestion.sound (h.editor.removeSuggestion.isWellFormed_iff.2 htyped)
      refine h.withEditor_unless
        ((h.editor.decorateCommand_insertSuggestion _ 0 false).of_iff (iff_of_true ?_ htyped))
      rw [hremoved.onlyTyped_zero, Bool.and_false]
    · exact h.withEditor_unless (h.editor.decorateCommand_removeSuggestion true)

theorem Sound.updateSuggestion_inCommand (h : f.Sound) :
    (if f.editor.mode = .command then f.updateSuggestion else f).SoundUnless
      (f.editor.mode = .command && f.editor.onlySuggested) := by
  split
  · rename_i hmode
    simpa only [hmode, decide_true, Bool.true_and] using h.updateSuggestion
  · rename_i hmode
    simpa only [hmode, decide_false, Bool.false_and] using h.soundUnless

/-- Whether a command empties a branch that needs content. -/
def emptiedBy (f : Field) : Command → Bool
  | .removeSuggestion => f.editor.onlySuggested
  | .insertSuggestion text trim =>
      text.toList.isEmpty && f.editor.removeSuggestion.onlyTyped trim
  | .delete direction count =>
      let e := (f.record.editor.delete direction count).state
      e.mode = .command && e.onlySuggested
  | _ => false

/-- Deleting is followed by an update of the suggestion while a command is typed. -/
theorem Sound.run_delete (h : f.Sound) (d : Direction) (n : Nat) :
    (f.run (.delete d n)).state.SoundUnless (f.emptiedBy (.delete d n)) := by
  have hcarried := h.record.editor.delete d n
  have hdeleted := h.record.withEditor hcarried.2
  change ((f.record.edit fun e => e.delete d n).andThen fun f =>
    .done (if f.editor.mode = .command then f.updateSuggestion else f)).state.SoundUnless _
  rw [edit_andThen hcarried, Outcome.state_done]
  exact hdeleted.updateSuggestion_inCommand

/-- A command leaves the field sound, unless it empties a branch that needs content. -/
theorem Sound.run (h : f.Sound) (c : Command) : (f.run c).state.SoundUnless (f.emptiedBy c) := by
  have hrecorded : (if c.isMutation then f.record else f).Sound := by
    split
    · exact h.record
    · exact h
  have happly (hs : c.isSetRange = false) (hd : c.dropsSuggestion = false) :
      ((if c.isMutation then f.record else f).edit fun e => c.applyTo e).state.SoundUnless false :=
    (hrecorded.edit (hrecorded.editor.applyTo hs hd).2).soundUnless
  cases c with
  | undo => exact h.undo.soundUnless
  | redo => exact h.redo.soundUnless
  | snapshot => exact h.record.soundUnless
  | delete d n => exact h.run_delete d n
  | removeSuggestion => exact h.withEditor_unless h.editor.removeSuggestion
  | insertSuggestion text trim =>
      exact h.withEditor_unless (h.editor.insertSuggestion text.toList trim)
  | setRange anchor focus =>
      refine (h.edit ?_).soundUnless
      rcases h.editor.select anchor focus with ⟨-, hsound⟩ | ⟨reason, hrefused⟩
      · exact hsound
      · have hsame : ((Command.setRange anchor focus).applyTo f.editor).state = f.editor :=
          congrArg Outcome.state hrefused
        rw [hsame]
        exact h.editor
  | _ => exact happly rfl rfl

/-- A command that does not take suggestions away leaves the field sound. -/
theorem Sound.perform (h : f.Sound) {c : Command} (hc : f.endTyping.emptiedBy c = false) :
    (f.perform c).state.Sound :=
  have hrun := h.endTyping.run c
  hrun.sound (hrun.isWellFormed_iff.2 hc)

theorem Sound.setLatex (h : f.Sound) (source : String) : (f.setLatex source).2.Sound :=
  h.endTyping.record.withEditor
    (Editor.sound_setAtoms _ (Latex.isWellFormed_parseFragment (by simp) source .math _))

/-! ## Typing -/

theorem Sound.applyShortcut (h : f.Sound) : f.applyShortcut.state.Sound := by
  unfold Field.applyShortcut
  split
  · exact h
  · refine state_andThen (state_andThen ?_ fun g hg => ?_) fun g hg => hg.endTyping
    · exact h.record.edit (h.record.editor.delete _ _).2
    · exact hg.edit (hg.editor.insert _ _).2

theorem Sound.insertTyped (h : f.Sound) (c : Char) : (f.insertTyped c).state.Sound := by
  have hinserted := h.run (.insert (String.singleton c) InsertOptions.standard)
  refine state_andThen (hinserted.sound (hinserted.isWellFormed_iff.2 rfl)) fun g hg => ?_
  split
  · exact hg.endTyping
  · exact Sound.applyShortcut ⟨hg.editor, hg.history⟩

theorem Sound.typeMathChar (h : f.Sound) (c : Char) : (f.typeMathChar c).state.Sound := by
  unfold Field.typeMathChar
  split
  · exact h.perform rfl
  split
  · exact h.perform rfl
  split
  · exact h.perform rfl
  split
  · exact h.endTyping
  · exact h.insertTyped c

/-- A typed character is not suggested, so that updating the suggestion leaves something. -/
theorem Sound.typeCommandChar (h : f.Sound) (c : Char) : (f.typeCommandChar c).state.Sound := by
  have hcarried := h.editor.insertCommandChar c
  have htyped := h.withEditor hcarried.2
  unfold Field.typeCommandChar
  split
  · rw [edit_andThen hcarried, Outcome.state_done]
    refine htyped.updateSuggestion.sound (htyped.updateSuggestion.isWellFormed_iff.2 ?_)
    unfold Editor.insertCommandChar
    rw [h.editor.whenValid]
    exact h.editor.onlySuggested_typeIntoCommand c
  · split
    · rw [edit_andThen hcarried]
      exact htyped.perform rfl
    · exact state_andThen (h.perform rfl) fun g hg => hg.typeMathChar c

theorem Sound.typeChar (h : f.Sound) (c : Char) : (f.typeChar c).state.Sound := by
  unfold Field.typeChar
  split
  · exact h.typeMathChar c
  · exact h.typeCommandChar c

/-! ## Runs -/

/-- What can be done to a field. -/
inductive Step where
  | perform (c : Command)
  | typeChar (c : Char)
  | keystroke (key : String)
  | setLatex (source : String)

/-- The field after a step, whether or not it was refused. -/
def after (f : Field) : Step → Field
  | .perform c => (f.perform c).state
  | .typeChar c => (f.typeChar c).state
  | .keystroke key => (f.keystroke key).state
  | .setLatex source => (f.setLatex source).2

/-- The field after some steps. -/
def afterAll (f : Field) (steps : List Step) : Field :=
  steps.foldl after f

/-- Whether a step empties a branch that needs content. -/
def emptiedByStep (f : Field) : Step → Bool
  | .perform c => f.emptiedBy c
  | .keystroke key => (Keymap.find? f.editor.mode key).any f.emptiedBy
  | .typeChar _ | .setLatex _ => false

theorem Sound.perform_unless (h : f.Sound) (c : Command) :
    (f.perform c).state.SoundUnless (f.emptiedBy c) := by
  have hsame : f.endTyping.emptiedBy c = f.emptiedBy c := by cases c <;> rfl
  exact hsame ▸ h.endTyping.run c

theorem state_andThen_answer (o : Outcome Field Unit) {α : Type} (answer : α) :
    (o.andThen fun f => ⟨f, .ok answer⟩).state = o.state := by
  unfold Outcome.andThen
  split <;> rfl

theorem Sound.keystroke (h : f.Sound) (key : String) :
    (f.keystroke key).state.SoundUnless (f.emptiedByStep (.keystroke key)) := by
  unfold Field.keystroke emptiedByStep
  cases hkey : Keymap.find? f.editor.mode key with
  | none => simpa only [hkey, Option.any_none] using h.soundUnless
  | some c => simpa only [hkey, Option.any_some, state_andThen_answer] using h.perform_unless c

/-- One step leaves the field sound, unless it empties a branch that needs content. -/
theorem Sound.after (h : f.Sound) (step : Step) :
    (f.after step).SoundUnless (f.emptiedByStep step) := by
  cases step with
  | perform c => exact h.perform_unless c
  | typeChar c => exact (h.typeChar c).soundUnless
  | keystroke key => exact h.keystroke key
  | setLatex source => exact (h.setLatex source).soundUnless

/-- A formula stays well formed throughout a run exactly if no step empties a branch that needs
content. -/
theorem Sound.isWellFormed_afterAll_iff (h : f.Sound) (steps : List Step) :
    (∀ n ≤ steps.length, (f.afterAll (steps.take n)).editor.root.isWellFormed = true) ↔
      ∀ n (hn : n < steps.length), (f.afterAll (steps.take n)).emptiedByStep steps[n] = false := by
  induction steps generalizing f with
  | nil => simp [afterAll, h.editor.isWellFormed]
  | cons step rest ih =>
      have hstep := h.after step
      constructor
      · intro hall n hn
        have hsound := hstep.sound (hall 1 (by simp))
        cases n with
        | zero => exact hstep.isWellFormed_iff.1 (hall 1 (by simp))
        | succ n =>
            have hrest := (ih hsound).1 fun k hk => hall (k + 1) (Nat.succ_le_succ hk)
            exact hrest n (Nat.lt_of_succ_lt_succ hn)
      · intro hall n hn
        have hsound := hstep.sound (hstep.isWellFormed_iff.2 (hall 0 (Nat.zero_lt_succ _)))
        cases n with
        | zero => exact h.editor.isWellFormed
        | succ n =>
            have hrest := (ih hsound).2 fun k hk => hall (k + 1) (Nat.succ_lt_succ hk)
            exact hrest n (Nat.le_of_succ_le_succ hn)

/-- The field stays sound along a run whose steps empty no branch that needs content. -/
theorem Sound.afterAll (h : f.Sound) {steps : List Step}
    (hrun : ∀ n (hn : n < steps.length),
      (f.afterAll (steps.take n)).emptiedByStep steps[n] = false) : (f.afterAll steps).Sound := by
  induction steps generalizing f with
  | nil => exact h
  | cons step rest ih =>
      have hstep := h.after step
      have hsound := hstep.sound (hstep.isWellFormed_iff.2 (hrun 0 (Nat.zero_lt_succ _)))
      exact ih hsound fun n hn => hrun (n + 1) (Nat.succ_lt_succ hn)

/-- A field is made of every table whose shortcuts can be typed, and is empty. -/
theorem new_eq_ok_iff {shortcuts : ShortcutTable} :
    Field.new shortcuts = .ok f ↔ firstShortcutError? 0 shortcuts.configured = none ∧
      f = ⟨Editor.empty, History.empty History.defaultLimit, shortcuts, []⟩ := by
  unfold Field.new
  cases firstShortcutError? 0 shortcuts.configured with
  | some error => exact iff_of_false nofun nofun
  | none => exact ⟨fun h => ⟨rfl, (Except.ok.inj h).symm⟩, fun h => congrArg Except.ok h.2.symm⟩

theorem sound_new {shortcuts : ShortcutTable} (h : Field.new shortcuts = .ok f) : f.Sound := by
  obtain ⟨-, rfl⟩ := new_eq_ok_iff.1 h
  exact ⟨Editor.sound_setCaret_endOf (e := Editor.empty) rfl (by decide), by simp [History.empty]⟩

/-- From a new field on, the formula stays well formed exactly as long as no step empties a branch
that needs content: by removing suggestions where nothing else is left, or by putting nothing in
place of all that was typed. -/
theorem isWellFormed_run_iff {shortcuts : ShortcutTable} (h : Field.new shortcuts = .ok f)
    (steps : List Step) :
    (∀ n ≤ steps.length, (f.afterAll (steps.take n)).editor.root.isWellFormed = true) ↔
      ∀ n (hn : n < steps.length), (f.afterAll (steps.take n)).emptiedByStep steps[n] = false :=
  (sound_new h).isWellFormed_afterAll_iff steps

/-- Types `x^\a`, which is completed to `\arg`, and deletes the two characters that were typed. -/
def scriptSteps : List Step :=
  [.typeChar 'x', .typeChar '^', .typeChar '\\', .typeChar 'a', .perform (.delete .backward 2)]

/-- While a command is typed into the script the formula is well formed. The counted deletion leaves
suggested characters only, and the script empty. -/
theorem isWellFormed_run_scriptSteps :
    ∃ f, Field.new ⟨[], false⟩ = .ok f ∧
      (∀ n ≤ 4, (f.afterAll ((scriptSteps.take 4).take n)).editor.root.isWellFormed = true) ∧
      (f.afterAll scriptSteps).editor.root.isWellFormed = false := by
  have hnew : Field.new ⟨[], false⟩ = .ok ⟨Editor.empty, History.empty History.defaultLimit,
    ⟨[], false⟩, []⟩ := rfl
  refine ⟨_, hnew, (isWellFormed_run_iff hnew (scriptSteps.take 4)).2 ?_, ?_⟩
  · decide +kernel
  · decide +kernel

end Field

end FormulaEditor

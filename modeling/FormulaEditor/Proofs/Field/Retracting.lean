import FormulaEditor.Proofs.Editor.InsertionFrame
import FormulaEditor.Proofs.Field.Refusing
import FormulaEditor.Proofs.Field.Reverting
import FormulaEditor.Proofs.Field.Substituting
import FormulaEditor.Proofs.Field.UpToDate

/-!
# Shortcuts are taken back in two steps

The character that completes a shortcut is recorded like any other, and the trigger is recorded once
more when it is all there. The two records differ, since a character that is typed always shows, and
the history keeps more than two states. So from whatever history a shortcut is carried out, it is
undone first, and its last character after that.
-/

namespace FormulaEditor

/-! ## Two records in a row -/

namespace History

variable {σ : Type} {same : σ → σ → Bool} {h : History σ} {s t shown : σ}

/-- Where more than one state is kept, the latest state is kept when another one is recorded. -/
theorem exists_trimmed_concat {limit : Nat} (hl : 1 < limit) {states : List σ}
    (hlast : states.getLast? = some s) (t : σ) :
    ∃ past, trimmed limit (states ++ [t]) = past ++ [s, t] := by
  obtain ⟨past, rfl⟩ := List.getLast?_eq_some_iff.1 hlast
  unfold trimmed
  split
  · rename_i hlt
    cases past with
    | nil =>
        simp only [List.length_append, List.length_singleton, List.length_nil] at hlt
        omega
    | cons oldest past => exact ⟨past, by simp⟩
  · exact ⟨past, by simp⟩

/-- A state that differs from the latest record is recorded behind it. -/
theorem exists_record (hl : 1 < h.limit) (hc : h.cursor = h.states.length)
    (hlast : h.states.getLast? = some s) (hne : same s shown = false) :
    ∃ past, (h.record same shown).1.states = past ++ [s, shown] := by
  have hpast : h.states.take h.cursor = h.states := List.take_of_length_le (Nat.le_of_eq hc.symm)
  have hends : endsWith same h.states shown = false := by
    rw [endsWith, hlast, Option.any_some, hne]
  obtain ⟨past, hpast'⟩ := exists_trimmed_concat hl hlast shown
  refine ⟨past, ?_⟩
  simp only [record, hpast, hends, Bool.false_eq_true, if_false, hpast']

theorem states_undo (same : σ → σ → Bool) (h : History σ) (shown : σ) :
    (h.undo same shown).1.states = (h.settle same shown).states := by
  unfold undo
  simp only
  split <;> rfl

theorem cursor_undo (same : σ → σ → Bool) (h : History σ) (shown : σ) :
    (h.undo same shown).1.cursor = (h.settle same shown).cursor - 1 := by
  unfold undo
  simp only
  split
  · rename_i hc
    rw [hc]
  · rfl

theorem undo_snd_of_ne_zero (hc : (h.settle same shown).cursor ≠ 0) :
    (h.undo same shown).2 =
      (h.settle same shown).states[(h.settle same shown).cursor - 1]? := by
  unfold undo
  simp only [if_neg hc]

/-- From a state that differs from the latest record, one goes back through the two latest records,
whatever is shown in between. -/
theorem undo_undo {past : List σ} (hc : h.cursor = h.states.length)
    (hstates : h.states = past ++ [s, t]) (hne : same t shown = false) (between : σ) :
    (h.undo same shown).2 = some t ∧ ((h.undo same shown).1.undo same between).2 = some s := by
  have hends : endsWith same h.states shown = false := by
    rw [endsWith, hstates, List.getLast?_append]
    exact hne
  obtain ⟨hsettled, hcursor⟩ := settle_of_not_endsWith hc hends
  rw [hstates, List.append_assoc] at hsettled
  rw [hstates, List.length_append, List.length_cons, List.length_singleton] at hcursor
  have hstates' : (h.undo same shown).1.states = past ++ ([s, t] ++ [shown]) := by
    rw [states_undo, hsettled]
  have hcursor' : (h.undo same shown).1.cursor = past.length + 1 := by
    rw [cursor_undo, hcursor]
    omega
  have hagain : (h.undo same shown).1.settle same between = (h.undo same shown).1 :=
    settle_of_lt (by rw [hstates', hcursor', List.length_append]; simp)
  constructor
  · rw [undo_snd_of_ne_zero (by omega), hsettled, hcursor]
    simp
  · rw [undo_snd_of_ne_zero (by rw [hagain]; omega), hagain, hstates', hcursor']
    simp

end History

/-! ## Typing shows -/

namespace Editor

variable {e e' : Editor} {q : Path} {slot : Slot} {owner a : Atom} {atoms content : List Atom}
  {anchor focus offset : Int} {c : Char}

theorem SelectsIn.inText_takeSelection (h : e.SelectsIn q slot owner atoms anchor focus) :
    e.takeSelection.2.inText = e.inText := by
  obtain ⟨hstart, -, -, -⟩ := h.start_stop
  have hcaret : e.caret = q.child slot focus := congrArg Selection.focus h.selection_eq
  have hsame {e' : Editor} {content : List Atom} (hr : e'.root = q.fill slot content e.root)
      (hp : e'.caret = q.child slot (min anchor focus)) : e'.inText = e.inText := by
    rw [inText_of_root_eq_fill hr hp, inText_child hcaret]
  unfold Editor.takeSelection
  simp only [hstart]
  split
  · rfl
  split
  · exact hsame h.branch.fill_self.symm rfl
  · exact hsame (Path.putBranch_child h.branch _ _) rfl

/-- A leaf that is inserted goes to the gap of the caret, and the caret behind it. -/
theorem EditsAtCaret.insertAtoms_typedLeaf (h : e.EditsAtCaret q slot content offset)
    (ha : IsTypedLeaf a) :
    (e.insertAtoms [a] .placeholder).state.root =
        q.fill slot (withInserted content (q.child slot offset) [a]) e.root ∧
      (e.insertAtoms [a] .placeholder).state.selection =
        Selection.caret (q.child slot (beforeGap (q.child slot offset) content).length) := by
  obtain ⟨owner, hb⟩ := h.exists_branch
  have hroot : (e.putBranch (q.child slot offset)
      (withInserted content (q.child slot offset) [a])).root =
        q.fill slot (withInserted content (q.child slot offset) [a]) e.root :=
    Path.putBranch_child hb offset _
  have hbranch : (q.child slot offset).branch? (e.putBranch (q.child slot offset)
      (withInserted content (q.child slot offset) [a])).root =
        some (beforeGap (q.child slot offset) content ++ [a] ++
          afterGap (q.child slot offset) content) := by
    rw [hroot, (hb.fill _).branch?, withInserted_eq]
  have hindex : (insertionPoint (q.child slot offset) content).1 =
      (beforeGap (q.child slot offset) content).length := by
    rw [beforeGap, List.length_take, Nat.min_eq_left (insertionPoint_le h.isOffset q slot)]
  have hnone : (placeholdersAmong (itemPositions q slot
      (beforeGap (q.child slot offset) content).length [a])).head? = none := by
    rw [← findSome?_itemPositionsFrom q slot offset]
    exact findSome?_typedLeaves (by simpa using ha) _ _
  have hselected := selection_selectInserted offset hbranch (List.cons_ne_nil a []) .placeholder
  simp only [insertedSelection, hnone] at hselected
  have hinserted : (e.insertAtoms [a] .placeholder).state =
      (e.putBranch (q.child slot offset) (withInserted content (q.child slot offset) [a])).selectInserted
        (q.child slot offset) (beforeGap (q.child slot offset) content).length
        ((beforeGap (q.child slot offset) content).length + [a].length - 1) .placeholder := by
    unfold Editor.insertAtoms
    simp only [h.caret_eq, h.branch?, List.isEmpty_cons, Bool.false_eq_true, if_false,
      withInserted, hindex, Outcome.state_done]
  rw [hinserted]
  refine ⟨(onlySelects_selectInserted ..).root_eq.trans hroot, hselected.trans ?_⟩
  rw [List.length_singleton]
  congr 2
  omega

/-- A character that is typed in math changes what is shown: at least the caret moves on. Only where a
placeholder gives way to it the caret can stay, and then the formula is another one. -/
theorem Placed.same_insert_char (h : e.Placed) (htext : e.inText = false)
    (hc : StandsForItself c) :
    (Snapshot.ofEditor e).same (Snapshot.ofEditor
      (e.insert (String.singleton c) InsertOptions.standard).state) = false := by
  obtain ⟨_, _, _, _, _, _, hsel⟩ := h.exists_selectsIn
  obtain ⟨q, slot, content, offset, htaken, -⟩ := h.takeSelection
  obtain ⟨a, e₁, ha, hr, hs, -, hinsert⟩ :=
    insert_char_eq h.valid (hsel.inText_takeSelection.trans htext) hc
  obtain ⟨hroot, hselection⟩ := (htaken.of_eq hr hs).insertAtoms_typedLeaf ha
  rw [hinsert, ← Bool.not_eq_true]
  intro hsame
  obtain ⟨hbare, hkept, -⟩ := Snapshot.same_iff.1 hsame
  replace hkept : e.selection = _ := hkept.trans hselection
  replace hbare : e.root.bare = _ := hbare.trans (congrArg Atom.bare hroot)
  have hcollapsed : e.selection.isCollapsed = true := by
    rw [hkept, Selection.isCollapsed, Selection.caret, beq_self_eq_true]
  have hnothing : e.takeSelection = ([], e) := by
    simp only [Editor.takeSelection, hcollapsed, if_true]
  rw [hnothing] at htaken hr
  rw [hr] at hbare
  have hoffset : offset = (beforeGap (q.child slot offset) content).length :=
    (Path.child_injective (congrArg Selection.focus (htaken.selection_eq.symm.trans hkept))).2.2
  cases hlone : isPlaceholderOnly content with
  | false =>
      have hgap := (gap_of_not_isPlaceholderOnly q slot hlone htaken.isOffset).2
      omega
  | true =>
      obtain ⟨owner, hb⟩ := htaken.exists_branch
      obtain ⟨hbefore, hafter⟩ := gap_of_isPlaceholderOnly (q.child slot offset) hlone
      have hall : content.map Atom.bare =
          (withInserted content (q.child slot offset) [a]).map Atom.bare := by
        rw [← Path.bare_fill_iff hb, hb.fill_self]
        exact hbare
      rw [withInserted_eq, hbefore, hafter] at hall
      obtain ⟨b, rfl, hp, -⟩ := isPlaceholderOnly_iff.1 hlone
      have hab : b.bare = a.bare := by simpa using hall
      have hplaceholder := congrArg Atom.isPlaceholder hab
      rw [Atom.isPlaceholder_bare, Atom.isPlaceholder_bare, ha.isPlaceholder, hp] at hplaceholder
      cases hplaceholder

end Editor

/-! ## What no step changes -/

theorem History.limit_undo {σ : Type} (same : σ → σ → Bool) (h : History σ) (shown : σ) :
    (h.undo same shown).1.limit = h.limit := by
  have hsettled : (h.settle same shown).limit = h.limit := by
    unfold settle
    split <;> rfl
  unfold undo
  simp only
  split <;> exact hsettled

theorem History.limit_redo {σ : Type} (h : History σ) : h.redo.1.limit = h.limit := by
  unfold redo
  split <;> rfl

theorem Outcome.eq_done {σ : Type} {o : Outcome σ Unit} (h : o.answer = .ok ()) :
    o = .done o.state :=
  congrArg (Outcome.mk o.state) h

namespace Field

open Editor (StandsForItself)

variable {f g k : Field} {c : Char}

/-- The shortcuts are the same, and as many states are kept. -/
structure SameSettings (f g : Field) : Prop where
  shortcuts : g.shortcuts = f.shortcuts
  limit : g.history.limit = f.history.limit

theorem SameSettings.refl (f : Field) : SameSettings f f :=
  ⟨rfl, rfl⟩

theorem SameSettings.trans (h : SameSettings f g) (h' : SameSettings g k) : SameSettings f k :=
  ⟨h'.shortcuts.trans h.shortcuts, h'.limit.trans h.limit⟩

theorem limit_run (f : Field) (command : Command) :
    (f.run command).state.history.limit = f.history.limit := by
  cases hc : command.isMutation with
  | true =>
      rw [history_run hc]
      rfl
  | false =>
      cases command with
      | undo =>
          show f.undo.state.history.limit = f.history.limit
          unfold Field.undo
          split <;> rename_i hundo <;>
            exact (congrArg (fun x => x.1.limit) hundo).symm.trans (History.limit_undo ..)
      | redo =>
          show f.redo.state.history.limit = f.history.limit
          unfold Field.redo
          split <;> rename_i hredo <;>
            exact (congrArg (fun x => x.1.limit) hredo).symm.trans (History.limit_redo _)
      | delete | insert | promoteToSuperscript | promoteToSubscript | moveToSuperscript
      | moveToSubscript | enterCommandMode | completeCommand => cases hc
      | _ => rfl

theorem SameSettings.run (h : SameSettings f g) (command : Command) :
    SameSettings f (g.run command).state :=
  h.trans ⟨(sameTyping_run g command).shortcuts, limit_run g command⟩

/-- No step changes the shortcuts or how many states are kept. -/
theorem invariant_sameSettings (f : Field) : Invariant (SameSettings f) where
  typing h _ := ⟨h.shortcuts, h.limit⟩
  record h := ⟨h.shortcuts, h.limit⟩
  undo h := h.run .undo
  redo h := h.run .redo
  applyTo h _ := ⟨h.shortcuts, h.limit⟩
  insertCommandChar h _ := ⟨h.shortcuts, h.limit⟩
  updateSuggestion {g} h := h.trans
    ⟨(sameTyping_updateSuggestion g).shortcuts, congrArg History.limit (history_updateSuggestion g)⟩
  setLatex h _ := ⟨h.shortcuts, h.limit⟩

/-- The shortcuts of a reachable field can be typed, and its history keeps as many states as that of a
new one. -/
theorem Reachable.settings (h : f.Reachable) :
    f.shortcuts.CanBeTyped ∧ f.history.limit = History.defaultLimit := by
  induction h with
  | new h =>
      refine ⟨(inPlace_new h).canBeTyped, ?_⟩
      obtain ⟨-, rfl⟩ := new_eq_ok_iff.1 h
      rfl
  | @after g _ step ih =>
      have hsame := (invariant_sameSettings g).after (SameSettings.refl g) step
      exact ⟨hsame.shortcuts.symm ▸ ih.1, hsame.limit.trans ih.2⟩
  | layout _ style ih => exact ih
  | setBoundary _ boundary ih => exact ih

/-! ## Taking a shortcut back -/

/-- The field after a character was inserted, and before shortcuts are looked for. -/
def spelledOut (f : Field) (c : Char) : Field :=
  (f.run (.insert (String.singleton c) InsertOptions.standard)).state

/-- In a placed field nothing is refused of what a shortcut does. -/
theorem Placed.applyShortcut_eq (h : f.Placed) {s : Shortcut}
    (hs : f.shortcuts.matchEnd? f.typed = some s) :
    ∃ e, f.applyShortcut = .done (f.record.withEditor e).endTyping := by
  have hdeleted : f.record.editor.delete .backward s.length =
      .done (f.record.editor.delete .backward s.length).state :=
    Outcome.eq_done (Editor.answer_whenValid_done h.record.editor.valid _)
  have hvalid := (h.record.editor.delete .backward s.length).valid
  exact ⟨_, Field.applyShortcut_eq hs hdeleted (Outcome.eq_done (Editor.answer_insert hvalid _ _))⟩

/-- A character that completes a shortcut is inserted, and then the field is recorded once more. -/
theorem Reachable.typeChar_fires (h : f.Reachable) (hmode : f.editor.mode = .math)
    (htext : f.editor.inText = false) {s : Shortcut}
    (hs : f.shortcuts.matchEnd? (f.typed ++ [c]) = some s) :
    StandsForItself c ∧ ∃ e, f.typeChar c = .done ((f.spelledOut c).record.withEditor e).endTyping := by
  obtain ⟨⟨hne, hchars⟩, hsuffix⟩ := h.settings.1.of_matchEnd? hs
  have hc : StandsForItself c :=
    standsForItself_of_isNeverTyped (hchars c (mem_of_suffix_concat hsuffix hne))
  have hinserted : f.run (.insert (String.singleton c) InsertOptions.standard) =
      .done (f.spelledOut c) :=
    Outcome.eq_done (Editor.answer_insert h.placed.record.editor.valid _ _)
  have hsame := sameTyping_run f (.insert (String.singleton c) InsertOptions.standard)
  have hplaced : Placed { f.spelledOut c with typed := (f.spelledOut c).typed ++ [c] } :=
    have hrun := invariant_placed.run h.placed (.insert (String.singleton c) InsertOptions.standard)
    ⟨hrun.editor, hrun.history⟩
  have hmatch : (f.spelledOut c).shortcuts.matchEnd? ((f.spelledOut c).typed ++ [c]) = some s := by
    rw [spelledOut, hsame.shortcuts, hsame.typed, hs]
  obtain ⟨e, happlied⟩ := hplaced.applyShortcut_eq hmatch
  exact ⟨hc, e, (typeChar_eq hmode htext hc hinserted).trans happlied⟩

/-- In a placed field with two latest records that differ from what comes behind them, undoing twice
shows the one and then the other. -/
theorem Placed.undo_undo (h : f.Placed) {past : List Snapshot} {s t : Snapshot}
    (hc : f.history.cursor = f.history.states.length) (hstates : f.history.states = past ++ [s, t])
    (hne : t.same (Snapshot.ofEditor f.editor) = false) :
    let back := (f.perform .undo).state
    (f.perform .undo).answer = .ok () ∧ Snapshot.ofEditor back.editor = t ∧
      (back.perform .undo).answer = .ok () ∧
      Snapshot.ofEditor (back.perform .undo).state.editor = s := by
  intro back
  obtain ⟨hfirst, hsecond⟩ :=
    History.undo_undo hc hstates hne (Snapshot.ofEditor back.editor)
  obtain ⟨hok, hhistory, e, he⟩ := undo_of_eq_some (f := f.endTyping) hfirst
  have hnext : back.endTyping.undone.2 = some s := by
    rw [← hsecond]
    exact congrArg (fun history => (history.undo Snapshot.same (Snapshot.ofEditor back.editor)).2)
      hhistory
  obtain ⟨hok', -, e', he'⟩ := undo_of_eq_some hnext
  have hmem (r : Snapshot) (hr : r ∈ [s, t]) : r.Placed :=
    h.history r (hstates ▸ List.mem_append_right past hr)
  exact ⟨hok, (congrArg Snapshot.ofEditor he).trans ((hmem t (by simp)).restore e).2, hok',
    (congrArg Snapshot.ofEditor he').trans ((hmem s (by simp)).restore e').2⟩

/-- Whatever was done to a field before: if a character that is typed completes a shortcut, and the
shortcut changes what is shown once the character was inserted, then undoing shows exactly what was
shown with the trigger spelled out, and undoing again shows what was there before the character. -/
theorem Reachable.typeChar_then_undo (h : f.Reachable) (hmode : f.editor.mode = .math)
    (htext : f.editor.inText = false) {s : Shortcut}
    (hs : f.shortcuts.matchEnd? (f.typed ++ [c]) = some s)
    (hchanged : (Snapshot.ofEditor (f.spelledOut c).editor).same
      (Snapshot.ofEditor (f.typeChar c).state.editor) = false) :
    let back := ((f.typeChar c).state.perform .undo).state
    (f.typeChar c).answer = .ok () ∧
      ((f.typeChar c).state.perform .undo).answer = .ok () ∧
      Snapshot.ofEditor back.editor = Snapshot.ofEditor (f.spelledOut c).editor ∧
      (back.perform .undo).answer = .ok () ∧
      (Snapshot.ofEditor (back.perform .undo).state.editor).same (Snapshot.ofEditor f.editor) =
        true := by
  obtain ⟨hc, e, htyped⟩ := h.typeChar_fires hmode htext hs
  have hplaced := invariant_placed.typeChar h.placed c
  -- The character is recorded first, and differs from the record.
  obtain ⟨before, hlast, hbefore⟩ :=
    History.getLast?_record Snapshot.same_refl f.history (Snapshot.ofEditor f.editor)
  have hhistory : (f.spelledOut c).history =
      (f.history.record Snapshot.same (Snapshot.ofEditor f.editor)).1 := history_run rfl f
  have hinserted : (f.spelledOut c).editor =
      (f.record.editor.insert (String.singleton c) InsertOptions.standard).state := rfl
  have hshows := h.placed.record.editor.same_insert_char htext hc
  rw [ofEditor_record, ← hinserted] at hshows
  have hspelled := Snapshot.same_eq_false_of_same hbefore hshows
  have hlimit : 1 < (f.spelledOut c).history.limit := by
    rw [spelledOut, limit_run, h.settings.2]
    decide
  have hend : (f.spelledOut c).history.cursor = (f.spelledOut c).history.states.length := by
    rw [hhistory]
    rfl
  rw [← hhistory] at hlast
  obtain ⟨past, hstates⟩ := History.exists_record hlimit hend hlast hspelled
  have hrecorded : (f.typeChar c).state.history = ((f.spelledOut c).history.record Snapshot.same
      (Snapshot.ofEditor (f.spelledOut c).editor)).1 := by
    rw [htyped]
    rfl
  rw [← hrecorded] at hstates
  have hend' : (f.typeChar c).state.history.cursor = (f.typeChar c).state.history.states.length := by
    rw [hrecorded]
    rfl
  obtain ⟨hundo, hback, hundo', hback'⟩ := hplaced.undo_undo hend' hstates hchanged
  rw [← hback'] at hbefore
  exact ⟨congrArg Outcome.answer htyped, hundo, hback, hundo', hbefore⟩

/-- Types `x2` and goes back to the `x`. -/
def beforeStarSteps : List Step :=
  [.typeChar 'x', .typeChar '2', .perform .undo]

/-- With the `2` still to be redone, a `*` is typed that stands for `\times`. -/
theorem Reachable.typeChar_then_undo_star :
    ∃ f g, Field.new ⟨[⟨"*", "\\times"⟩], false⟩ = .ok f ∧ f.afterAll beforeStarSteps = g ∧
      g.history.canRedo = true ∧ g.latex = "x" ∧ (g.typeChar '*').state.latex = "x\\times" ∧
      (g.spelledOut '*').latex = "x*" ∧
      let back := ((g.typeChar '*').state.perform .undo).state
      Snapshot.ofEditor back.editor = Snapshot.ofEditor (g.spelledOut '*').editor ∧
        (Snapshot.ofEditor (back.perform .undo).state.editor).same (Snapshot.ofEditor g.editor) =
          true := by
  have hnew : Field.new ⟨[⟨"*", "\\times"⟩], false⟩ = .ok ⟨Editor.empty,
      History.empty History.defaultLimit, ⟨[⟨"*", "\\times"⟩], false⟩, []⟩ := by
    have hnone : firstShortcutError? 0 [⟨"*", "\\times"⟩] = none := by decide +kernel
    rw [Field.new, hnone]
  have hreachable := (Reachable.new hnew).afterAll beforeStarSteps
  obtain ⟨-, -, hback, -, hback'⟩ := Reachable.typeChar_then_undo (c := '*')
    (s := ⟨"*", "\\times"⟩) hreachable (by decide +kernel) (by decide +kernel) (by decide +kernel)
    (by decide +kernel)
  exact ⟨_, _, hnew, rfl, by decide +kernel, by decide +kernel, by decide +kernel, by decide +kernel,
    hback, hback'⟩

end Field

end FormulaEditor

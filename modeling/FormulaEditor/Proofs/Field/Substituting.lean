import FormulaEditor.Proofs.Editor.Erasing
import FormulaEditor.Proofs.Field.Sound

/-!
# Shortcuts take the place of what was typed

The characters that are looked at for shortcuts are, behind the last blank one, leaves right before
the caret, one for each character. So a shortcut that is complete takes back as many leaves as its
trigger has characters, and what it stands for is put in their place.
-/

namespace FormulaEditor

/-! ## Counting at the end -/

theorem countAtEnd_concat {α : Type} (p : α → Bool) (xs : List α) (x : α) :
    countAtEnd p (xs ++ [x]) = if p x then countAtEnd p xs + 1 else 0 := by
  unfold countAtEnd
  rw [List.reverse_append, List.reverse_singleton, List.singleton_append]
  cases hp : p x <;> simp [hp]

theorem length_le_countAtEnd {α : Type} {p : α → Bool} {xs ys : List α} (hs : ys <:+ xs)
    (hy : ∀ y ∈ ys, p y = true) : ys.length ≤ countAtEnd p xs := by
  obtain ⟨rest, rfl⟩ := hs
  unfold countAtEnd
  rw [List.reverse_append, List.takeWhile_append_of_pos (by simpa using hy), List.length_append,
    List.length_reverse]
  exact Nat.le_add_right _ _

/-! ## Shortcuts that can be typed -/

namespace Shortcut

theorem longer_eq_some {best : Option Shortcut} {s t : Shortcut} (h : longer best s = some t) :
    t = s ∨ best = some t := by
  unfold longer at h
  split at h
  · split at h
    · exact Or.inr h
    · exact Or.inl (Option.some.inj h).symm
  · exact Or.inl (Option.some.inj h).symm

theorem mem_of_foldl_longer {shortcuts : List Shortcut} {best : Option Shortcut} {t : Shortcut}
    (h : shortcuts.foldl longer best = some t) : t ∈ shortcuts ∨ best = some t := by
  induction shortcuts generalizing best with
  | nil => exact Or.inr h
  | cons s rest ih =>
      rcases ih h with hrest | hbest
      · exact Or.inl (List.mem_cons_of_mem s hrest)
      · rcases longer_eq_some hbest with rfl | hbest
        · exact Or.inl List.mem_cons_self
        · exact Or.inr hbest

theorem mem_of_longest? {typed : List Char} {shortcuts : List Shortcut} {t : Shortcut}
    (h : longest? typed shortcuts = some t) : t ∈ shortcuts ∧ t.fits typed = true := by
  rcases mem_of_foldl_longer h with hmem | hnone
  · exact List.mem_filter.1 hmem
  · cases hnone

/-- Whether the trigger can be typed as symbols. -/
def CanBeTyped (s : Shortcut) : Prop :=
  s.trigger.toList ≠ [] ∧ ∀ c ∈ s.trigger.toList, isNeverTyped c = false

theorem canBeTyped_of_problem? {s : Shortcut} (h : s.problem? = none) : s.CanBeTyped := by
  unfold problem? at h
  split at h
  · cases h
  · rename_i hok
    simpa [CanBeTyped] using hok

theorem canBeTyped_builtIn : ∀ s ∈ builtIn, s.CanBeTyped := by
  have hall : ∀ s ∈ builtIn,
      (s.trigger.toList.isEmpty || s.trigger.toList.any isNeverTyped) = false := by decide +kernel
  intro s hs
  simpa [CanBeTyped] using hall s hs

end Shortcut

theorem problem?_of_firstShortcutError? {i : Nat} {shortcuts : List Shortcut}
    (h : firstShortcutError? i shortcuts = none) : ∀ s ∈ shortcuts, s.problem? = none := by
  induction shortcuts generalizing i with
  | nil => simp
  | cons s rest ih =>
      unfold firstShortcutError? at h
      split at h
      · cases h
      · rename_i hs
        exact List.forall_mem_cons.2 ⟨hs, ih h⟩

theorem standsForItself_of_isNeverTyped {c : Char} (h : isNeverTyped c = false) :
    Editor.StandsForItself c := by
  simp only [isNeverTyped, Bool.or_eq_false_iff, beq_eq_false_iff_ne] at h
  obtain ⟨⟨⟨hblank, h1⟩, h2⟩, h3⟩ := h
  exact ⟨hblank, by simp [h1, h2, h3]⟩

/-- Whether every trigger in effect can be typed. -/
def ShortcutTable.CanBeTyped (table : ShortcutTable) : Prop :=
  ∀ s ∈ table.configured, s.CanBeTyped

/-- What is complete is a shortcut of the table whose trigger the text ends with. -/
theorem ShortcutTable.mem_of_matchEnd? {table : ShortcutTable} {typed : List Char} {s : Shortcut}
    (h : table.matchEnd? typed = some s) :
    (s ∈ table.configured ∨ s ∈ Shortcut.builtIn) ∧ s.trigger.toList <:+ typed := by
  have hfound {shortcuts : List Shortcut} (hlongest : Shortcut.longest? typed shortcuts = some s) :
      s ∈ shortcuts ∧ s.trigger.toList <:+ typed := by
    obtain ⟨hmem, hfits⟩ := Shortcut.mem_of_longest? hlongest
    simp only [Shortcut.fits, Bool.and_eq_true, List.isSuffixOf_iff_suffix] at hfits
    exact ⟨hmem, hfits.2⟩
  unfold ShortcutTable.matchEnd? at h
  split at h
  · rename_i t ht
    cases h
    exact ⟨.inl (hfound ht).1, (hfound ht).2⟩
  · split at h
    · cases h
    · exact ⟨.inr (hfound h).1, (hfound h).2⟩

theorem ShortcutTable.CanBeTyped.of_matchEnd? {table : ShortcutTable} (h : table.CanBeTyped)
    {typed : List Char} {s : Shortcut} (hs : table.matchEnd? typed = some s) :
    s.CanBeTyped ∧ s.trigger.toList <:+ typed := by
  obtain ⟨hmem, hsuffix⟩ := mem_of_matchEnd? hs
  exact ⟨hmem.elim (h s) (Shortcut.canBeTyped_builtIn s), hsuffix⟩

namespace Field

open Editor (Typed StandsForItself)

variable {f g : Field} {c : Char}

/-! ## What a step leaves of what was typed -/

/-- Shortcuts and the characters typed in a row are the same. -/
structure SameTyping (f g : Field) : Prop where
  typed : g.typed = f.typed
  shortcuts : g.shortcuts = f.shortcuts

theorem SameTyping.trans {k : Field} (h : SameTyping f g) (h' : SameTyping g k) : SameTyping f k :=
  ⟨h'.typed.trans h.typed, h'.shortcuts.trans h.shortcuts⟩

theorem sameTyping_undo (f : Field) : SameTyping f f.undo.state := by
  unfold Field.undo
  split <;> exact ⟨rfl, rfl⟩

theorem sameTyping_redo (f : Field) : SameTyping f f.redo.state := by
  unfold Field.redo
  split <;> exact ⟨rfl, rfl⟩

theorem sameTyping_updateSuggestion (f : Field) : SameTyping f f.updateSuggestion := by
  unfold Field.updateSuggestion
  simp only
  split
  · exact ⟨rfl, rfl⟩
  · split <;> exact ⟨rfl, rfl⟩

/-- Carrying out a command leaves shortcuts and typed characters alone. -/
theorem sameTyping_run (f : Field) (c : Command) : SameTyping f (f.run c).state := by
  cases c with
  | undo => exact sameTyping_undo f
  | redo => exact sameTyping_redo f
  | delete d n =>
      show SameTyping f ((f.record.edit fun e => e.delete d n).andThen _).state
      unfold Outcome.andThen
      split
      · show SameTyping f (if _ then _ else _)
        split
        · exact SameTyping.trans (g := (f.record.edit fun e => e.delete d n).state) ⟨rfl, rfl⟩
            (sameTyping_updateSuggestion _)
        · exact ⟨rfl, rfl⟩
      · exact ⟨rfl, rfl⟩
  | _ => exact ⟨rfl, rfl⟩

/-! ## Typed characters in place -/

/-- How many characters were typed in a row behind the last blank one. -/
def typedInRow (f : Field) : Nat :=
  countAtEnd (fun c => !Text.isBlank c) f.typed

/-- Triggers can be typed, and the characters typed in a row are leaves before the caret, one for
each character behind the last blank one. -/
structure InPlace (f : Field) : Prop where
  canBeTyped : f.shortcuts.CanBeTyped
  typed : f.typedInRow = 0 ∨ f.editor.mode = .math ∧ ∃ q slot owner before chars after,
    f.editor.Typed q slot owner before chars after ∧ chars.length = f.typedInRow

/-- Where nothing was typed in a row there is nothing to be in place. -/
theorem InPlace.of_typed_eq_nil (h : f.InPlace) (hs : g.shortcuts = f.shortcuts)
    (ht : g.typed = []) : g.InPlace :=
  ⟨hs ▸ h.canBeTyped, Or.inl (by rw [typedInRow, ht]; rfl)⟩

theorem InPlace.perform (h : f.InPlace) (c : Command) : (f.perform c).state.InPlace :=
  have hsame := sameTyping_run f.endTyping c
  h.of_typed_eq_nil hsame.shortcuts hsame.typed

/-- A character that stands for itself joins those that were typed before it. -/
theorem InPlace.run_insert (h : f.InPlace) (hs : f.Sound) (hmode : f.editor.mode = .math)
    (htext : f.editor.inText = false) (hc : StandsForItself c) :
    ∃ g q slot owner before chars after,
      f.run (.insert (String.singleton c) InsertOptions.standard) = .done g ∧
      g.editor.Typed q slot owner before chars after ∧ chars.length = f.typedInRow + 1 ∧
      g.editor.inText = false ∧ g.editor.mode = .math := by
  have hdone (e : Editor) (he : f.record.editor.insert (String.singleton c) InsertOptions.standard =
      .done e) : f.run (.insert (String.singleton c) InsertOptions.standard) =
        .done (f.record.withEditor e) := by
    show (f.record.editor.insert _ _).lift _ = _
    rw [he]
    rfl
  rcases h.typed with hzero | ⟨-, q, slot, owner, before, chars, after, htyped, hlength⟩
  · obtain ⟨e, q, slot, owner, before, a, after, hinserted, htyped, hin, hmath⟩ :=
      hs.record.editor.typed_insert (c := c) htext hc
    exact ⟨_, q, slot, owner, before, [a], after, hdone e hinserted, htyped, by rw [hzero]; rfl, hin,
      hmath.trans hmode⟩
  · by_cases hnil : chars = []
    · obtain ⟨e, q, slot, owner, before, a, after, hinserted, htyped, hin, hmath⟩ :=
        hs.record.editor.typed_insert (c := c) htext hc
      exact ⟨_, q, slot, owner, before, [a], after, hdone e hinserted, htyped,
        by rw [← hlength, hnil]; rfl, hin, hmath.trans hmode⟩
    · have hrecorded : f.record.editor.Typed q slot owner before chars after := htyped.of_eq rfl rfl
      obtain ⟨e, owner', a, hinserted, htyped', hin, hmath⟩ :=
        hrecorded.typed_insert hnil hs.record.editor (c := c) htext hc
      exact ⟨_, q, slot, owner', before, chars ++ [a], after, hdone e hinserted, htyped',
        by rw [List.length_append, hlength]; rfl, hin, hmath.trans hmode⟩

/-- A shortcut that is complete is carried out in three steps. -/
theorem applyShortcut_eq {s : Shortcut}
    (hs : f.shortcuts.matchEnd? f.typed = some s) {e₁ e₂ : Editor}
    (hd : f.record.editor.delete .backward s.length = .done e₁)
    (hi : e₁.insert s.substitute (InsertOptions.latex .placeholder) = .done e₂) :
    f.applyShortcut = .done (f.record.withEditor e₂).endTyping := by
  have hdeleted : (f.record.edit fun e => e.delete .backward s.length) =
      .done (f.record.withEditor e₁) := by
    show (f.record.editor.delete _ _).lift _ = _
    rw [hd]
    rfl
  have hinserted : ((f.record.withEditor e₁).edit fun e =>
      e.insert s.substitute (InsertOptions.latex .placeholder)) = .done (f.record.withEditor e₂) := by
    show (e₁.insert _ _).lift _ = _
    rw [hi]
    rfl
  unfold Field.applyShortcut
  rw [hs]
  simp only [hdeleted, Outcome.done_andThen, hinserted]

theorem InPlace.applyShortcut (h : f.InPlace) (hs : f.Sound) : f.applyShortcut.state.InPlace := by
  cases hm : f.shortcuts.matchEnd? f.typed with
  | none =>
      unfold Field.applyShortcut
      rw [hm]
      exact h
  | some s =>
      obtain ⟨hok₁, hsound⟩ := hs.record.editor.delete .backward s.length
      obtain ⟨hok₂, -⟩ := hsound.insert s.substitute (InsertOptions.latex .placeholder)
      rw [applyShortcut_eq hm (congrArg (Outcome.mk _) hok₁) (congrArg (Outcome.mk _) hok₂)]
      exact h.of_typed_eq_nil rfl rfl

/-- The next character typed in a row. -/
theorem InPlace.insertTyped (h : f.InPlace) (hs : f.Sound) (hmode : f.editor.mode = .math)
    (hc : ¬(c = '\\' ∨ c = '^' ∨ c = '_')) : (f.insertTyped c).state.InPlace := by
  have hdone : f.run (.insert (String.singleton c) InsertOptions.standard) =
      .done (f.run (.insert (String.singleton c) InsertOptions.standard)).state :=
    congrArg (Outcome.mk _) (hs.record.editor.insert (String.singleton c) InsertOptions.standard).1
  have hinserted := hs.run (.insert (String.singleton c) InsertOptions.standard)
  have hsound := hinserted.sound (hinserted.isWellFormed_iff.2 rfl)
  have hsame := sameTyping_run f (.insert (String.singleton c) InsertOptions.standard)
  unfold Field.insertTyped
  simp only
  rw [hdone, Outcome.done_andThen]
  cases htext : f.editor.inText with
  | true => exact h.of_typed_eq_nil hsame.shortcuts rfl
  | false =>
      simp only [Bool.false_eq_true, if_false]
      refine InPlace.applyShortcut ⟨hsame.shortcuts ▸ h.canBeTyped, ?_⟩ ⟨hsound.editor, hsound.history⟩
      have hcount : countAtEnd (fun d => !Text.isBlank d)
          ((f.run (.insert (String.singleton c) InsertOptions.standard)).state.typed ++ [c]) =
            if Text.isBlank c then 0 else f.typedInRow + 1 := by
        rw [countAtEnd_concat, hsame.typed]
        cases Text.isBlank c <;> rfl
      simp only [typedInRow, hcount]
      cases hblank : Text.isBlank c with
      | true => exact Or.inl rfl
      | false =>
          obtain ⟨g, q, slot, owner, before, chars, after, hg, htyped, hlength, -, hmath⟩ :=
            h.run_insert hs hmode htext ⟨hblank, hc⟩
          rw [hg]
          exact Or.inr ⟨hmath, q, slot, owner, before, chars, after, htyped, hlength⟩

theorem InPlace.typeMathChar (h : f.InPlace) (hs : f.Sound) (hmode : f.editor.mode = .math) (c : Char) :
    (f.typeMathChar c).state.InPlace := by
  unfold Field.typeMathChar
  split
  · exact h.perform _
  split
  · exact h.perform _
  split
  · exact h.perform _
  split
  · exact h.of_typed_eq_nil rfl rfl
  · exact h.insertTyped hs hmode (by simp [*])

/-- A character that ends a command leaves nothing typed in a row, and is typed in math then. -/
theorem InPlace.typeCommandChar (h : f.InPlace) (hs : f.Sound) (hmode : f.editor.mode = .command)
    (c : Char) : (f.typeCommandChar c).state.InPlace := by
  have hzero : f.typedInRow = 0 := h.typed.resolve_right fun hmath => by
    rw [hmode] at hmath
    cases hmath.1
  have hcarried := hs.editor.insertCommandChar c
  unfold Field.typeCommandChar
  split
  · rw [edit_andThen hcarried, Outcome.state_done]
    have hsame := sameTyping_updateSuggestion (f.withEditor (f.editor.insertCommandChar c).state)
    exact ⟨hsame.shortcuts ▸ h.canBeTyped, Or.inl (by rw [typedInRow, hsame.typed]; exact hzero)⟩
  · split
    · rw [edit_andThen hcarried]
      exact InPlace.perform (f := f.withEditor (f.editor.insertCommandChar c).state)
        ⟨h.canBeTyped, Or.inl hzero⟩ _
    · have hcompleted := hs.endTyping.record.editor.completeCommand
      have hmath := hs.endTyping.record.editor.mode_completeCommand
      have hsound := hs.endTyping.record.withEditor hcompleted.2
      have hplace : (f.endTyping.record.withEditor
          (f.endTyping.record.editor.completeCommand).state).InPlace := h.of_typed_eq_nil rfl rfl
      show ((f.endTyping.record.edit fun e => e.completeCommand).andThen _).state.InPlace
      rw [edit_andThen hcompleted]
      exact hplace.typeMathChar hsound hmath c

/-- Every step keeps typed characters in place. -/
theorem InPlace.after (h : f.InPlace) (hs : f.Sound) (step : Step) : (f.after step).InPlace := by
  cases step with
  | perform c => exact h.perform c
  | typeChar c =>
      show (f.typeChar c).state.InPlace
      unfold Field.typeChar
      split
      · rename_i hmode
        exact h.typeMathChar hs hmode c
      · rename_i hmode
        exact h.typeCommandChar hs hmode c
  | keystroke key =>
      show (f.keystroke key).state.InPlace
      unfold Field.keystroke
      split
      · exact h
      · rw [state_andThen_answer]
        exact h.perform _
  | setLatex source => exact h.of_typed_eq_nil rfl rfl

/-- Typed characters stay in place along a run whose steps empty no branch that needs content. -/
theorem InPlace.afterAll (h : f.InPlace) (hs : f.Sound) {steps : List Step}
    (hrun : ∀ n (hn : n < steps.length),
      (f.afterAll (steps.take n)).emptiedByStep steps[n] = false) : (f.afterAll steps).InPlace := by
  induction steps generalizing f with
  | nil => exact h
  | cons step rest ih =>
      have hstep := hs.after step
      have hsound := hstep.sound (hstep.isWellFormed_iff.2 (hrun 0 (Nat.zero_lt_succ _)))
      exact ih (h.after hs step) hsound fun n hn => hrun (n + 1) (Nat.succ_lt_succ hn)

theorem inPlace_new {shortcuts : ShortcutTable} (h : Field.new shortcuts = .ok f) : f.InPlace := by
  obtain ⟨hnone, rfl⟩ := new_eq_ok_iff.1 h
  exact ⟨fun s hs => Shortcut.canBeTyped_of_problem? (problem?_of_firstShortcutError? hnone s hs),
    Or.inl rfl⟩

/-! ## Substitution -/

/-- Outside of text a fragment stands at the caret for what it stands for as a formula. -/
theorem map_bare_reading_eq {e : Editor} (h : e.inText = false) (fragment : String) (n : Nat) :
    (e.reading fragment).map Atom.bare = (Latex.parseFormula fragment n).1.atoms.map Atom.bare := by
  unfold Editor.reading
  rw [h]
  exact (Latex.bares_parseFragment Latex.sameArguments_nil fragment .math e.supply n).1

/-- The character that completes a shortcut is the last one of its trigger. -/
theorem mem_of_suffix_concat {trigger typed : List Char} (h : trigger <:+ typed ++ [c])
    (hne : trigger ≠ []) : c ∈ trigger := by
  obtain ⟨rest, hrest⟩ := h
  obtain ⟨init, last, hlast⟩ := (List.eq_nil_or_concat trigger).resolve_left hne
  rw [List.concat_eq_append] at hlast
  subst hlast
  have heq : last = c := by simpa using congrArg List.getLast? hrest
  simp [heq]

/-- What is typed is the inserted character with the shortcut applied to it. -/
theorem typeChar_eq (hmode : f.editor.mode = .math) (htext : f.editor.inText = false)
    (hc : StandsForItself c)
    (hg : f.run (.insert (String.singleton c) InsertOptions.standard) = .done g) :
    f.typeChar c = { g with typed := g.typed ++ [c] }.applyShortcut := by
  have hspace : c ≠ ' ' := by
    rintro rfl
    exact absurd hc.not_blank (by decide)
  obtain ⟨hbackslash, hsup, hsub⟩ : c ≠ '\\' ∧ c ≠ '^' ∧ c ≠ '_' := by
    simpa using hc.not_special
  unfold Field.typeChar Field.typeMathChar Field.insertTyped
  simp only [hmode, hbackslash, hsup, hsub, hspace, if_false, decide_false, Bool.false_and,
    Bool.false_eq_true, hg, Outcome.done_andThen, htext]

/-- A shortcut that is complete with a character replaces the leaves of its trigger in their branch,
unless nothing else is in the branch and the branch does not stay as it is without content. -/
theorem InPlace.typeChar_iff (h : f.InPlace) (hs : f.Sound) (hmode : f.editor.mode = .math)
    (htext : f.editor.inText = false) {s : Shortcut}
    (hmatch : f.shortcuts.matchEnd? (f.typed ++ [c]) = some s)
    (hargs : takesImplicitArgument s.substitute.toList = false) :
    ∃ typed substituted q slot owner before replaced after,
      f.run (.insert (String.singleton c) InsertOptions.standard) = .done typed ∧
      f.typeChar c = .done substituted ∧
      IsBranch typed.editor.root q slot owner (before ++ replaced ++ after) ∧
      typed.editor.selection =
        Selection.caret (q.child slot (((before ++ replaced).length : Int) - 1)) ∧
      replaced.length = s.length ∧
      (substituted.editor.root.bare = (q.fill slot
          (before ++ (Latex.parseFormula s.substitute 0).1.atoms ++ after) typed.editor.root).bare ↔
        (before ++ after = [] → slot.isOptional = false ∧
          ((Latex.parseFormula s.substitute 0).1.atoms = [] →
            owner.requiresContent slot = false))) := by
  obtain ⟨⟨hne, hchars⟩, hsuffix⟩ := h.canBeTyped.of_matchEnd? hmatch
  have hc : StandsForItself c :=
    standsForItself_of_isNeverTyped (hchars c (mem_of_suffix_concat hsuffix hne))
  obtain ⟨g, q, slot, owner, before, chars, after, hg, htyped, hlength, hin, hmath⟩ :=
    h.run_insert hs hmode htext hc
  have hsame := sameTyping_run f (.insert (String.singleton c) InsertOptions.standard)
  have hinserted := hs.run (.insert (String.singleton c) InsertOptions.standard)
  have hsound := hinserted.sound (hinserted.isWellFormed_iff.2 rfl)
  rw [hg, Outcome.state_done] at hsame hsound
  -- The trigger is no longer than the run of typed leaves, so its leaves are the last of these.
  have hle : s.length ≤ chars.length := by
    have hcount := length_le_countAtEnd hsuffix (p := fun d => !Text.isBlank d) fun d hd => by
      simp [(standsForItself_of_isNeverTyped (hchars d hd)).not_blank]
    rw [countAtEnd_concat, hc.not_blank, String.length_toList] at hcount
    rw [hlength]
    exact hcount
  have hpos : 0 < s.length := by
    rw [Shortcut.length, ← String.length_toList]
    exact List.length_pos_iff.2 hne
  obtain ⟨kept, gone, rfl, hgone⟩ : ∃ kept gone, chars = kept ++ gone ∧ gone.length = s.length :=
    ⟨chars.take (chars.length - s.length), chars.drop (chars.length - s.length),
      (List.take_append_drop ..).symm, by rw [List.length_drop]; omega⟩
  let looked : Field := { g with typed := g.typed ++ [c] }
  have hrecorded : looked.record.editor.Typed q slot owner before (kept ++ gone) after :=
    htyped.of_eq rfl rfl
  obtain ⟨e₁, e₂, hdeleted, hsubstituted, hiff⟩ := hrecorded.delete_insert_iff
    (List.ne_nil_of_length_pos (hgone ▸ hpos)) hsound.record.editor hmath hargs .placeholder
  have hmatched : looked.shortcuts.matchEnd? looked.typed = some s := by
    show g.shortcuts.matchEnd? (g.typed ++ [c]) = some s
    rw [hsame.shortcuts, hsame.typed, hmatch]
  have hread := map_bare_reading_eq hin s.substitute 0
  have hbares : (before ++ kept ++ g.editor.reading s.substitute ++ after).map Atom.bare =
      (before ++ kept ++ (Latex.parseFormula s.substitute 0).1.atoms ++ after).map Atom.bare := by
    simp only [List.map_append, hread]
  refine ⟨g, _, q, slot, owner, before ++ kept, gone, after, hg,
    (typeChar_eq hmode htext hc hg).trans
      (applyShortcut_eq hmatched (hgone ▸ hdeleted) hsubstituted), ?_, ?_, hgone, ?_⟩
  · simpa only [List.append_assoc] using htyped.branch
  · simpa only [List.append_assoc] using htyped.selection_eq
  · rw [← Path.bare_fill_congr hbares, ← Atom.nil_of_map_bare_eq hread]
    exact hiff

/-- From a new field on, as long as no step empties a branch that needs content: a character that is
typed outside of text and completes a shortcut without an implicit argument is inserted first, and
then the leaves of the trigger, which stand together before the caret, are replaced by what the
shortcut stands for. The rest of the formula stays as it is. Only where these leaves are all of their
branch this may fail: an optional branch is dissolved, and one that needs content keeps a placeholder
if the shortcut stands for nothing. -/
theorem typeChar_substitutes_iff {shortcuts : ShortcutTable} (h : Field.new shortcuts = .ok f)
    {steps : List Step} (hrun : ∀ n (hn : n < steps.length),
      (f.afterAll (steps.take n)).emptiedByStep steps[n] = false)
    (hmode : (f.afterAll steps).editor.mode = .math)
    (htext : (f.afterAll steps).editor.inText = false) {s : Shortcut}
    (hmatch : (f.afterAll steps).shortcuts.matchEnd? ((f.afterAll steps).typed ++ [c]) = some s)
    (hargs : takesImplicitArgument s.substitute.toList = false) :
    ∃ typed substituted q slot owner before replaced after,
      (f.afterAll steps).run (.insert (String.singleton c) InsertOptions.standard) = .done typed ∧
      (f.afterAll steps).typeChar c = .done substituted ∧
      IsBranch typed.editor.root q slot owner (before ++ replaced ++ after) ∧
      typed.editor.selection =
        Selection.caret (q.child slot (((before ++ replaced).length : Int) - 1)) ∧
      replaced.length = s.length ∧
      (substituted.editor.root.bare = (q.fill slot
          (before ++ (Latex.parseFormula s.substitute 0).1.atoms ++ after) typed.editor.root).bare ↔
        (before ++ after = [] → slot.isOptional = false ∧
          ((Latex.parseFormula s.substitute 0).1.atoms = [] →
            owner.requiresContent slot = false))) :=
  ((inPlace_new h).afterAll (sound_new h) hrun).typeChar_iff ((sound_new h).afterAll hrun) hmode htext
    hmatch hargs

/-- Types the first character of `pi` into a superscript. -/
def exponentSteps : List Step :=
  [.typeChar 'x', .typeChar '^', .typeChar 'p']

/-- The shortcut is all of the superscript, which goes with the characters of the trigger, so what it
stands for is not in their place. -/
theorem typeChar_substitutes_iff_exponent :
    ∃ f, Field.new ⟨[], false⟩ = .ok f ∧ ∃ typed substituted q slot owner replaced,
      (f.afterAll exponentSteps).run (.insert "i" InsertOptions.standard) = .done typed ∧
      (f.afterAll exponentSteps).typeChar 'i' = .done substituted ∧
      IsBranch typed.editor.root q slot owner replaced ∧ replaced.length = 2 ∧
      substituted.editor.root.bare ≠
        (q.fill slot (Latex.parseFormula "\\pi" 0).1.atoms typed.editor.root).bare := by
  have hnew : Field.new ⟨[], false⟩ = .ok ⟨Editor.empty, History.empty History.defaultLimit,
    ⟨[], false⟩, []⟩ := rfl
  obtain ⟨typed, substituted, q, slot, owner, before, replaced, after, htyped, hsubstituted, hbranch,
    hcaret, hlength, hiff⟩ := typeChar_substitutes_iff (c := 'i') (s := ⟨"pi", "\\pi"⟩) hnew
      (by decide +kernel) (rfl : (Field.afterAll _ exponentSteps).editor.mode = .math)
      (by decide +kernel) (by decide +kernel) (by decide +kernel)
  have hstate : (((Field.mk Editor.empty (History.empty History.defaultLimit) ⟨[], false⟩
      []).afterAll exponentSteps).run (.insert "i" InsertOptions.standard)).state = typed :=
    congrArg Outcome.state htyped
  have hselection : typed.editor.selection =
      Selection.caret ((Path.inRoot 0).child .superscript 1) := by
    rw [← hstate]
    decide +kernel
  have hall : (((Path.inRoot 0).child .superscript 1).branch? typed.editor.root).map List.length =
      some 2 := by
    rw [← hstate]
    decide +kernel
  obtain ⟨rfl, rfl, -⟩ := Path.child_injective
    (congrArg Selection.focus (hcaret.symm.trans hselection))
  rw [hbranch.branch?, Option.map_some, List.length_append, List.length_append, hlength] at hall
  replace hall : before.length + 2 + after.length = 2 := Option.some.inj hall
  obtain ⟨rfl, rfl⟩ : before = [] ∧ after = [] :=
    ⟨List.eq_nil_of_length_eq_zero (by omega), List.eq_nil_of_length_eq_zero (by omega)⟩
  refine ⟨_, hnew, typed, substituted, _, _, owner, replaced, htyped, hsubstituted,
    by simpa using hbranch, hlength, fun heq => ?_⟩
  exact absurd (hiff.1 (by simpa using heq) rfl).1 (by decide)

end Field

end FormulaEditor

import FormulaEditor.Proofs.Field.Matching

/-!
# Which shortcuts can be carried out

A shortcut is carried out as soon as the characters typed in a row end with its trigger, and nothing
counts as typed before it then. So the trigger of one shortcut can be out of reach because another one
is complete too early.
-/

namespace FormulaEditor

namespace Editor

/-! ## Typing at the end of a branch -/

variable {e : Editor} {root owner : Atom} {q : Path} {slot : Slot} {atoms content : List Atom}
  {c : Char}

/-- A character that is typed at the end of an opened branch is the last atom of it then. -/
theorem OpenedAtCaret.insert_char
    (h : e.OpenedAtCaret root q slot owner atoms content ((content.length : Int) - 1))
    (hlone : isPlaceholderOnly content = false) (hs : e.Sound) (htext : e.inText = false)
    (hc : StandsForItself c) :
    ∃ a e', IsTypedLeaf a ∧ e.insert (String.singleton c) InsertOptions.standard = .done e' ∧
      e'.OpenedAtCaret root q slot owner atoms (content ++ [a])
        (((content ++ [a]).length : Int) - 1) ∧ e'.mode = e.mode := by
  have hself : e.OpenedAtCaret e.root q slot (owner.putBranch slot (some content)) content content
      ((content.length : Int) - 1) :=
    ⟨hs.opened h.isBranch, h.selection_eq, h.isOffset⟩
  have htaken : e.takeSelection.2.OpenedAtCaret e.root q slot
      (owner.putBranch slot (some content)) content content ((content.length : Int) - 1) := by
    simpa only [takeSelection, h.isCollapsed, if_true] using hself
  have hsel : e.SelectsIn q slot (owner.putBranch slot (some content)) content _ _ :=
    ⟨h.isBranch, h.selection_eq, h.isOffset, h.isOffset⟩
  obtain ⟨a, e', ha, hinserted, hopened, hmode⟩ := hsel.insert_char hs htext hc htaken
  have hlone' : isPlaceholderOnly (content ++ []) = false := by rwa [List.append_nil]
  have hgap := gap_append q slot hlone'
  rw [List.append_nil] at hgap
  rw [hgap.1, hgap.2, List.append_nil, ← length_sub_one_concat content a] at hopened
  refine ⟨a, e', ha, hinserted, ⟨⟨h.kind_root, h.isWellFormed, h.branch, ?_, hopened.wellFormed⟩,
    hopened.selection_eq, hopened.isOffset⟩, hmode⟩
  rw [hopened.root_eq, h.root_eq, h.branch.fill_fill]

end Editor

namespace Field

open Editor (StandsForItself)

variable {f g : Field} {table : ShortcutTable} {chars : List Char} {c : Char}

/-! ## A new field -/

/-- The characters were typed into a new field, and none of them completed a shortcut. -/
structure HoldsTyped (f : Field) (table : ShortcutTable) (chars : List Char) : Prop where
  shortcuts : f.shortcuts = table
  typed : f.typed = chars
  sound : f.Sound
  mode : f.editor.mode = .math
  leaves : ∃ atoms, f.editor.OpenedAtCaret Editor.empty.root Path.root .body Editor.empty.root []
    atoms ((atoms.length : Int) - 1) ∧ atoms.length = chars.length ∧ ∀ a ∈ atoms, IsTypedLeaf a

theorem isPlaceholderOnly_of_forall_isTypedLeaf {atoms : List Atom} (h : ∀ a ∈ atoms, IsTypedLeaf a) :
    isPlaceholderOnly atoms = false := by
  cases atoms with
  | nil => rfl
  | cons a rest => exact isPlaceholderOnly_of_isTypedLeaf List.mem_cons_self (h a List.mem_cons_self)

theorem openedAtCaret_empty :
    Editor.empty.OpenedAtCaret Editor.empty.root Path.root .body Editor.empty.root [] [] leadingGap :=
  ⟨Editor.opened_self rfl (by decide) ⟨rfl, rfl, rfl⟩, rfl, isOffset_leadingGap []⟩

theorem holdsTyped_new (h : Field.new table = .ok f) : f.HoldsTyped table [] := by
  have hsound := sound_new h
  obtain ⟨-, rfl⟩ := new_eq_ok_iff.1 h
  exact ⟨rfl, rfl, hsound, rfl, [], openedAtCaret_empty, rfl, nofun⟩

/-- A character is typed, and then the shortcut that it completes is carried out. -/
theorem HoldsTyped.typeChar_eq (h : f.HoldsTyped table chars) (hc : StandsForItself c) :
    ∃ g : Field, f.typeChar c = g.applyShortcut ∧ g.HoldsTyped table (chars ++ [c]) := by
  obtain ⟨atoms, hopened, hlength, hleaves⟩ := h.leaves
  have htext : f.editor.inText = false := by
    rw [Editor.inText_child hopened.caret_eq]
    rfl
  have hrecorded : f.record.editor.OpenedAtCaret Editor.empty.root Path.root .body Editor.empty.root []
      atoms ((atoms.length : Int) - 1) := hopened.of_eq rfl rfl
  obtain ⟨a, e, ha, hinserted, hopened', hmode⟩ := hrecorded.insert_char
    (isPlaceholderOnly_of_forall_isTypedLeaf hleaves) h.sound.record.editor htext hc
  have hrun : f.run (.insert (String.singleton c) InsertOptions.standard) =
      .done (f.record.withEditor e) := by
    show (f.record.editor.insert _ _).lift _ = _
    rw [hinserted]
    rfl
  have hcarried := h.sound.run (.insert (String.singleton c) InsertOptions.standard)
  have hsound := hcarried.sound (hcarried.isWellFormed_iff.2 rfl)
  rw [hrun, Outcome.state_done] at hsound
  refine ⟨{ f.record.withEditor e with typed := f.typed ++ [c] },
    Field.typeChar_eq h.mode htext hc hrun, h.shortcuts, congrArg (· ++ [c]) h.typed,
    ⟨hsound.editor, hsound.history⟩, hmode.trans h.mode, atoms ++ [a], hopened', ?_, ?_⟩
  · rw [List.length_append, List.length_append, hlength]
    rfl
  · exact List.forall_mem_append.2 ⟨hleaves, List.forall_mem_singleton.2 ha⟩

/-- A character that completes no shortcut joins those that were typed before it. -/
theorem HoldsTyped.typeChar (h : f.HoldsTyped table chars) (hc : StandsForItself c)
    (hnone : table.matchEnd? (chars ++ [c]) = none) :
    ∃ g : Field, f.typeChar c = .done g ∧ g.HoldsTyped table (chars ++ [c]) := by
  obtain ⟨g, htyped, hg⟩ := h.typeChar_eq hc
  refine ⟨g, ?_, hg⟩
  rw [htyped, Field.applyShortcut, hg.shortcuts, hg.typed, hnone]

theorem HoldsTyped.typeChars (h : f.HoldsTyped table chars) {more : List Char}
    (hc : ∀ c ∈ more, StandsForItself c)
    (hnone : ∀ n < more.length, table.matchEnd? (chars ++ more.take (n + 1)) = none) :
    ∃ g : Field, f.typeChars more = .done g ∧ g.HoldsTyped table (chars ++ more) := by
  induction more generalizing f chars with
  | nil => exact ⟨f, rfl, by rwa [List.append_nil]⟩
  | cons c rest ih =>
      obtain ⟨hfirst, hrest⟩ := List.forall_mem_cons.1 hc
      obtain ⟨g, htyped, hg⟩ := h.typeChar hfirst (hnone 0 (Nat.zero_lt_succ _))
      obtain ⟨k, htypedRest, hk⟩ := ih hg hrest fun n hn => by
        have hnext := hnone (n + 1) (Nat.succ_lt_succ hn)
        rwa [List.take_succ_cons, ← List.singleton_append, ← List.append_assoc] at hnext
      refine ⟨k, ?_, ?_⟩
      · rw [Field.typeChars, htyped, Outcome.done_andThen, htypedRest]
      · rwa [List.append_assoc] at hk

/-! ## After a shortcut -/

/-- A shortcut that is carried out leaves nothing typed in a row. -/
theorem HoldsTyped.typeChar_fires (h : f.HoldsTyped table chars) (hc : StandsForItself c)
    {s : Shortcut} (hs : table.matchEnd? (chars ++ [c]) = some s) :
    ∃ g : Field, f.typeChar c = .done g ∧ g.typed = [] := by
  obtain ⟨g, htyped, hg⟩ := h.typeChar_eq hc
  obtain ⟨hok₁, hsound⟩ := hg.sound.record.editor.delete .backward s.length
  obtain ⟨hok₂, -⟩ := hsound.insert s.substitute (InsertOptions.latex .placeholder)
  have hmatch : g.shortcuts.matchEnd? g.typed = some s := by
    rw [hg.shortcuts, hg.typed, hs]
  refine ⟨_, htyped.trans (applyShortcut_eq hmatch (congrArg (Outcome.mk _) hok₁)
    (congrArg (Outcome.mk _) hok₂)), rfl⟩

/-- What is typed in a row grows by no more than both parts of a step let it grow. -/
theorem length_typed_andThen_le {o : Outcome Field Unit} {next : Field → Outcome Field Unit} {n k : Nat}
    (h : o.state.typed.length ≤ n)
    (hn : ∀ g : Field, g.typed.length ≤ n → (next g).state.typed.length ≤ n + k) :
    (o.andThen next).state.typed.length ≤ n + k := by
  unfold Outcome.andThen
  split
  · exact hn _ h
  · exact Nat.le_add_right_of_le h

theorem length_typed_perform (f : Field) (c : Command) : (f.perform c).state.typed.length = 0 := by
  rw [show (f.perform c).state.typed = [] from (sameTyping_run f.endTyping c).typed]
  rfl

theorem length_typed_applyShortcut_le (f : Field) :
    f.applyShortcut.state.typed.length ≤ f.typed.length := by
  unfold Field.applyShortcut
  split
  · exact Nat.le_refl _
  · exact length_typed_andThen_le (k := 0)
      (length_typed_andThen_le (k := 0) (Nat.le_refl _) fun g hg => hg) fun g _ => Nat.zero_le _

theorem length_typed_insertTyped_le (f : Field) (c : Char) :
    (f.insertTyped c).state.typed.length ≤ f.typed.length + 1 := by
  have hsame := sameTyping_run f (.insert (String.singleton c) InsertOptions.standard)
  refine length_typed_andThen_le (Nat.le_of_eq (congrArg _ hsame.typed)) fun g hg => ?_
  split
  · exact Nat.zero_le _
  · refine Nat.le_trans (length_typed_applyShortcut_le _) ?_
    rw [List.length_append]
    exact Nat.add_le_add_right hg 1

theorem length_typed_typeMathChar_le (f : Field) (c : Char) :
    (f.typeMathChar c).state.typed.length ≤ f.typed.length + 1 := by
  have hperform (command : Command) : (f.perform command).state.typed.length ≤ f.typed.length + 1 := by
    rw [length_typed_perform]
    exact Nat.zero_le _
  unfold Field.typeMathChar
  split
  · exact hperform _
  split
  · exact hperform _
  split
  · exact hperform _
  split
  · exact Nat.zero_le _
  · exact length_typed_insertTyped_le f c

theorem length_typed_typeCommandChar_le (f : Field) (c : Char) :
    (f.typeCommandChar c).state.typed.length ≤ f.typed.length + 1 := by
  unfold Field.typeCommandChar
  split
  · refine length_typed_andThen_le (Nat.le_refl _) fun g hg => ?_
    rw [Outcome.state_done, (sameTyping_updateSuggestion g).typed]
    exact Nat.le_succ_of_le hg
  split
  · refine length_typed_andThen_le (Nat.le_refl _) fun g _ => ?_
    rw [length_typed_perform]
    exact Nat.zero_le _
  · have hcompleted := length_typed_perform f .completeCommand
    refine length_typed_andThen_le (hcompleted ▸ Nat.zero_le _) fun g hg => ?_
    exact Nat.le_trans (length_typed_typeMathChar_le g c) (Nat.succ_le_succ hg)

/-- Each typed character adds no more than itself to what is typed in a row. -/
theorem length_typed_typeChar_le (f : Field) (c : Char) :
    (f.typeChar c).state.typed.length ≤ f.typed.length + 1 := by
  unfold Field.typeChar
  split
  · exact length_typed_typeMathChar_le f c
  · exact length_typed_typeCommandChar_le f c

theorem length_typed_typeChars_le (f : Field) (chars : List Char) :
    (f.typeChars chars).state.typed.length ≤ f.typed.length + chars.length := by
  induction chars generalizing f with
  | nil => exact Nat.le_refl _
  | cons c rest ih =>
      rw [List.length_cons, Nat.add_comm rest.length, ← Nat.add_assoc]
      exact length_typed_andThen_le (length_typed_typeChar_le f c) fun g hg =>
        Nat.le_trans (ih g) (Nat.add_le_add_right hg _)

/-- Once a shortcut was carried out, fewer characters are typed in a row than were typed. -/
theorem HoldsTyped.length_typed_lt (h : f.HoldsTyped table chars) {more : List Char}
    (hc : ∀ c ∈ more, StandsForItself c)
    (hsome : ∃ n < more.length, table.matchEnd? (chars ++ more.take (n + 1)) ≠ none) :
    (f.typeChars more).state.typed.length < chars.length + more.length := by
  induction more generalizing f chars with
  | nil =>
      obtain ⟨n, hn, -⟩ := hsome
      cases hn
  | cons c rest ih =>
      obtain ⟨hfirst, hrest⟩ := List.forall_mem_cons.1 hc
      cases hmatch : table.matchEnd? (chars ++ [c]) with
      | some s =>
          obtain ⟨g, htyped, hnil⟩ := h.typeChar_fires hfirst hmatch
          have hle := length_typed_typeChars_le g rest
          rw [hnil] at hle
          rw [Field.typeChars, htyped, Outcome.done_andThen, List.length_cons]
          simp only [List.length_nil] at hle
          omega
      | none =>
          obtain ⟨g, htyped, hg⟩ := h.typeChar hfirst hmatch
          have hlater : ∃ n < rest.length,
              table.matchEnd? (chars ++ [c] ++ rest.take (n + 1)) ≠ none := by
            obtain ⟨n, hn, hne⟩ := hsome
            cases n with
            | zero => exact absurd hmatch hne
            | succ n =>
                rw [List.take_succ_cons, ← List.singleton_append, ← List.append_assoc] at hne
                exact ⟨n, Nat.lt_of_succ_lt_succ hn, hne⟩
          have hlt := ih hg hrest hlater
          rw [Field.typeChars, htyped, Outcome.done_andThen, List.length_cons]
          simp only [List.length_append, List.length_singleton] at hlt
          omega

/-! ## Completing a trigger -/

/-- The shortcut that the last of some characters completes. -/
def completedBy? (f : Field) (chars : List Char) : Option Shortcut :=
  chars.getLast?.bind fun c =>
    let g := (f.typeChars chars.dropLast).state
    g.shortcuts.matchEnd? (g.typed ++ [c])

theorem completedBy?_concat (f : Field) (chars : List Char) (c : Char) :
    f.completedBy? (chars ++ [c]) = (f.typeChars chars).state.shortcuts.matchEnd?
      ((f.typeChars chars).state.typed ++ [c]) := by
  simp only [completedBy?, List.getLast?_concat, Option.bind_some, List.dropLast_concat]

theorem typeChars_append (f : Field) (chars more : List Char) :
    f.typeChars (chars ++ more) = (f.typeChars chars).andThen fun g => g.typeChars more := by
  induction chars generalizing f with
  | nil => rfl
  | cons c rest ih =>
      simp only [List.cons_append, Field.typeChars, ih]
      unfold Outcome.andThen
      cases (f.typeChar c).answer <;> rfl

theorem typeChars_singleton (f : Field) (c : Char) : f.typeChars [c] = f.typeChar c := by
  simp only [Field.typeChars]
  unfold Outcome.andThen
  split
  · rename_i hok
    exact congrArg (Outcome.mk _) hok.symm
  · rename_i reason hrefused
    exact congrArg (Outcome.mk _) hrefused.symm

/-- Either a shortcut is complete within the trigger, and then too little of the trigger is left at its
end, or all of it is there when shortcuts are looked for at its end. -/
theorem HoldsTyped.typeChars_trigger (h : f.HoldsTyped table []) (htable : table.CanBeTyped)
    {t : Shortcut} (ht : t.CanBeTyped) :
    (∃ s, table.InEffect s ∧ s.trigger.toList <:+: t.trigger.toList.dropLast) ∧
        f.completedBy? t.trigger.toList ≠ some t ∨
      (∀ s, table.InEffect s → ¬s.trigger.toList <:+: t.trigger.toList.dropLast) ∧
        f.completedBy? t.trigger.toList = table.matchEnd? t.trigger.toList ∧
        ∃ g : Field, f.typeChars t.trigger.toList = g.applyShortcut ∧
          g.HoldsTyped table t.trigger.toList := by
  obtain ⟨hne, hchars⟩ := ht
  generalize htrigger : t.trigger.toList = trigger at hne hchars ⊢
  obtain ⟨init, last, rfl⟩ := (List.eq_nil_or_concat trigger).resolve_left hne
  rw [List.concat_eq_append] at *
  have hself : ∀ c ∈ init ++ [last], StandsForItself c := fun c hc =>
    standsForItself_of_isNeverTyped (hchars c hc)
  obtain ⟨hinit, hlast⟩ := List.forall_mem_append.1 hself
  have hearly := htable.exists_matchEnd?_take_iff init
  rw [List.dropLast_concat, completedBy?_concat]
  by_cases hcontains : ∃ s, table.InEffect s ∧ s.trigger.toList <:+: init
  · refine .inl ⟨hcontains, fun hcompleted => ?_⟩
    have hlt := h.length_typed_lt hinit (hearly.2 hcontains)
    have hle := (ShortcutTable.mem_of_matchEnd? hcompleted).2.length_le
    rw [htrigger] at hle
    simp only [List.length_append, List.length_singleton, List.length_nil] at hle hlt
    omega
  · have hnone : ∀ n < init.length, table.matchEnd? ([] ++ init.take (n + 1)) = none :=
      fun n hn => Classical.byContradiction fun hsome => hcontains (hearly.1 ⟨n, hn, hsome⟩)
    obtain ⟨g, htyped, hg⟩ := h.typeChars hinit hnone
    obtain ⟨k, hcharTyped, hk⟩ := hg.typeChar_eq (hlast last List.mem_cons_self)
    refine .inr ⟨fun s heffect hinfix => hcontains ⟨s, heffect, hinfix⟩, ?_, k, ?_, hk⟩
    · rw [htyped, Outcome.state_done, hg.shortcuts, hg.typed, List.nil_append]
    · rw [typeChars_append, htyped, Outcome.done_andThen, typeChars_singleton, hcharTyped]

/-- A shortcut that is complete with all that was typed leaves what inserting its substitute into an
empty field does. -/
theorem HoldsTyped.alike_applyShortcut {s : Shortcut} (h : f.HoldsTyped table s.trigger.toList)
    (hempty : g.HoldsTyped table []) (hne : s.trigger.toList ≠ [])
    (hs : table.matchEnd? s.trigger.toList = some s) :
    ∃ k : Field, f.applyShortcut = .done k ∧ k.editor.Alike
      (g.editor.insert s.substitute (InsertOptions.latex .placeholder)).state := by
  obtain ⟨atoms, hopened, hlength, hleaves⟩ := h.leaves
  have hrecorded : f.record.editor.OpenedAtCaret Editor.empty.root Path.root .body Editor.empty.root []
      ([] ++ atoms ++ []) ((([] ++ atoms).length : Int) - 1) := by
    rw [List.append_nil]
    exact hopened.of_eq rfl rfl
  have hcount : atoms.length = s.length := by
    rw [hlength, String.length_toList]
    rfl
  have hatoms : atoms ≠ [] := by
    rw [← List.length_pos_iff, hlength]
    exact List.length_pos_iff.2 hne
  obtain ⟨e, at', hleft, hdeleted⟩ := hrecorded.delete_eq hatoms hleaves h.sound.record.editor h.mode
  have hsettled := hleft.openedAtCaret_settleCaret at' (isOffset_leadingGap []) fun _ => rfl
  have hsound := hleft.sound_settleCaret at' fun _ => isOffset_leadingGap []
  obtain ⟨hok, -⟩ := hsound.insert s.substitute (InsertOptions.latex .placeholder)
  have hmatch : f.shortcuts.matchEnd? f.typed = some s := by
    rw [h.shortcuts, h.typed, hs]
  refine ⟨_, applyShortcut_eq hmatch (hcount ▸ hdeleted) (congrArg (Outcome.mk _) hok), ?_⟩
  obtain ⟨none, hopened', hzero, -⟩ := hempty.leaves
  obtain rfl := List.eq_nil_of_length_eq_zero hzero
  exact hsettled.alike_insert_nil hopened' hsound hempty.sound.editor rfl s.substitute .placeholder

/-- A trigger completes its shortcut unless another shortcut is in the way, and then typing it into an
empty field leaves what inserting the substitute does. -/
theorem HoldsTyped.completedBy?_trigger_iff (h : f.HoldsTyped table []) (htable : table.CanBeTyped)
    {t : Shortcut} (ht : table.InEffect t) :
    f.completedBy? t.trigger.toList = some t ↔ ∀ s, ¬table.Hinders s t := by
  rcases h.typeChars_trigger htable (htable.of_inEffect ht) with
    ⟨⟨s, heffect, hinfix⟩, hother⟩ | ⟨hfree, hcompleted, -⟩
  · exact iff_of_false hother fun hall => hall s (.tooEarly heffect hinfix)
  · rw [hcompleted, htable.matchEnd?_trigger_iff ht]
    constructor
    · rintro hown s (⟨heffect, hinfix⟩ | ⟨hs, hother, hsuffix⟩)
      · exact hfree s heffect hinfix
      · exact hown.elim hother fun hall => hall s hs hsuffix
    · intro hall
      by_cases hlast : t.IsLast table.configured
      · exact .inl hlast
      · exact .inr fun s hs hsuffix => hall s (.overridden hs hlast hsuffix)

theorem HoldsTyped.alike_typeChars (h : f.HoldsTyped table []) (htable : table.CanBeTyped)
    {t : Shortcut} (ht : t.CanBeTyped) (hcompleted : f.completedBy? t.trigger.toList = some t) :
    ∃ g e, f.typeChars t.trigger.toList = .done g ∧
      f.editor.insert t.substitute (InsertOptions.latex .placeholder) = .done e ∧
      g.editor.Alike e := by
  rcases h.typeChars_trigger htable ht with ⟨-, hother⟩ | ⟨-, hmatch, g, htyped, hg⟩
  · exact absurd hcompleted hother
  · obtain ⟨k, happlied, halike⟩ := hg.alike_applyShortcut h ht.1 (hmatch.symm.trans hcompleted)
    obtain ⟨hok, -⟩ := h.sound.editor.insert t.substitute (InsertOptions.latex .placeholder)
    exact ⟨k, _, htyped.trans happlied, congrArg (Outcome.mk _) hok, halike⟩

/-- Of the built-in triggers, all but one complete their shortcuts. -/
theorem completedBy?_builtIn_iff (h : Field.new ⟨[], false⟩ = .ok f) {t : Shortcut}
    (ht : t ∈ Shortcut.builtIn) :
    f.completedBy? t.trigger.toList = some t ↔ t.trigger ≠ "<=>" := by
  have heffect : ShortcutTable.InEffect ⟨[], false⟩ t := .inr ⟨rfl, ht, nofun⟩
  rw [(holdsTyped_new h).completedBy?_trigger_iff nofun heffect, Ne,
    ← ShortcutTable.exists_hinders_builtIn_iff ht, not_exists]

/-- In a new field, a trigger that is typed completes its shortcut exactly if no other shortcut is in
the way: none that is complete before the last character, and for a built-in trigger none that is
configured and that it ends with. A shortcut that is completed leaves the same as its substitute
inserted into an empty field. -/
theorem completedBy?_iff_not_hinders (h : Field.new table = .ok f) {t : Shortcut}
    (ht : table.InEffect t) :
    (f.completedBy? t.trigger.toList = some t ↔ ∀ s, ¬table.Hinders s t) ∧
      (f.completedBy? t.trigger.toList = some t →
        ∃ g e, f.typeChars t.trigger.toList = .done g ∧
          f.editor.insert t.substitute (InsertOptions.latex .placeholder) = .done e ∧
          g.editor.Alike e) := by
  have hnew := holdsTyped_new h
  have htable : table.CanBeTyped := hnew.shortcuts ▸ (inPlace_new h).canBeTyped
  exact ⟨hnew.completedBy?_trigger_iff htable ht,
    hnew.alike_typeChars htable (htable.of_inEffect ht)⟩

/-- The built-in trigger `<=>` does not complete its shortcut, since `<=` is complete before. -/
theorem completedBy?_iff_not_hinders_doubleArrow :
    ∃ f, Field.new ⟨[], false⟩ = .ok f ∧
      ShortcutTable.InEffect ⟨[], false⟩ ⟨"<=>", "\\Leftrightarrow"⟩ ∧
      f.completedBy? "<=>".toList ≠ some ⟨"<=>", "\\Leftrightarrow"⟩ ∧
      (f.typeChars "<=>".toList).state.latex = "\\le>" ∧
      Latex.write (f.editor.insert "\\Leftrightarrow"
        (InsertOptions.latex .placeholder)).state.atoms = "\\Leftrightarrow" := by
  have hnew : Field.new ⟨[], false⟩ = .ok ⟨Editor.empty, History.empty History.defaultLimit,
    ⟨[], false⟩, []⟩ := rfl
  have heffect : ShortcutTable.InEffect ⟨[], false⟩ ⟨"<=>", "\\Leftrightarrow"⟩ :=
    .inr ⟨rfl, by decide, nofun⟩
  have hearlier : ShortcutTable.InEffect ⟨[], false⟩ ⟨"<=", "\\le"⟩ := .inr ⟨rfl, by decide, nofun⟩
  refine ⟨_, hnew, heffect, fun hcompleted => ?_, by decide +kernel, by decide +kernel⟩
  exact (completedBy?_iff_not_hinders hnew heffect).1.1 hcompleted _ (.tooEarly hearlier (by decide))

end Field

end FormulaEditor

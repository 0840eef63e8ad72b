import FormulaEditor.Proofs.Editor.Completing
import FormulaEditor.Proofs.Editor.Consisting

/-!
# Commands in a formula of known content

While a command is typed, the formula around it consists of what it consisted of before: the command
is entered into a formula without characters of commands, and is taken out as a whole. What it stands
for is inserted then.
-/

namespace FormulaEditor

open Atom (ConsistsOf Items)

/-- A property of labels that the characters of commands do not have. -/
structure Label.Plain (P : Label → Prop) : Prop extends Label.Lasting P where
  ne_command : ∀ {l : Label}, P l → l.kind ≠ .command

variable {P : Label → Prop} {root owner : Atom} {q : Path} {slot : Slot}
  {atoms before chars suggested after content : List Atom} {word : List Char}

theorem Label.Plain.not_isCommandChar (hP : Label.Plain P) (h : Items P atoms) :
    ∀ a ∈ atoms, isCommandChar a = false := fun a ha => by
  have hne : a.kind ≠ .command := hP.ne_command (h a ha).2.label
  simpa [isCommandChar] using hne

/-- Without characters of commands the run around a gap is empty. -/
theorem CommandRun.start_eq_stop (h : ∀ a ∈ atoms, isCommandChar a = false) (offset : Int) :
    (CommandRun.around atoms offset).start = (CommandRun.around atoms offset).stop := by
  unfold CommandRun.around
  generalize min (offset + 1).toNat atoms.length = caret
  have hbefore : countAtEnd isCommandChar (atoms.take caret ++ []) = 0 :=
    countAtEnd_append_of_forall
      (fun a ha => h a (List.mem_of_mem_take (List.mem_of_getLast? ha))) nofun
  have hafter : countAtStart isCommandChar ([] ++ atoms.drop caret) = 0 :=
    countAtStart_append_of_forall nofun
      fun a ha => h a (List.mem_of_mem_drop (List.mem_of_head? ha))
  rw [List.append_nil] at hbefore
  rw [List.nil_append] at hafter
  simp only [hbefore, hafter, Nat.sub_zero, Nat.add_zero]

namespace Editor

theorem length_spelledBy {suggestion : Bool} (h : CommandChars chars suggestion) :
    (spelledBy chars).length = chars.length := by
  induction chars with
  | nil => rfl
  | cons a rest ih =>
      obtain ⟨c, hc⟩ := h.exists_char a List.mem_cons_self
      have hrest : CommandChars rest suggestion :=
        ⟨fun b hb => h.isCommandChar b (List.mem_cons_of_mem a hb),
          fun b hb => h.exists_char b (List.mem_cons_of_mem a hb),
          fun b hb => h.isSuggested b (List.mem_cons_of_mem a hb)⟩
      show (spelledBy ([a] ++ rest)).length = _
      rw [spelledBy_append, List.length_append, ih hrest, List.length_cons]
      simp [spelledBy, hc, Nat.add_comm]

/-- A command is typed into a formula that consists of what has the property `P`. -/
structure TypesIn (P : Label → Prop) (e : Editor) (root : Atom) (q : Path) (slot : Slot)
    (owner : Atom) (atoms before chars suggested after : List Atom) : Prop where
  typesCommand : e.TypesCommand root q slot owner atoms before chars suggested after
  consistsOf : root.ConsistsOf P
  items_before : Items P before
  items_after : Items P after

variable {e e' : Editor}

theorem TypesIn.of_typesCommand
    (h : e.TypesIn P root q slot owner atoms before chars suggested after) {chars' suggested' : List Atom}
    (h' : e'.TypesCommand root q slot owner atoms before chars' suggested' after) :
    e'.TypesIn P root q slot owner atoms before chars' suggested' after :=
  ⟨h', h.consistsOf, h.items_before, h.items_after⟩

/-! ## Entering -/

theorem isCollapsed_removeSelection (e : Editor) :
    e.removeSelection.selection.isCollapsed = true := by
  unfold removeSelection
  simp only
  split
  · assumption
  · exact beq_self_eq_true _

/-- A command takes the place of the selection. -/
theorem enterCommandMode_removeSelection (h : e.Sound) :
    e.removeSelection.enterCommandMode = e.enterCommandMode := by
  have hagain : e.removeSelection.removeSelection = e.removeSelection := by
    rw [removeSelection, if_pos (isCollapsed_removeSelection e)]
  unfold enterCommandMode
  rw [h.whenValid, h.removeSelection.whenValid]
  unfold typeIntoCommand
  rw [hagain]

theorem items_gap (h : Items P content) (p : Path) :
    Items P (beforeGap p content) ∧ Items P (afterGap p content) := by
  have hpoint : Items P (insertionPoint p content).2 := by
    unfold insertionPoint
    split
    · exact Atom.items_nil
    · exact h
  exact ⟨hpoint.of_subset fun _ => List.mem_of_mem_take, hpoint.of_subset fun _ => List.mem_of_mem_drop⟩

/-- A backslash starts a command in a formula that is edited. -/
theorem InMath.enterCommandMode (hP : Label.Plain P) (h : e.InMath P) :
    ∃ (e' : Editor) (root : Atom) (q : Path) (slot : Slot) (owner : Atom)
      (atoms before chars after : List Atom), e.enterCommandMode = .done e' ∧
        e'.TypesIn P root q slot owner atoms before chars [] after ∧ spelledBy chars = ['\\'] := by
  have hs := h.sound.removeSelection
  have hr := h.sound.consistsOf_removeSelection hP.toLasting h.consistsOf
  obtain ⟨q, slot, owner, atoms, anchor, focus, hsel⟩ := hs.exists_selectsIn
  have hcaret : e.removeSelection.selection = Selection.caret (q.child slot focus) := by
    have hcollapsed := isCollapsed_removeSelection e
    have heq : q.child slot anchor = q.child slot focus := by
      simpa [Selection.isCollapsed, hsel.selection_eq] using hcollapsed
    rw [hsel.selection_eq, heq]
    rfl
  have hitems := hsel.branch.items hr
  have hopened : e.removeSelection.OpenedAtCaret e.removeSelection.root q slot owner atoms atoms focus :=
    ⟨hs.opened hsel.branch, hcaret, hsel.focus⟩
  obtain ⟨e', hentered, htyped⟩ := hopened.enterCommandMode hs (hP.not_isCommandChar hitems)
  obtain ⟨hbefore, hafter⟩ := items_gap hitems (q.child slot focus)
  exact ⟨e', _, q, slot, owner, atoms, _, _, _,
    (enterCommandMode_removeSelection h.sound).symm.trans hentered, ⟨htyped, hr, hbefore, hafter⟩,
    spelledBy_newCommandChar '\\' _⟩

/-! ## Leaving -/

theorem TypesIn.removeCommand (hP : Label.Lasting P)
    (h : e.TypesIn P root q slot owner atoms before chars suggested after) :
    e.removeCommand.InMath P := by
  obtain ⟨e', offset, hopened, heq⟩ := h.typesCommand.removeCommand
  refine ⟨?_, ?_, mode_removeCommand e⟩
  · exact heq ▸ hopened.sound_settleCaret offset fun _ => isOffset_length_sub_one before after
  · exact heq ▸ hopened.consistsOf_settleCaret hP h.consistsOf
      (Atom.items_append h.items_before h.items_after) _ _

/-- A completed command is replaced by what it stands for. -/
theorem TypesIn.completeCommand (hP : Label.Lasting P)
    (h : e.TypesIn P root q slot owner atoms before chars suggested after)
    (hy : ∀ fragment, completion? (spelledBy chars ++ spelledBy suggested) = some fragment →
      Yields P fragment .latex) : e.completeCommand.state.InMath P := by
  have haccepted := h.typesCommand.acceptSuggestion
  have hremoved := (h.of_typesCommand haccepted).removeCommand hP
  unfold Editor.completeCommand
  rw [h.typesCommand.sound.whenValid]
  simp only [haccepted.commandText.1, spelledBy_accepted]
  split
  · exact hremoved
  · rename_i fragment hfragment
    exact hremoved.insert hP (hy fragment hfragment)

/-! ## Deleting the last character -/

theorem isRemovable_of_isCommandChar {a : Atom} (hw : a.isWellFormed = true)
    (ha : isCommandChar a = true) : isRemovable a = true := by
  have hk : a.kind = .command := by simpa [isCommandChar] using ha
  have hscripts : a.hasScripts = false := by
    refine Atom.hasScripts_eq_false.2 fun slot hs => Atom.branch_eq_none hw ?_
    rw [Atom.allowsSlot_of_isScript hs, hk]
    rfl
  simp [isRemovable, Atom.isLeaf, hk, Kind.shape, hscripts]

theorem TypesCommand.hasNoCommand
    (h : e.TypesCommand root q slot owner atoms before chars suggested after) :
    e.hasNoCommand = false := by
  have hpos := List.length_pos_iff.2 h.ne_nil
  unfold Editor.hasNoCommand
  rw [h.onCommandRun, beq_eq_false_iff_ne]
  simp only
  omega

theorem TypesCommand.deleteBackward {a : Atom}
    (h : e.TypesCommand root q slot owner atoms before (chars ++ [a]) suggested after) :
    ∃ e' : Editor, e'.Opened root q slot owner atoms (before ++ chars ++ (suggested ++ after)) ∧
      e'.mode = .command ∧ e.deleteBackward =
        e'.settleCaret (q.child slot (before ++ chars).length) (((before ++ chars).length : Int) - 1) := by
  have hmem : a ∈ chars ++ [a] := by simp
  have hremovable : isRemovable a = true :=
    isRemovable_of_isCommandChar (h.wellFormed_chars a (List.mem_append_left _ hmem))
      (h.typed.isCommandChar a hmem)
  have hcaret : ((before.length + (chars ++ [a]).length : Nat) : Int) - 1 =
      ((before ++ chars).length : Nat) := by
    simp only [List.length_append, List.length_singleton]
    omega
  have hopened := h.toOpenedAtCaret
  rw [hcaret, ← List.append_assoc before] at hopened
  obtain ⟨e', hopened', hmode, hdeleted⟩ := hopened.deleteBackward hremovable
  exact ⟨e', hopened', hmode.trans h.mode_eq, hdeleted⟩

/-- Deleting a character leaves a shorter command. -/
theorem TypesCommand.delete {a : Atom} (hne : chars ≠ [])
    (h : e.TypesCommand root q slot owner atoms before (chars ++ [a]) suggested after) :
    ∃ e' : Editor, e.delete .backward 1 = .done e' ∧
      e'.TypesCommand root q slot owner atoms before chars suggested after := by
  obtain ⟨e', hopened, hmode, hdeleted⟩ := h.deleteBackward
  have hleft : before ++ chars ++ (suggested ++ after) ≠ [] := by simp [hne]
  have hsettled := hopened.openedAtCaret_settleCaret (before ++ chars).length
    (isOffset_length_sub_one (before ++ chars) (suggested ++ after)) fun hempty => absurd hempty hleft
  rw [settled_of_ne_nil owner slot _ hleft, ← hdeleted, List.length_append] at hsettled
  have htyped : e.deleteBackward.TypesCommand root q slot owner atoms before chars suggested after :=
    ⟨hsettled, hdeleted ▸ (mode_settleCaret ..).trans hmode, hne,
      ⟨fun b hb => h.typed.isCommandChar b (List.mem_append_left _ hb),
        fun b hb => h.typed.exists_char b (List.mem_append_left _ hb),
        fun b hb => h.typed.isSuggested b (List.mem_append_left _ hb)⟩, h.rest, h.before, h.after⟩
  have hkept : e.deleteBackward.leaveEmptyCommand = e.deleteBackward := by
    simp [leaveEmptyCommand, htyped.hasNoCommand]
  refine ⟨e.deleteBackward, ?_, htyped⟩
  unfold Editor.delete
  rw [h.sound.whenValid]
  exact congrArg Outcome.done hkept

/-- Where there are no characters of commands, none are around the caret. -/
theorem Sound.hasNoCommand (hP : Label.Plain P) (h : e.Sound) (hr : e.root.ConsistsOf P) :
    e.hasNoCommand = true := by
  obtain ⟨q, slot, offset, owner, atoms, hp, hb, -⟩ := h.caret
  have hnone := hP.not_isCommandChar (hb.items hr)
  unfold Editor.hasNoCommand Editor.onCommandRun
  rw [hp, hb.branch?, Path.offset_child]
  exact beq_iff_eq.2 (CommandRun.start_eq_stop hnone offset)

/-- Deleting the backslash leads back to the formula. -/
theorem TypesIn.delete {a : Atom} (hP : Label.Plain P)
    (h : e.TypesIn P root q slot owner atoms before [a] [] after) :
    (e.delete .backward 1).state.InMath P := by
  have htyping : e.TypesCommand root q slot owner atoms before ([] ++ [a]) [] after := h.typesCommand
  obtain ⟨e', hopened, hmode, hdeleted⟩ := htyping.deleteBackward
  have hitems : Items P (before ++ [] ++ ([] ++ after)) := by
    simpa using Atom.items_append h.items_before h.items_after
  have hsound : e.deleteBackward.Sound := h.typesCommand.sound.deleteBackward
  have hconsists : e.deleteBackward.root.ConsistsOf P :=
    hdeleted ▸ hopened.consistsOf_settleCaret hP.toLasting h.consistsOf hitems _ _
  have hcommand : e.deleteBackward.mode = .command := hdeleted ▸ (mode_settleCaret ..).trans hmode
  have hleft : e.deleteBackward.leaveEmptyCommand = { e.deleteBackward with mode := .math } := by
    simp [leaveEmptyCommand, hcommand, hsound.hasNoCommand hP hconsists]
  unfold Editor.delete
  rw [h.typesCommand.sound.whenValid]
  show InMath P e.deleteBackward.leaveEmptyCommand
  rw [hleft]
  exact ⟨hsound.of_eq rfl rfl, hconsists, rfl⟩

end Editor

end FormulaEditor

import FormulaEditor.Proofs.Editor.CommandTyping

/-!
# Suggestions that leave a branch empty

Suggested characters are taken away without settling their branch. A branch that holds nothing else
is left empty, which makes the formula ill-formed where the branch may not be empty; in every other
case the editor stays sound. `onlySuggested` and `onlyTyped` single out the first case.
-/

namespace FormulaEditor

theorem countAtStart_eq_length_iff {α : Type} {p : α → Bool} {xs : List α} :
    countAtStart p xs = xs.length ↔ ∀ x ∈ xs, p x = true := by
  induction xs with
  | nil => simp [countAtStart]
  | cons x xs ih =>
      have hle := countAtStart_le p xs
      unfold countAtStart at ih hle ⊢
      cases hx : p x <;> simp [hx, ih]

theorem countAtEnd_eq_length_iff {α : Type} {p : α → Bool} {xs : List α} :
    countAtEnd p xs = xs.length ↔ ∀ x ∈ xs, p x = true := by
  have h : countAtStart p xs.reverse = xs.reverse.length ↔ _ := countAtStart_eq_length_iff
  simpa [countAtStart, countAtEnd] using h

theorem forall_mem_take_drop {α : Type} {p : α → Prop} (xs : List α) (i : Nat) :
    (∀ x ∈ xs, p x) ↔ (∀ x ∈ xs.take i, p x) ∧ ∀ x ∈ xs.drop i, p x := by
  rw [← List.forall_mem_append, List.take_append_drop]

/-- The run of a command is the whole branch exactly if there is nothing else in the branch. -/
theorem CommandRun.whole_iff (atoms : List Atom) (offset : Int) :
    ((CommandRun.around atoms offset).start = 0 ∧
        (CommandRun.around atoms offset).stop = atoms.length) ↔
      ∀ a ∈ atoms, isCommandChar a = true := by
  unfold CommandRun.around
  generalize hc : min (offset + 1).toNat atoms.length = caret
  have hle : caret ≤ atoms.length := hc ▸ Nat.min_le_right _ _
  have hbefore := countAtEnd_le isCommandChar (atoms.take caret)
  have hafter := countAtStart_le isCommandChar (atoms.drop caret)
  rw [forall_mem_take_drop atoms caret, ← countAtEnd_eq_length_iff, ← countAtStart_eq_length_iff]
  rw [List.length_take] at hbefore ⊢
  rw [List.length_drop] at hafter ⊢
  simp only
  omega

namespace Editor

variable {e : Editor}

/-- Whether the branch of the caret may not be empty. -/
def needsContent (e : Editor) : Bool :=
  match e.caret.slot?, e.caret.owner? e.root with
  | some slot, some owner => owner.kind.fillsSlot slot
  | _, _ => false

/-- Whether the branch of the caret may not be empty and holds nothing but suggested characters. -/
def onlySuggested (e : Editor) : Bool :=
  e.needsContent &&
    (e.caret.branch? e.root).any fun branch => branch.all fun a => isCommandChar a && isSuggested a

/-- Whether the branch of the caret may not be empty and holds nothing but at most `trim` characters
of a command, all of them before the caret. -/
def onlyTyped (e : Editor) (trim : Nat) : Bool :=
  e.needsContent && (e.caret.branch? e.root).any fun branch =>
    branch.length ≤ trim && e.caret.offset + 1 = branch.length && branch.all isCommandChar

/-- The editor is sound, or its formula is ill formed as a branch that needs content was emptied. -/
structure SoundUnless (e : Editor) (emptied : Bool) : Prop where
  isWellFormed_iff : e.root.isWellFormed = true ↔ emptied = false
  sound : e.root.isWellFormed = true → e.Sound

theorem SoundUnless.of_iff {emptied emptied' : Bool} (h : e.SoundUnless emptied)
    (hiff : emptied = false ↔ emptied' = false) : e.SoundUnless emptied' :=
  ⟨h.isWellFormed_iff.trans hiff, h.sound⟩

theorem needsContent_of_branch {q : Path} {slot : Slot} {offset : Int} {owner : Atom}
    {atoms : List Atom} (hp : e.caret = q.child slot offset)
    (hb : IsBranch e.root q slot owner atoms) : e.needsContent = owner.kind.fillsSlot slot := by
  simp [needsContent, hp, hb.atom?_eq]

theorem OpenedAtCaret.isWellFormed_iff {root : Atom} {q : Path} {slot : Slot} {owner : Atom}
    {atoms content : List Atom} {offset : Int}
    (h : e.OpenedAtCaret root q slot owner atoms content offset) :
    e.root.isWellFormed = true ↔ (owner.kind.fillsSlot slot = true → content ≠ []) :=
  ⟨fun hw => (h.isBranch.wellFormed hw).filled, h.isWellFormed_root⟩

/-- An editor whose caret is in an opened branch is sound as soon as its formula is well formed. -/
theorem OpenedAtCaret.sound {root : Atom} {q : Path} {slot : Slot} {owner : Atom}
    {atoms content : List Atom} {offset : Int}
    (h : e.OpenedAtCaret root q slot owner atoms content offset)
    (hw : e.root.isWellFormed = true) : e.Sound :=
  h.toOpened.sound (h.isWellFormed_iff.1 hw) h.selection_eq h.isOffset h.isOffset

/-! ## Taking suggestions away -/

/-- What is left of a branch without the suggested characters of a run in it. -/
def withoutSuggested (atoms : List Atom) (run : CommandRun) : List Atom :=
  splice atoms run.start run.stop
    ((slice atoms run.start run.caret).filter (fun a => !isSuggested a) ++
      (slice atoms run.caret run.stop).filter fun a => !isSuggested a)

/-- Nothing is left exactly if there was nothing but suggested characters. -/
theorem withoutSuggested_eq_nil_iff (atoms : List Atom) (offset : Int) :
    withoutSuggested atoms (CommandRun.around atoms offset) = [] ↔
      ∀ a ∈ atoms, isCommandChar a = true ∧ isSuggested a = true := by
  obtain ⟨hstart, hstop, hend⟩ := CommandRun.bounds atoms offset
  have hwhole := CommandRun.whole_iff atoms offset
  simp only [withoutSuggested, splice, List.append_eq_nil_iff, List.take_eq_nil_iff,
    List.drop_eq_nil_iff, List.filter_eq_nil_iff, Bool.not_eq_true', Bool.not_eq_false]
  constructor
  · rintro ⟨⟨hzero, hbefore, hafter⟩, hlen⟩
    rcases hzero with hzero | rfl
    · have hall := hwhole.1 ⟨hzero, Nat.le_antisymm hend hlen⟩
      rw [hzero] at hbefore
      have hsuggested : ∀ a ∈ atoms, isSuggested a = true := by
        refine (forall_mem_take_drop atoms (CommandRun.around atoms offset).caret).2
          ⟨hbefore, ?_⟩
        rwa [slice, List.take_of_length_le hlen] at hafter
      exact fun a ha => ⟨hall a ha, hsuggested a ha⟩
    · simp
  · intro hall
    obtain ⟨hzero, hlen⟩ := hwhole.2 fun a ha => (hall a ha).1
    refine ⟨⟨Or.inl hzero, ?_, ?_⟩, Nat.le_of_eq hlen.symm⟩
    · exact fun a ha => (hall a (List.mem_of_mem_take (List.mem_of_mem_drop ha))).2
    · exact fun a ha => (hall a (List.mem_of_mem_take (List.mem_of_mem_drop ha))).2

/-- How many characters of a run were typed before the caret. -/
def typedBefore (atoms : List Atom) (run : CommandRun) : Nat :=
  ((slice atoms run.start run.caret).filter fun a => !isSuggested a).length

/-- Removing suggestions opens the branch of the caret. -/
theorem Opened.removeSuggestion {root : Atom} {q : Path} {slot : Slot} {owner : Atom}
    {atoms content : List Atom} (h : e.Opened root q slot owner atoms content) {offset : Int}
    (hp : e.caret = q.child slot offset) :
    e.removeSuggestion.OpenedAtCaret root q slot owner atoms
      (withoutSuggested content (CommandRun.around content offset))
      ((CommandRun.around content offset).start +
        typedBefore content (CommandRun.around content offset) - 1) := by
  obtain ⟨hstart, hstop, hend⟩ := CommandRun.bounds content offset
  have hwf : ∀ a ∈ withoutSuggested content (CommandRun.around content offset),
      a.isWellFormed = true := by
    refine isWellFormed_splice h.wellFormed fun a ha => ?_
    rcases List.mem_append.1 ha with ha | ha
    · exact isWellFormed_slice h.wellFormed _ _ a (List.mem_filter.1 ha).1
    · exact isWellFormed_slice h.wellFormed _ _ a (List.mem_filter.1 ha).1
  unfold Editor.removeSuggestion Editor.onCommandRun
  simp only [hp, h.branch?, Path.offset_child, Path.withOffset_child]
  refine ⟨(h.putBranch offset hwf).setCaret _, rfl, ?_, ?_⟩
  · simp only [leadingGap]
    omega
  · rw [withoutSuggested, length_splice _ _ _ (by omega), List.length_append]
    simp only [typedBefore]
    omega

theorem Sound.caretBranch (h : e.Sound) :
    ∃ q slot offset owner atoms, e.caret = q.child slot offset ∧
      IsBranch e.root q slot owner atoms ∧ IsOffset atoms offset := by
  obtain ⟨q, slot, offset, owner, atoms, hp, hb, ho⟩ := h.caret
  exact ⟨q, slot, offset, owner, atoms, hp, hb, ho⟩

/-- Removing suggestions leaves the editor sound, unless it empties a branch that needs content. -/
theorem Sound.removeSuggestion (h : e.Sound) :
    e.removeSuggestion.SoundUnless e.onlySuggested := by
  obtain ⟨q, slot, offset, owner, atoms, hp, hb, -⟩ := h.caretBranch
  have hopened := (h.opened hb).removeSuggestion hp
  refine ⟨?_, hopened.sound⟩
  have hnil := withoutSuggested_eq_nil_iff atoms offset
  have hbranch : e.caret.branch? e.root = some atoms := by rw [hp, hb.branch?]
  rw [hopened.isWellFormed_iff, onlySuggested, needsContent_of_branch hp hb, hbranch,
    Option.any_some, ← Bool.not_eq_true, Bool.and_eq_true, List.all_eq_true]
  simp only [Bool.and_eq_true, ne_eq, hnil, not_and]

/-! ## Putting suggestions in -/

theorem length_newCommandChars (text : List Char) (n : Nat) :
    (newCommandChars text n).1.length = text.length := by
  induction text generalizing n with
  | nil => rfl
  | cons c rest ih =>
      simp only [newCommandChars, Minting.bind_apply, Minting.pure_apply, List.length_cons, ih]

theorem isWellFormed_newCommandChars (text : List Char) (n : Nat) :
    ∀ a ∈ (newCommandChars text n).1, a.isWellFormed = true := by
  induction text generalizing n with
  | nil => simp [newCommandChars]
  | cons c rest ih =>
      intro a ha
      simp only [newCommandChars, Minting.bind_apply, Minting.pure_apply, List.mem_cons] at ha
      rcases ha with rfl | ha
      · exact Atom.isWellFormed_leaf (rfl : Kind.shape .command = .leaf) _ _ _
      · exact ih _ a ha

/-- What the branch of the caret holds after a suggestion was put in place of the last `trim`
characters of the command before the caret. -/
def withSuggestion (atoms : List Atom) (run : CommandRun) (trim : Nat) (chars : List Atom) :
    List Atom :=
  splice atoms (run.caret - min trim (run.caret - run.start)) run.caret (chars.map asSuggested)

theorem withSuggestion_eq_nil_iff {atoms : List Atom} {offset : Int} (ho : IsOffset atoms offset)
    (trim : Nat) (chars : List Atom) :
    withSuggestion atoms (CommandRun.around atoms offset) trim chars = [] ↔
      chars = [] ∧ atoms.length ≤ trim ∧ offset + 1 = atoms.length ∧
        ∀ a ∈ atoms, isCommandChar a = true := by
  obtain ⟨hstart, hstop, hend⟩ := CommandRun.bounds atoms offset
  have hcaret : ((CommandRun.around atoms offset).caret : Int) = offset + 1 := by
    obtain ⟨hl, hr⟩ := ho
    simp only [leadingGap] at hl
    unfold CommandRun.around
    simp only
    omega
  have hlen := List.length_eq_zero_iff (l := atoms)
  simp only [withSuggestion, splice, List.append_eq_nil_iff, List.take_eq_nil_iff,
    List.drop_eq_nil_iff, List.map_eq_nil_iff, ← CommandRun.whole_iff atoms offset, ← hlen]
  constructor
  · rintro ⟨⟨hzero, hchars⟩, hend⟩
    exact ⟨hchars, by omega, by omega, by omega, by omega⟩
  · rintro ⟨hchars, htrim, hlast, hzero, hwhole⟩
    exact ⟨⟨by omega, hchars⟩, by omega⟩

theorem OpenedAtCaret.insertSuggestion {root : Atom} {q : Path} {slot : Slot} {owner : Atom}
    {atoms content : List Atom} {offset : Int}
    (h : e.removeSuggestion.OpenedAtCaret root q slot owner atoms content offset)
    (text : List Char) (trim : Nat) :
    ∃ chars offset', chars.length = text.length ∧
      (e.insertSuggestion text trim).OpenedAtCaret root q slot owner atoms
        (withSuggestion content (CommandRun.around content offset) trim chars) offset' := by
  obtain ⟨hstart, hstop, hend⟩ := CommandRun.bounds content offset
  have hwf : ∀ a ∈ withSuggestion content (CommandRun.around content offset) trim
      (newCommandChars text e.removeSuggestion.supply).1, a.isWellFormed = true := by
    refine isWellFormed_splice h.wellFormed fun a ha => ?_
    obtain ⟨b, hb, rfl⟩ := List.mem_map.1 ha
    exact (Atom.isWellFormed_mapMarks b _).2 (isWellFormed_newCommandChars text _ b hb)
  have hminted := h.of_root_eq
    (rfl : (e.removeSuggestion.mint (newCommandChars text)).2.root = e.removeSuggestion.root)
  have hcaret : (e.removeSuggestion.mint (newCommandChars text)).2.caret = q.child slot offset :=
    h.caret_eq
  refine ⟨(newCommandChars text e.removeSuggestion.supply).1,
    (((CommandRun.around content offset).caret -
      min trim ((CommandRun.around content offset).caret - (CommandRun.around content offset).start) :
        Nat) : Int) - 1, length_newCommandChars text _, ?_⟩
  unfold Editor.insertSuggestion Editor.onCommandRun
  simp only [h.caret_eq, h.branch?, Path.offset_child, hcaret, Path.withOffset_child]
  refine ⟨(hminted.putBranch offset hwf).setCaret _, rfl, ?_, ?_⟩
  · simp only [leadingGap]
    omega
  · rw [withSuggestion, length_splice _ _ _ (by omega)]
    omega

/-- Putting a suggestion in leaves the editor sound, unless it takes the last typed characters of a
branch that needs content and puts nothing in their place. -/
theorem Sound.insertSuggestion (h : e.Sound) (text : List Char) (trim : Nat) :
    (e.insertSuggestion text trim).SoundUnless
      (text.isEmpty && e.removeSuggestion.onlyTyped trim) := by
  obtain ⟨q, slot, offset, owner, atoms, hp, hb, -⟩ := h.caretBranch
  have hremoved := (h.opened hb).removeSuggestion hp
  obtain ⟨chars, offset', hlength, hopened⟩ := hremoved.insertSuggestion text trim
  refine ⟨?_, hopened.sound⟩
  have hchars : chars = [] ↔ text = [] := by
    rw [← List.length_eq_zero_iff, hlength, List.length_eq_zero_iff]
  have hnil := withSuggestion_eq_nil_iff hremoved.isOffset trim chars
  have hbranch := hremoved.branch? ((CommandRun.around atoms offset).start +
    typedBefore atoms (CommandRun.around atoms offset) - 1)
  have hneeds := needsContent_of_branch hremoved.caret_eq hremoved.isBranch
  rw [Atom.kind_putBranch] at hneeds
  rw [hopened.isWellFormed_iff, onlyTyped, hneeds, hremoved.caret_eq, hbranch, Option.any_some,
    Path.offset_child, ← Bool.not_eq_true]
  simp only [Bool.and_eq_true, decide_eq_true_eq, List.all_eq_true, List.isEmpty_iff, ne_eq, hnil,
    hchars]
  constructor
  · rintro hfills ⟨htext, hneeds, ⟨htrim, hlast⟩, hall⟩
    exact hfills hneeds ⟨htext, htrim, hlast, hall⟩
  · rintro hnot hneeds ⟨htext, htrim, hlast, hall⟩
    exact hnot ⟨htext, hneeds, ⟨htrim, hlast⟩, hall⟩

/-! ## Marking what is suggested -/

/-- Marking the command does not change whether its branch is empty. -/
theorem OpenedAtCaret.decorateCommand {root : Atom} {q : Path} {slot : Slot} {owner : Atom}
    {atoms content : List Atom} {offset : Int}
    (h : e.OpenedAtCaret root q slot owner atoms content offset) (error : Bool) :
    ((e.decorateCommand error).root.isWellFormed = true ↔ e.root.isWellFormed = true) ∧
      ((e.decorateCommand error).root.isWellFormed = true → (e.decorateCommand error).Sound) := by
  obtain ⟨hstart, hstop, hend⟩ := CommandRun.bounds content offset
  have hmarked := h.toOpened.mapRun h.caret_eq (CommandRun.around content offset).start
    (CommandRun.around content offset).stop fun m => { m with error := error }
  generalize hrun : remarked content _ _ _ = marked at hmarked
  have hlength : marked.length = content.length := by
    rw [← hrun, remarked, length_splice_map _ content (Nat.le_trans hstart hstop) hend]
  have hopened : (e.decorateCommand error).OpenedAtCaret root q slot owner atoms marked offset := by
    unfold Editor.decorateCommand Editor.onCommandRun
    simp only [h.caret_eq, h.branch?, Path.offset_child]
    exact ⟨hmarked, h.selection_eq, h.isOffset.1, by rw [hlength]; exact h.isOffset.2⟩
  refine ⟨?_, hopened.sound⟩
  rw [hopened.isWellFormed_iff, h.isWellFormed_iff, ne_eq, ne_eq, ← List.length_eq_zero_iff,
    ← List.length_eq_zero_iff (l := content), hlength]

theorem Sound.decorateCommand_removeSuggestion (h : e.Sound) (error : Bool) :
    (e.removeSuggestion.decorateCommand error).SoundUnless e.onlySuggested := by
  obtain ⟨q, slot, offset, owner, atoms, hp, hb, -⟩ := h.caretBranch
  obtain ⟨hiff, hsound⟩ := ((h.opened hb).removeSuggestion hp).decorateCommand error
  exact ⟨hiff.trans h.removeSuggestion.isWellFormed_iff, hsound⟩

theorem Sound.decorateCommand_insertSuggestion (h : e.Sound) (text : List Char) (trim : Nat)
    (error : Bool) :
    ((e.insertSuggestion text trim).decorateCommand error).SoundUnless
      (text.isEmpty && e.removeSuggestion.onlyTyped trim) := by
  obtain ⟨q, slot, offset, owner, atoms, hp, hb, -⟩ := h.caretBranch
  obtain ⟨chars, offset', -, hopened⟩ :=
    ((h.opened hb).removeSuggestion hp).insertSuggestion text trim
  obtain ⟨hiff, hsound⟩ := hopened.decorateCommand error
  exact ⟨hiff.trans (h.insertSuggestion text trim).isWellFormed_iff, hsound⟩

/-! ## What was typed -/

/-- A branch that needs content has some. -/
theorem Sound.onlyTyped_zero (h : e.Sound) : e.onlyTyped 0 = false := by
  obtain ⟨q, slot, offset, owner, atoms, hp, hb, -⟩ := h.caretBranch
  have hbranch : e.caret.branch? e.root = some atoms := by rw [hp, hb.branch?]
  have hfilled := (hb.wellFormed h.isWellFormed).filled
  rw [onlyTyped, needsContent_of_branch hp hb, hbranch, Option.any_some]
  cases hneeds : owner.kind.fillsSlot slot with
  | false => rfl
  | true =>
      have hpos := List.length_pos_iff.2 (hfilled hneeds)
      simp only [Bool.true_and]
      rw [decide_eq_false (by omega : ¬ atoms.length ≤ 0)]
      rfl

/-- Where everything is suggested, nothing was typed. -/
theorem commandTextBefore_of_onlySuggested (h : e.onlySuggested = true) :
    e.commandTextBefore = [] := by
  unfold commandTextBefore onCommandRun
  unfold onlySuggested at h
  cases hbranch : e.caret.branch? e.root with
  | none => rfl
  | some branch =>
      simp only [hbranch, Option.any_some, Bool.and_eq_true, List.all_eq_true] at h
      have hnone : (slice branch (CommandRun.around branch e.caret.offset).start
          (CommandRun.around branch e.caret.offset).caret).filter (fun a => !isSuggested a) = [] := by
        refine List.filter_eq_nil_iff.2 fun a ha => ?_
        simp [(h.2 a (List.mem_of_mem_take (List.mem_of_mem_drop ha))).2]
      simp only [typedText, hnone, List.flatMap_nil]

/-- Atoms inserted at the caret are in the branch of the caret then. -/
theorem Sound.exists_branch_insertAtCaret (h : e.Sound) {inserted : List Atom}
    (hi : ∀ a ∈ inserted, a.isWellFormed = true) :
    ∃ branch, (e.insertAtCaret inserted).caret.branch? (e.insertAtCaret inserted).root = some branch ∧
      ∀ a ∈ inserted, a ∈ branch := by
  obtain ⟨q, slot, offset, owner, atoms, hp, hb, -⟩ := h.caretBranch
  have hopened := (h.opened hb).putBranch offset ((h.opened hb).isWellFormed_withInserted offset hi)
  unfold Editor.insertAtCaret
  simp only [hp, hb.branch?, Path.withOffset_child]
  refine ⟨_, hopened.branch? _, fun a ha => ?_⟩
  simp [withInserted, splice, ha]

/-- A character that was typed is not suggested. -/
theorem Sound.onlySuggested_typeIntoCommand (h : e.Sound) (c : Char) :
    (e.typeIntoCommand c).onlySuggested = false := by
  have hminted : (e.removeSelection.mint (Atom.newCommandChar c)).2.Sound :=
    h.removeSelection.of_eq rfl rfl
  obtain ⟨branch, hbranch, hmem⟩ :=
    hminted.exists_branch_insertAtCaret (isWellFormed_commandChar c e.removeSelection.supply)
  have htyped : isSuggested (Atom.newCommandChar c e.removeSelection.supply).1 = false := rfl
  have hall : (branch.all fun a => isCommandChar a && isSuggested a) = false := by
    refine List.all_eq_false.2 ⟨_, hmem _ (List.mem_singleton_self _), ?_⟩
    rw [htyped, Bool.and_false]
    simp
  have hcaret : (e.typeIntoCommand c).caret.branch? (e.typeIntoCommand c).root = some branch :=
    hbranch
  unfold onlySuggested
  rw [hcaret, Option.any_some, hall, Bool.and_false]

end Editor

end FormulaEditor

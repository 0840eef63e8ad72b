import Mathlib.Data.List.DropRight
import FormulaEditor.Proofs.Editor.Completing
import FormulaEditor.Proofs.Formula.Lens

/-!
# Suggestions that are withdrawn

Around the caret a command may hold typed and suggested characters in any order. Removing the
suggestions takes just these out and leaves the caret behind the same typed characters, and a
suggestion that was put into a command without any is taken out again without a trace.
-/

namespace FormulaEditor.Editor

variable {e : Editor} {branch head before after tail : List Atom} {offset : Int}

/-- The atoms that are not suggested. -/
def unsuggested (atoms : List Atom) : List Atom :=
  atoms.filter fun a => !isSuggested a

/-- The atoms before the caret in its branch that are not suggested. -/
def unsuggestedBeforeCaret (e : Editor) : List Atom :=
  unsuggested (((e.caret.branch? e.root).getD []).take (e.caret.offset + 1).toNat)

theorem unsuggested_append (as bs : List Atom) :
    unsuggested (as ++ bs) = unsuggested as ++ unsuggested bs :=
  List.filter_append as bs

theorem unsuggested_unsuggested (atoms : List Atom) :
    unsuggested (unsuggested atoms) = unsuggested atoms := by
  simp [unsuggested]

theorem unsuggested_eq_self {atoms : List Atom} (h : ∀ a ∈ atoms, isSuggested a = false) :
    unsuggested atoms = atoms := by
  apply List.filter_eq_self.2
  intro a ha
  rw [h a ha]
  rfl

theorem unsuggested_map_asSuggested (atoms : List Atom) :
    unsuggested (atoms.map asSuggested) = [] := by
  apply List.filter_eq_nil_iff.2
  intro a ha
  obtain ⟨⟨label, branches⟩, -, rfl⟩ := List.mem_map.1 ha
  simp [asSuggested, isSuggested, Atom.mapMarks, Atom.mapLabel, Atom.marks]

/-! ## The command around a gap -/

/-- A branch that is cut at a gap and at both ends of the command around the gap: `before` and `after`
are the characters of the command on either side, and none stands next to them. -/
structure CommandCut (branch : List Atom) (offset : Int) (head before after tail : List Atom) :
    Prop where
  branch_eq : branch = head ++ before ++ (after ++ tail)
  offset_eq : offset = ((head ++ before).length : Int) - 1
  before_isCommandChar : ∀ a ∈ before, isCommandChar a = true
  after_isCommandChar : ∀ a ∈ after, isCommandChar a = true
  head_getLast? : ∀ a ∈ head.getLast?, isCommandChar a = false
  tail_head? : ∀ a ∈ tail.head?, isCommandChar a = false

/-- Every gap of a branch has a command around it, if an empty one. -/
theorem exists_commandCut (h : IsOffset branch offset) :
    ∃ head before after tail, CommandCut branch offset head before after tail := by
  obtain ⟨hleft, hright⟩ := h
  simp only [leadingGap] at hleft
  have hcaret : (offset + 1).toNat ≤ branch.length := by omega
  generalize hi : (offset + 1).toNat = i at hcaret
  have hfront : (branch.take i).rdropWhile isCommandChar ++ (branch.take i).rtakeWhile isCommandChar =
      branch.take i := by
    rw [List.rdropWhile, List.rtakeWhile, ← List.reverse_append, List.takeWhile_append_dropWhile,
      List.reverse_reverse]
  refine ⟨(branch.take i).rdropWhile isCommandChar, (branch.take i).rtakeWhile isCommandChar,
    (branch.drop i).takeWhile isCommandChar, (branch.drop i).dropWhile isCommandChar, ?_⟩
  constructor
  case branch_eq => rw [hfront, List.takeWhile_append_dropWhile, List.take_append_drop]
  case offset_eq =>
    rw [hfront, List.length_take]
    omega
  case before_isCommandChar => exact fun a ha => List.mem_rtakeWhile_imp ha
  case after_isCommandChar => exact fun a ha => List.mem_takeWhile_imp ha
  case head_getLast? =>
    intro a ha
    obtain ⟨hne, rfl⟩ := List.mem_getLast?_eq_getLast ha
    exact Bool.not_eq_true _ ▸ List.rdropWhile_last_not isCommandChar _ hne
  case tail_head? =>
    intro a ha
    have hhead := List.head?_dropWhile_not isCommandChar (branch.drop i)
    rw [Option.mem_def.1 ha] at hhead
    exact hhead

/-- The run that the editor finds around the gap is the command. -/
theorem CommandCut.around_eq (h : CommandCut branch offset head before after tail) :
    CommandRun.around branch offset = ⟨head.length, head.length + before.length + after.length,
      head.length + before.length⟩ := by
  have hindex : offset = ((head.length + before.length : Nat) : Int) - 1 := by
    rw [h.offset_eq, List.length_append]
  rw [h.branch_eq, hindex]
  exact CommandRun.around_append h.head_getLast? h.before_isCommandChar h.after_isCommandChar
    h.tail_head?

theorem onCommandRun_of_cut (hb : e.caret.branch? e.root = some branch)
    (h : CommandCut branch e.caret.offset head before after tail) {α : Type} (default : α)
    (f : List Atom → CommandRun → α) :
    e.onCommandRun default f = f (head ++ before ++ (after ++ tail))
      ⟨head.length, head.length + before.length + after.length, head.length + before.length⟩ := by
  unfold Editor.onCommandRun
  rw [hb]
  simp only [h.around_eq]
  rw [h.branch_eq]

/-! ## Taking suggestions out -/

/-- Just the suggested characters of the command are taken out. -/
theorem removeSuggestion_of_cut (hb : e.caret.branch? e.root = some branch)
    (h : CommandCut branch e.caret.offset head before after tail) :
    e.removeSuggestion =
      (e.putBranch e.caret (head ++ unsuggested before ++ (unsuggested after ++ tail))).setCaret
        (e.caret.withOffset (((head ++ unsuggested before).length : Int) - 1)) := by
  obtain ⟨hbefore, hafter, -⟩ := slice_command head before after tail
  unfold Editor.removeSuggestion
  rw [onCommandRun_of_cut hb h]
  simp only [hbefore, hafter, splice_command]
  rw [← unsuggested, ← unsuggested, List.append_assoc head, List.append_assoc (unsuggested before),
    List.append_assoc head, List.length_append, Int.natCast_add]

/-- In a command without suggestions there is nothing to take out. -/
theorem removeSuggestion_of_unsuggested (hb : e.caret.branch? e.root = some branch)
    (h : CommandCut branch e.caret.offset head before after tail)
    (hnone : ∀ a ∈ before ++ after, isSuggested a = false) :
    e.removeSuggestion = e.setCaret e.caret := by
  obtain ⟨hbefore, hafter⟩ := List.forall_mem_append.1 hnone
  rw [removeSuggestion_of_cut hb h, unsuggested_eq_self hbefore, unsuggested_eq_self hafter,
    ← h.branch_eq, ← h.offset_eq, Path.withOffset_offset, Editor.putBranch, Path.putBranch_self hb]
  rfl

/-! ## Putting a suggestion in and taking it out -/

/-- The suggestion stands behind the caret, which does not move. -/
theorem insertSuggestion_of_unsuggested (hb : e.caret.branch? e.root = some branch)
    (h : CommandCut branch e.caret.offset head before after tail)
    (hnone : ∀ a ∈ before ++ after, isSuggested a = false) (text : List Char) :
    e.insertSuggestion text 0 =
      { (e.putBranch e.caret (head ++ before ++
          ((newCommandChars text e.supply).1.map asSuggested ++ after ++ tail))).setCaret e.caret with
        supply := (newCommandChars text e.supply).2 } := by
  have hsplice : splice (head ++ before ++ (after ++ tail)) (head.length + before.length)
      (head.length + before.length) ((newCommandChars text e.supply).1.map asSuggested) =
        head ++ before ++ ((newCommandChars text e.supply).1.map asSuggested ++ after ++ tail) := by
    have happ := splice_append_append (head ++ before) [] (after ++ tail)
      ((newCommandChars text e.supply).1.map asSuggested)
    simpa only [List.length_append, List.length_nil, Nat.add_zero, List.append_nil,
      List.append_assoc] using happ
  have hcaret : e.caret.withOffset (((head.length + before.length : Nat) : Int) - 1) = e.caret := by
    rw [← List.length_append, ← h.offset_eq, Path.withOffset_offset]
  unfold Editor.insertSuggestion
  rw [removeSuggestion_of_unsuggested hb h hnone]
  simp only [onCommandRun_of_cut (e := e.setCaret e.caret) hb h, Nat.zero_min, Nat.sub_zero]
  show setCaret (putBranch (mint _ _).2 e.caret (splice _ _ _ ((newCommandChars text e.supply).1.map _)))
    (e.caret.withOffset _) = _
  rw [hsplice, hcaret]
  rfl

/-- A suggestion that was put into a command without suggestions is taken out without a trace, but for
the identities that it used up. -/
theorem removeSuggestion_insertSuggestion (hb : e.caret.branch? e.root = some branch)
    (h : CommandCut branch e.caret.offset head before after tail)
    (hnone : ∀ a ∈ before ++ after, isSuggested a = false) (text : List Char) :
    (e.insertSuggestion text 0).removeSuggestion =
      { e.setCaret e.caret with supply := (newCommandChars text e.supply).2 } := by
  obtain ⟨hbefore, hafter⟩ := List.forall_mem_append.1 hnone
  let suggested := (newCommandChars text e.supply).1.map asSuggested
  let shown := head ++ before ++ (suggested ++ after ++ tail)
  have hcommand : ∀ a ∈ suggested, isCommandChar a = true :=
    ((commandChars_newCommandChars text e.supply).1.mapMarks
      (f := fun m => { m with suggestion := true }) fun _ _ => rfl).isCommandChar
  have hcut : CommandCut shown e.caret.offset head before (suggested ++ after) tail :=
    ⟨rfl, h.offset_eq, h.before_isCommandChar,
      List.forall_mem_append.2 ⟨hcommand, h.after_isCommandChar⟩, h.head_getLast?, h.tail_head?⟩
  have hshown : (e.insertSuggestion text 0).caret.branch? (e.insertSuggestion text 0).root =
      some shown := by
    rw [insertSuggestion_of_unsuggested hb h hnone]
    exact Path.branch?_putBranch hb shown
  have hcaret : (e.insertSuggestion text 0).caret = e.caret := by
    rw [insertSuggestion_of_unsuggested hb h hnone]
    rfl
  rw [removeSuggestion_of_cut hshown (hcaret ▸ hcut), hcaret,
    insertSuggestion_of_unsuggested hb h hnone, unsuggested_append, unsuggested_map_asSuggested,
    List.nil_append, unsuggested_eq_self hbefore, unsuggested_eq_self hafter, ← h.branch_eq,
    ← h.offset_eq, Path.withOffset_offset]
  have hroot : e.caret.putBranch branch (e.caret.putBranch shown e.root) = e.root := by
    rw [Path.putBranch_putBranch hb, Path.putBranch_self hb]
  show Editor.mk (e.caret.putBranch branch (e.caret.putBranch shown e.root)) _ _ _ _ _ _ = _
  rw [hroot]
  rfl

/-! ## What is left of the command -/

theorem branch?_removeSuggestion_of_cut (hb : e.caret.branch? e.root = some branch)
    (h : CommandCut branch e.caret.offset head before after tail) :
    e.removeSuggestion.caret.branch? e.removeSuggestion.root =
      some (head ++ unsuggested before ++ (unsuggested after ++ tail)) := by
  rw [removeSuggestion_of_cut hb h]
  exact (Path.branch?_withOffset ..).trans (Path.branch?_putBranch hb _)

theorem unsuggestedBeforeCaret_of_cut (hb : e.caret.branch? e.root = some branch)
    (h : CommandCut branch e.caret.offset head before after tail) :
    e.unsuggestedBeforeCaret = unsuggested (head ++ before) := by
  have hindex : (e.caret.offset + 1).toNat = (head ++ before).length := by
    rw [h.offset_eq, Int.sub_add_cancel, Int.toNat_natCast]
  rw [unsuggestedBeforeCaret, hb, hindex, Option.getD_some, h.branch_eq, List.take_left]

/-- The characters that were typed before the caret are still before it. -/
theorem unsuggestedBeforeCaret_removeSuggestion (hb : e.caret.branch? e.root = some branch)
    (h : CommandCut branch e.caret.offset head before after tail) :
    e.removeSuggestion.unsuggestedBeforeCaret = e.unsuggestedBeforeCaret := by
  have hindex : (e.removeSuggestion.caret.offset + 1).toNat =
      (head ++ unsuggested before).length := by
    rw [removeSuggestion_of_cut hb h]
    show ((e.caret.withOffset _).offset + 1).toNat = _
    rw [Path.offset_withOffset hb, Int.sub_add_cancel, Int.toNat_natCast]
  rw [unsuggestedBeforeCaret_of_cut hb h, unsuggestedBeforeCaret,
    branch?_removeSuggestion_of_cut hb h, hindex, Option.getD_some, List.take_left,
    unsuggested_append, unsuggested_unsuggested, unsuggested_append]

/-- Around every gap stands a command, if an empty one. Removing its suggestions takes out just the
suggested characters, and the atoms before the caret that are not suggested stay before it. If there
are none, a suggestion that is put in at the caret is taken out again without a trace, but for the
identities that it used up. -/
theorem removeSuggestion_takes (hb : e.caret.branch? e.root = some branch)
    (ho : IsOffset branch e.caret.offset) :
    (∃ head before after tail, CommandCut branch e.caret.offset head before after tail) ∧
    ∀ head before after tail, CommandCut branch e.caret.offset head before after tail →
      e.removeSuggestion =
        (e.putBranch e.caret (head ++ unsuggested before ++ (unsuggested after ++ tail))).setCaret
          (e.caret.withOffset (((head ++ unsuggested before).length : Int) - 1)) ∧
      e.removeSuggestion.caret.branch? e.removeSuggestion.root =
        some (head ++ unsuggested before ++ (unsuggested after ++ tail)) ∧
      e.removeSuggestion.unsuggestedBeforeCaret = e.unsuggestedBeforeCaret ∧
      ((∀ a ∈ before ++ after, isSuggested a = false) → ∀ text,
        (e.insertSuggestion text 0).removeSuggestion =
          { e.setCaret e.caret with supply := (newCommandChars text e.supply).2 }) := by
  refine ⟨exists_commandCut ho, ?_⟩
  intro head before after tail hcut
  refine ⟨removeSuggestion_of_cut hb hcut, branch?_removeSuggestion_of_cut hb hcut,
    unsuggestedBeforeCaret_removeSuggestion hb hcut, ?_⟩
  intro hnone text
  exact removeSuggestion_insertSuggestion hb hcut hnone text

/-- A command between two letters. Of its four characters the second and the third one are suggested,
and the caret stands between these two. -/
def mixedCommand : Editor :=
  let letter (id : Nat) (c : Char) : Atom :=
    .leaf id .ordinary (some (String.singleton c)) (some c)
  let char (id : Nat) (c : Char) : Atom := .leaf id .command (some (String.singleton c)) (some c)
  let branch := [letter 1 'x', char 2 '\\', asSuggested (char 3 'a'), asSuggested (char 4 'b'),
    char 5 'c', letter 6 'y']
  (ofRoot (.node ⟨0, .root, none, none, Marks.none⟩ { Branches.none with body := some branch })
    7).setCaret (Path.inRoot 2)

theorem removeSuggestion_takes_mixedCommand :
    mixedCommand.caret.branch? mixedCommand.root = some mixedCommand.atoms ∧
    IsOffset mixedCommand.atoms mixedCommand.caret.offset ∧
    mixedCommand.removeSuggestion.caret = Path.inRoot 1 ∧
    (mixedCommand.removeSuggestion.caret.branch? mixedCommand.removeSuggestion.root).map
      (List.map Atom.id) = some [1, 2, 5, 6] := by
  have hb : mixedCommand.caret.branch? mixedCommand.root = some mixedCommand.atoms := rfl
  have ho : IsOffset mixedCommand.atoms mixedCommand.caret.offset := ⟨by decide, by decide⟩
  obtain ⟨-, htakes⟩ := removeSuggestion_takes hb ho
  have hcut : CommandCut mixedCommand.atoms mixedCommand.caret.offset
      (mixedCommand.atoms.take 1) (slice mixedCommand.atoms 1 3) (slice mixedCommand.atoms 3 5)
      (mixedCommand.atoms.drop 5) :=
    ⟨rfl, rfl, by decide, by decide, by decide, by decide⟩
  obtain ⟨hremoved, hbranch, -, -⟩ := htakes _ _ _ _ hcut
  refine ⟨hb, ho, ?_, ?_⟩
  · rw [hremoved]
    rfl
  · rw [hbranch]
    rfl

end FormulaEditor.Editor

import FormulaEditor.Editor.CommandEntry
import FormulaEditor.Proofs.Editor.Inserting

/-!
# Typing a command keeps an editor sound

The characters of a command are atoms of the branch of the caret. Typing puts one more there,
marking them changes no more than marks, and a command that is completed or discarded is taken out
and its branch settled.
-/

namespace FormulaEditor

theorem CommandRun.bounds (branch : List Atom) (offset : Int) :
    (CommandRun.around branch offset).start ≤ (CommandRun.around branch offset).caret ∧
      (CommandRun.around branch offset).caret ≤ (CommandRun.around branch offset).stop ∧
      (CommandRun.around branch offset).stop ≤ branch.length := by
  unfold CommandRun.around
  have hstop := countAtStart_le isCommandChar
    (branch.drop (min (offset + 1).toNat branch.length))
  rw [List.length_drop] at hstop
  simp only
  omega

theorem length_splice_map (f : Atom → Atom) (atoms : List Atom) {start stop : Nat}
    (hs : start ≤ stop) (he : stop ≤ atoms.length) :
    (splice atoms start stop ((slice atoms start stop).map f)).length = atoms.length := by
  rw [length_splice _ _ _ (Nat.le_trans hs he)]
  simp only [slice, List.length_map, List.length_drop, List.length_take]
  omega

namespace Editor

variable {e : Editor}

/-- The branch of the caret, with the run of command atoms around it. -/
theorem Sound.onCommandRun (h : e.Sound) :
    ∃ q slot offset owner atoms, e.caret = q.child slot offset ∧
      IsBranch e.root q slot owner atoms ∧ IsOffset atoms offset ∧
      ∀ {α : Type} (default : α) (f : List Atom → CommandRun → α),
        e.onCommandRun default f = f atoms (CommandRun.around atoms offset) := by
  obtain ⟨q, slot, offset, owner, atoms, hp, hb, ho⟩ := h.caret
  refine ⟨q, slot, offset, owner, atoms, hp, hb, ho, fun default f => ?_⟩
  unfold Editor.onCommandRun
  rw [hp, hb.branch?, Path.offset_child]

/-! ## Marks -/

/-- A run of a branch with changed marks. -/
def remarked (atoms : List Atom) (start stop : Nat) (f : Marks → Marks) : List Atom :=
  splice atoms start stop ((slice atoms start stop).map fun a => a.mapMarks f)

/-- Changing marks in a run of the branch of the caret. -/
theorem Opened.mapRun {root : Atom} {q : Path} {slot : Slot} {owner : Atom}
    {atoms content : List Atom} (h : e.Opened root q slot owner atoms content) {offset : Int}
    (hp : e.caret = q.child slot offset) (start stop : Nat) (f : Marks → Marks) :
    (e.mapRun content start stop fun a => a.mapMarks f).Opened root q slot owner atoms
      (remarked content start stop f) := by
  unfold Editor.mapRun
  rw [hp]
  refine h.putBranch offset (isWellFormed_splice h.wellFormed fun a ha => ?_)
  obtain ⟨b, hmem, rfl⟩ := List.mem_map.1 ha
  exact (Atom.isWellFormed_mapMarks b f).2 (isWellFormed_slice h.wellFormed start stop b hmem)

theorem Sound.mapRun (h : e.Sound) {q : Path} {slot : Slot} {offset : Int} {owner : Atom}
    {atoms : List Atom} (hp : e.caret = q.child slot offset)
    (hb : IsBranch e.root q slot owner atoms) {start stop : Nat} (hs : start ≤ stop)
    (he : stop ≤ atoms.length) (f : Marks → Marks) :
    (e.mapRun atoms start stop fun a => a.mapMarks f).Sound ∧
      ∃ owner' atoms', IsBranch (e.mapRun atoms start stop fun a => a.mapMarks f).root q slot owner'
        atoms' ∧ atoms'.length = atoms.length := by
  have hlength : (remarked atoms start stop f).length = atoms.length :=
    length_splice_map _ atoms hs he
  have hopened := (h.opened hb).mapRun hp start stop f
  have hf : owner.kind.fillsSlot slot = true → remarked atoms start stop f ≠ [] := by
    intro hf hnil
    have hne := (hb.wellFormed h.isWellFormed).filled hf
    rw [hnil, List.length_nil] at hlength
    exact hne (List.eq_nil_of_length_eq_zero hlength.symm)
  obtain ⟨q', slot', owner', atoms', anchor, focus, hsel⟩ := h.exists_selectsIn
  have hfocus : q'.child slot' focus = q.child slot offset := by
    rw [← hp, Editor.caret, hsel.selection_eq]
  obtain ⟨rfl, rfl, rfl⟩ := Path.child_injective hfocus
  obtain ⟨rfl, rfl⟩ := hb.unique hsel.branch
  refine ⟨hopened.sound hf hsel.selection_eq ?_ ?_, _, _, hopened.isBranch, hlength⟩
  · exact ⟨hsel.anchor.1, by rw [hlength]; exact hsel.anchor.2⟩
  · exact ⟨hsel.focus.1, by rw [hlength]; exact hsel.focus.2⟩

theorem Sound.decorateCommand (h : e.Sound) (error : Bool) : (e.decorateCommand error).Sound := by
  obtain ⟨q, slot, offset, owner, atoms, hp, hb, -, hrun⟩ := h.onCommandRun
  obtain ⟨hstart, hstop, hend⟩ := CommandRun.bounds atoms offset
  unfold Editor.decorateCommand
  rw [hrun]
  exact (h.mapRun hp hb (Nat.le_trans hstart hstop) hend _).1

theorem Sound.commitCommand (h : e.Sound) : e.commitCommand.Sound := by
  obtain ⟨q, slot, offset, owner, atoms, hp, hb, -, hrun⟩ := h.onCommandRun
  obtain ⟨hstart, hstop, hend⟩ := CommandRun.bounds atoms offset
  unfold Editor.commitCommand
  rw [hrun]
  exact (h.mapRun hp hb hstart (Nat.le_trans hstop hend) _).1

theorem Sound.acceptSuggestion (h : e.Sound) : e.acceptSuggestion.Sound := by
  obtain ⟨q, slot, offset, owner, atoms, hp, hb, -, hrun⟩ := h.onCommandRun
  obtain ⟨hstart, hstop, hend⟩ := CommandRun.bounds atoms offset
  obtain ⟨hsound, owner', atoms', hb', hlength⟩ :=
    h.mapRun hp hb (Nat.le_trans hstart hstop) hend fun m => { m with suggestion := false }
  unfold Editor.acceptSuggestion
  rw [hrun, hp, Path.withOffset_child]
  refine hsound.setCaret (hb'.isPosition ⟨?_, by omega⟩)
  simp only [leadingGap]
  omega

/-! ## Typing and discarding -/

theorem Sound.insertAtCaret (h : e.Sound) {inserted : List Atom}
    (hi : ∀ a ∈ inserted, a.isWellFormed = true) (hne : inserted ≠ []) :
    (e.insertAtCaret inserted).Sound := by
  obtain ⟨q, slot, offset, owner, atoms, hp, hb, ho⟩ := h.caret
  have hopened := (h.opened hb).putBranch offset ((h.opened hb).isWellFormed_withInserted offset hi)
  have hlength := length_withInserted ho q slot inserted
  have hpos := List.length_pos_iff.2 hne
  unfold Editor.insertAtCaret
  simp only [hp, hb.branch?, Path.withOffset_child]
  refine sound_setCaret hopened.kind_root_eq
    (hopened.isWellFormed_root fun _ => List.ne_nil_of_length_pos (by omega))
    (hopened.isBranch.isPosition ⟨?_, by omega⟩)
  simp only [leadingGap]
  omega

theorem isWellFormed_commandChar (c : Char) (n : Nat) :
    ∀ a ∈ [(Atom.newCommandChar c n).1], a.isWellFormed = true := by
  intro a ha
  rw [List.mem_singleton.1 ha]
  exact Atom.isWellFormed_leaf (rfl : Kind.shape .command = .leaf) _ _ _

theorem Sound.typeIntoCommand (h : e.Sound) (c : Char) : (e.typeIntoCommand c).Sound := by
  have hminted : (e.removeSelection.mint (Atom.newCommandChar c)).2.Sound :=
    h.removeSelection.of_eq rfl rfl
  exact hminted.insertAtCaret (isWellFormed_commandChar c _) (by simp)

theorem Sound.removeCommand (h : e.Sound) : e.removeCommand.Sound := by
  have hmath : ({ e with mode := .math } : Editor).Sound := h.of_eq rfl rfl
  obtain ⟨q, slot, offset, owner, atoms, hp, hb, -, hrun⟩ := hmath.onCommandRun
  obtain ⟨hstart, hstop, hend⟩ := CommandRun.bounds atoms offset
  unfold Editor.removeCommand
  simp only [hrun, hp]
  exact ((hmath.opened hb).remove offset _ _).sound_settleCaret _ fun _ =>
    isOffset_splice (by omega)

theorem Sound.completeCommand (h : e.Sound) : CarriedOut e.completeCommand := by
  have hremoved := h.acceptSuggestion.removeCommand
  unfold Editor.completeCommand
  rw [h.whenValid]
  simp only
  split
  · exact carriedOut_done hremoved
  · exact hremoved.insert _ _

end Editor

end FormulaEditor

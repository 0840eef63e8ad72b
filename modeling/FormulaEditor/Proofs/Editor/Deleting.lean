import FormulaEditor.Editor.Deletion
import FormulaEditor.Proofs.Editor.Navigation
import FormulaEditor.Proofs.Editor.Opened

/-!
# Deletion keeps an editor sound

A deletion opens a branch, takes atoms out of it or dissolves one of them into it, and settles it.
-/

namespace FormulaEditor

theorem mem_of_mem_splice {α : Type} {xs middle : List α} {start stop : Nat} {x : α}
    (h : x ∈ splice xs start stop middle) : x ∈ xs ∨ x ∈ middle := by
  simp only [splice, List.mem_append] at h
  rcases h with (h | h) | h
  · exact Or.inl (List.mem_of_mem_take h)
  · exact Or.inr h
  · exact Or.inl (List.mem_of_mem_drop h)

theorem length_splice {α : Type} (xs middle : List α) {start : Nat} (stop : Nat)
    (h : start ≤ xs.length) :
    (splice xs start stop middle).length = start + middle.length + (xs.length - stop) := by
  simp [splice, Nat.min_eq_left h, Nat.add_assoc]

theorem isWellFormed_splice {atoms middle : List Atom} {start stop : Nat}
    (h : ∀ a ∈ atoms, a.isWellFormed = true) (hm : ∀ a ∈ middle, a.isWellFormed = true) :
    ∀ a ∈ splice atoms start stop middle, a.isWellFormed = true := fun a ha =>
  (mem_of_mem_splice ha).elim (h a) (hm a)

theorem isWellFormed_contentOf {a : Atom} (h : a.isWellFormed = true) (slots : List Slot) :
    ∀ b ∈ contentOf a slots, b.isWellFormed = true := by
  intro b hb
  obtain ⟨slot, -, hb⟩ := List.mem_flatMap.1 hb
  have hb := (List.mem_filter.1 hb).1
  cases hs : a.branch slot with
  | none => simp [hs] at hb
  | some atoms =>
      rw [hs] at hb
      exact (Atom.branchWellFormed h hs).wellFormed b hb

theorem length_contentOf_takeWhile_le (a : Atom) (p : Slot → Bool) (slots : List Slot) :
    (contentOf a (slots.takeWhile p)).length ≤ (contentOf a slots).length := by
  have h : contentOf a slots =
      contentOf a (slots.takeWhile p) ++ contentOf a (slots.dropWhile p) := by
    rw [contentOf, contentOf, contentOf, ← List.flatMap_append, List.takeWhile_append_dropWhile]
  rw [h, List.length_append]
  exact Nat.le_add_right _ _

namespace Editor

variable {e : Editor}

/-! ## Taking atoms out -/

/-- Taking a run of atoms out opens the branch with what is left. -/
theorem Opened.remove {root : Atom} {q : Path} {slot : Slot} {owner : Atom}
    {atoms content : List Atom} (h : e.Opened root q slot owner atoms content) (offset : Int)
    (start stop : Nat) :
    (e.putBranch (q.child slot offset) (splice content start stop [])).Opened root q slot owner
      atoms (splice content start stop []) :=
  h.putBranch offset (isWellFormed_splice h.wellFormed (by simp))

/-- The branch of a selection is settled where the selection starts. -/
theorem SelectsIn.removeSelection_eq {q : Path} {slot : Slot} {owner : Atom} {atoms : List Atom}
    {anchor focus : Int} (h : e.SelectsIn q slot owner atoms anchor focus)
    (hc : ¬e.selection.isCollapsed = true) :
    e.removeSelection = (e.putBranch (q.child slot (min anchor focus))
      (splice atoms e.selection.startIndex e.selection.stopIndex [])).settleCaret
        (q.child slot (min anchor focus)) (min anchor focus) := by
  obtain ⟨hstart, -, -, -⟩ := h.start_stop
  obtain ⟨-, hlen⟩ := h.startIndex_le
  unfold Editor.removeSelection
  simp only [hc, hstart, h.branch.branch?, Option.getD_some, hlen, if_true, Path.offset_child]
  rfl

/-- Taking a run of atoms out leaves the caret where they were. -/
theorem isOffset_splice {atoms : List Atom} {start stop : Nat} (hs : start ≤ atoms.length) :
    IsOffset (splice atoms start stop []) ((start : Int) - 1) := by
  refine ⟨?_, ?_⟩
  · simp only [leadingGap]
    omega
  · rw [length_splice _ _ _ hs]
    omega

/-- Where a selection started is a gap of what is left of its branch. -/
theorem SelectsIn.isOffset_removed {q : Path} {slot : Slot} {owner : Atom} {atoms : List Atom}
    {anchor focus : Int} (h : e.SelectsIn q slot owner atoms anchor focus) :
    IsOffset (splice atoms e.selection.startIndex e.selection.stopIndex []) (min anchor focus) := by
  obtain ⟨hle, hlen⟩ := h.startIndex_le
  obtain ⟨hindex, -⟩ := h.indices
  have hoffset : IsOffset (splice atoms e.selection.startIndex e.selection.stopIndex [])
      ((e.selection.startIndex : Int) - 1) := isOffset_splice (Nat.le_trans hle hlen)
  rwa [hindex, Int.add_sub_cancel] at hoffset

theorem Sound.removeSelection (h : e.Sound) : e.removeSelection.Sound := by
  by_cases hc : e.selection.isCollapsed = true
  · rwa [Editor.removeSelection, if_pos hc]
  · obtain ⟨q, slot, owner, atoms, anchor, focus, hsel⟩ := h.exists_selectsIn
    rw [hsel.removeSelection_eq hc]
    exact ((h.opened hsel.branch).remove _ _ _).sound_settleCaret _ fun _ => hsel.isOffset_removed

theorem Opened.removeAtom {root : Atom} {q : Path} {slot : Slot} {owner : Atom}
    {atoms content : List Atom} (h : e.Opened root q slot owner atoms content) (i : Nat) :
    (e.withRoot ((q.child slot i).modifyBranch (fun b => b.eraseIdx i) e.root)).Opened root q slot
      owner atoms (content.eraseIdx i) :=
  h.modifyBranch i fun a ha => h.wellFormed a (List.mem_of_mem_eraseIdx ha)

theorem removeAtom_child (e : Editor) (q : Path) (slot : Slot) (i : Nat) :
    e.removeAtom (q.child slot i) =
      (e.withRoot ((q.child slot i).modifyBranch (fun b => b.eraseIdx i) e.root)).settleCaret
        (q.child slot i) ((i : Int) - 1) := by
  simp [Editor.removeAtom]

theorem isOffset_eraseIdx {atoms : List Atom} {i : Nat} (hi : i < atoms.length) :
    IsOffset (atoms.eraseIdx i) ((i : Int) - 1) := by
  refine ⟨?_, ?_⟩
  · simp only [leadingGap]
    omega
  · rw [List.length_eraseIdx_of_lt hi]
    omega

theorem Sound.removeAtom (h : e.Sound) {q : Path} {slot : Slot} {owner : Atom} {atoms : List Atom}
    (hb : IsBranch e.root q slot owner atoms) {i : Nat} (hi : i < atoms.length) :
    (e.removeAtom (q.child slot i)).Sound := by
  rw [removeAtom_child]
  exact ((h.opened hb).removeAtom i).sound_settleCaret _ fun _ => isOffset_eraseIdx hi

/-! ## Dissolving atoms -/

/-- A script that is dissolved comes behind its base, and so does the caret. -/
theorem Sound.opened_hoistScript (h : e.Sound) {q : Path} {slot : Slot} {owner : Atom}
    {atoms : List Atom} (hb : IsBranch e.root q slot owner atoms) (hs : slot.isScript = true) :
    ∃ q' slot' i owner' atoms', q = q'.child slot' (i : Nat) ∧
      IsBranch e.root q' slot' owner' atoms' ∧ atoms'[i]? = some owner ∧
      (e.hoistScript q slot).Opened e.root q' slot' owner' atoms'
        (splice (atoms'.set i (owner.putBranch slot none)) (i + 1) (i + 1)
          (withoutPlaceholders atoms)) ∧
      (e.hoistScript q slot).selection = Selection.caret q := by
  have hopt := Slot.isOptional_of_isScript hs
  have hremove := Atom.removeBranch_of_isOptional owner hopt
  obtain ⟨q', slot', i, owner', atoms', rfl, hb', hi, hroot⟩ := (h.opened hb).exists_removed hopt
  have howner := hb.isWellFormed_owner h.isWellFormed
  have hset := (hb'.wellFormed h.isWellFormed).set hi (c := owner.putBranch slot none) rfl
    (Atom.isWellFormed_putBranch_none howner hopt)
  have hopened : (e.withRoot ((q'.child slot' i).modifyAtom (fun a => (a.removeBranch slot).2)
      e.root)).Opened e.root q' slot' owner' atoms' (atoms'.set i (owner.putBranch slot none)) :=
    ⟨h.kind_root, h.isWellFormed, hb', hroot, hset.wellFormed⟩
  have hscript : ∀ a ∈ withoutPlaceholders atoms, a.isWellFormed = true := fun a ha =>
    (hb.wellFormed h.isWellFormed).wellFormed a (List.mem_filter.1 ha).1
  have hspliced := hopened.modifyBranch i (f := fun b =>
    splice b (i + 1) (i + 1) (withoutPlaceholders atoms)) (isWellFormed_splice hset.wellFormed hscript)
  refine ⟨q', slot', i, owner', atoms', rfl, hb', hi, ?_⟩
  unfold Editor.hoistScript
  simp only [Path.index?_child, Step.index?_natCast, hb.atom?_eq, Option.bind_some, hremove,
    hb.branch_eq, Option.getD_some]
  exact ⟨hspliced.setCaret _, rfl⟩

theorem Sound.hoistScript (h : e.Sound) {q : Path} {slot : Slot} {owner : Atom}
    {atoms : List Atom} (hb : IsBranch e.root q slot owner atoms) (hs : slot.isScript = true) :
    (e.hoistScript q slot).Sound := by
  obtain ⟨q', slot', i, owner', atoms', rfl, hb', hi, hopened, hcaret⟩ := h.opened_hoistScript hb hs
  have hstart : i + 1 ≤ (atoms'.set i (owner.putBranch slot none)).length := by
    rw [List.length_set]
    exact Atom.lt_length_of_getElem?_eq_some hi
  have hlength := length_splice (atoms'.set i (owner.putBranch slot none))
    (withoutPlaceholders atoms) (i + 1) hstart
  have hne : splice (atoms'.set i (owner.putBranch slot none)) (i + 1) (i + 1)
      (withoutPlaceholders atoms) ≠ [] := List.ne_nil_of_length_pos (by omega)
  exact hopened.sound_of_ne_nil hne hcaret (isOffset_natCast (by omega)) (isOffset_natCast (by omega))

/-- An atom that is unwrapped makes room for what it holds, and its branch is settled. -/
theorem unwrapAtom_child {q : Path} {slot : Slot} {i : Nat} {a : Atom}
    (ha : (q.child slot i).atom? e.root = some a) (inner : Slot) :
    e.unwrapAtom (q.child slot i) inner =
      (e.withRoot ((q.child slot i).modifyBranch
        (fun b => splice b i (i + 1) (contentOf a (unwrappedSlots a))) e.root)).settleCaret
          (q.child slot i)
          ((i : Int) + (contentOf a ((unwrappedSlots a).takeWhile fun s => s != inner)).length - 1) := by
  simp only [Editor.unwrapAtom, Path.index?_child, Step.index?_natCast, ha]

theorem Opened.unwrap {root : Atom} {q : Path} {slot : Slot} {owner a : Atom}
    {atoms content : List Atom} (h : e.Opened root q slot owner atoms content) {i : Nat}
    (hi : content[i]? = some a) :
    (e.withRoot ((q.child slot i).modifyBranch
      (fun b => splice b i (i + 1) (contentOf a (unwrappedSlots a))) e.root)).Opened root q slot
        owner atoms (splice content i (i + 1) (contentOf a (unwrappedSlots a))) :=
  h.modifyBranch i (isWellFormed_splice h.wellFormed
    (isWellFormed_contentOf (h.wellFormed a (List.mem_of_getElem? hi)) _))

/-- The gap before what came from one slot is one of the branch that an atom was unwrapped in. -/
theorem isOffset_unwrapped {atoms : List Atom} {i : Nat} (hi : i < atoms.length) (a : Atom)
    (inner : Slot) : IsOffset (splice atoms i (i + 1) (contentOf a (unwrappedSlots a)))
      ((i : Int) + (contentOf a ((unwrappedSlots a).takeWhile fun s => s != inner)).length - 1) := by
  refine ⟨?_, ?_⟩
  · simp only [leadingGap]
    omega
  · have hbefore := length_contentOf_takeWhile_le a (fun s => s != inner) (unwrappedSlots a)
    rw [length_splice _ _ _ (Nat.le_of_lt hi)]
    omega

theorem Sound.unwrapAtom (h : e.Sound) {q : Path} {slot : Slot} {owner a : Atom}
    {atoms : List Atom} (hb : IsBranch e.root q slot owner atoms) {i : Nat}
    (hi : atoms[i]? = some a) (inner : Slot) : (e.unwrapAtom (q.child slot i) inner).Sound := by
  rw [unwrapAtom_child (by rw [hb.atom?, hi])]
  exact ((h.opened hb).unwrap hi).sound_settleCaret _ fun _ =>
    isOffset_unwrapped (Atom.lt_length_of_getElem?_eq_some hi) a inner

/-- What is unwrapped is no part of a grid. -/
theorem ne_of_isUnwrappedAt {a : Atom} {slot : Slot} (hallowed : a.kind.allowsSlot slot = true)
    (hu : isUnwrappedAt a slot = true) : a.kind ≠ .row ∧ a.kind ≠ .cell := by
  unfold isUnwrappedAt at hu
  cases slot <;> cases hk : a.kind <;>
    simp_all [Kind.allowsSlot, Kind.hasSlot, Kind.shape]

/-! ## What one deletion comes to -/

/-- What one deletion makes of an editor. -/
inductive DeletesTo (e : Editor) : Editor → Prop
  | stays : e.DeletesTo e
  | steps (d : Direction) : e.DeletesTo (e.stepCaret d false)
  | removesSelection : e.DeletesTo e.removeSelection
  | removes {q : Path} {slot : Slot} {owner a : Atom} {atoms : List Atom} {i : Nat}
      (hb : IsBranch e.root q slot owner atoms) (hi : atoms[i]? = some a)
      (hr : isRemovable a = true) : e.DeletesTo (e.removeAtom (q.child slot i))
  | removesNext {q : Path} {slot : Slot} {owner a : Atom} {atoms : List Atom} {i : Nat}
      {caret : Int} (hb : IsBranch e.root q slot owner atoms) (hi : atoms[i]? = some a)
      (hr : isRemovable a = true) (hc : leadingGap ≤ caret) :
      e.DeletesTo ((e.removeAtom (q.child slot i)).keepCaret (q.child slot caret))
  | hoists {q : Path} {slot : Slot} {owner : Atom} {atoms : List Atom}
      (hb : IsBranch e.root q slot owner atoms) (hs : slot.isScript = true) :
      e.DeletesTo (e.hoistScript q slot)
  | unwraps {q : Path} {slot inner : Slot} {owner a : Atom} {atoms content : List Atom} {i : Nat}
      (hb : IsBranch e.root q slot owner atoms) (hi : atoms[i]? = some a)
      (hc : a.branch inner = some content) (hu : isUnwrappedAt a inner = true) :
      e.DeletesTo (e.unwrapAtom (q.child slot i) inner)

theorem deletesTo_deleteAtBranchStart (hr : e.root.Regular) {p : Path}
    (hp : IsPosition e.root p) : e.DeletesTo (e.deleteAtBranchStart p) := by
  obtain ⟨q, slot, offset, owner, atoms, rfl, hb, -⟩ := hp
  unfold deleteAtBranchStart
  simp only [Path.parent_child, Path.slot?_child, hb.atom?_eq]
  split
  · exact .stays
  rename_i hroot
  split
  · exact .hoists hb ‹_›
  split
  · rename_i hu
    obtain ⟨hrow, hcell⟩ :=
      ne_of_isUnwrappedAt ((hr.descend? hb.atom?_eq).branch hb.branch_eq).allowed hu
    obtain ⟨q', slot', i, owner', atoms', rfl, hb', hi⟩ :=
      exists_isBranch hr (by simpa using hroot) hb.atom?_eq hrow hcell
    exact .unwraps hb' hi hb.branch_eq hu
  · exact .steps .backward

theorem deletesTo_deleteBackward (hr : e.root.Regular) (hp : IsPosition e.root e.caret) :
    e.DeletesTo e.deleteBackward := by
  unfold deleteBackward
  split
  · exact .removesSelection
  split
  · rename_i a ha
    split
    · obtain ⟨q, slot, offset, owner, atoms, hcaret, hb, -⟩ := hp
      rw [hcaret] at ha ⊢
      obtain ⟨i, rfl, hi⟩ := hb.exists_of_atom?_child ha
      exact .removes hb hi ‹_›
    · exact .steps .backward
  · exact deletesTo_deleteAtBranchStart hr hp

theorem deletesTo_deleteForward (hp : IsPosition e.root e.caret) :
    e.DeletesTo e.deleteForward := by
  unfold deleteForward
  split
  · exact .removesSelection
  obtain ⟨q, slot, offset, owner, atoms, hcaret, hb, ho⟩ := hp
  simp only [hcaret, Path.offset_child, Path.withOffset_child]
  split
  · rename_i a ha
    split
    · obtain ⟨i, heq, hi⟩ := hb.exists_of_atom?_child ha
      rw [heq]
      exact .removesNext hb hi ‹_› ho.1
    · exact .steps .forward
  split
  · exact .steps .forward
  · exact .stays

/-- Where the formula is regular and the caret stands in it, one deletion does one of these. -/
theorem deletesTo_deleteOnce (hr : e.root.Regular) (hp : IsPosition e.root e.caret)
    (d : Direction) : e.DeletesTo (e.deleteOnce d) := by
  cases d with
  | backward => exact deletesTo_deleteBackward hr hp
  | forward => exact deletesTo_deleteForward hp

/-! ## Deleting -/

/-- The caret may stay where it was, unless its branch is gone. -/
theorem Opened.sound_keepCaret {root : Atom} {q : Path} {slot : Slot} {owner : Atom}
    {atoms content : List Atom} (h : e.Opened root q slot owner atoms content) (at' offset : Int)
    (hs : (e.settleCaret (q.child slot at') offset).Sound) {caret : Int} (hc : leadingGap ≤ caret) :
    ((e.settleCaret (q.child slot at') offset).keepCaret (q.child slot caret)).Sound := by
  unfold Editor.keepCaret
  split
  · rename_i branch hbranch
    obtain ⟨a, hb⟩ := isBranch_settleCaret h.isBranch at' offset hbranch
    split
    · exact hs
    · have hlast := isOffset_lastOffset branch
      rw [Path.withOffset_child, Path.offset_child]
      exact hs.setCaret (hb.isPosition ⟨by have := hlast.1; omega, by have := hlast.2; omega⟩)
  · exact hs

theorem Sound.of_deletesTo (h : e.Sound) {e' : Editor} (hd : e.DeletesTo e') : e'.Sound := by
  cases hd with
  | stays => exact h
  | steps d => exact h.stepCaret d false
  | removesSelection => exact h.removeSelection
  | removes hb hi => exact h.removeAtom hb (Atom.lt_length_of_getElem?_eq_some hi)
  | removesNext hb hi _ hc =>
      have hremoved := h.removeAtom hb (Atom.lt_length_of_getElem?_eq_some hi)
      rw [removeAtom_child] at hremoved ⊢
      exact ((h.opened hb).removeAtom _).sound_keepCaret _ _ hremoved hc
  | hoists hb hs => exact h.hoistScript hb hs
  | unwraps hb hi => exact h.unwrapAtom hb hi _

theorem Sound.deletesTo_deleteOnce (h : e.Sound) (d : Direction) : e.DeletesTo (e.deleteOnce d) :=
  Editor.deletesTo_deleteOnce (Atom.regular_of_isWellFormed h.isWellFormed) h.caret d

theorem Sound.deleteOnce (h : e.Sound) (d : Direction) : (e.deleteOnce d).Sound :=
  h.of_deletesTo (h.deletesTo_deleteOnce d)

theorem Sound.deleteBackward (h : e.Sound) : e.deleteBackward.Sound :=
  h.deleteOnce .backward

theorem Sound.deleteTimes (d : Direction) (n : Nat) (h : e.Sound) : (deleteTimes d n e).Sound := by
  induction n generalizing e with
  | zero => exact h
  | succ n ih => exact ih (h.deleteOnce d)

theorem Sound.leaveEmptyCommand (h : e.Sound) : e.leaveEmptyCommand.Sound := by
  unfold Editor.leaveEmptyCommand
  split
  · exact h.of_eq rfl rfl
  · exact h

end Editor

end FormulaEditor

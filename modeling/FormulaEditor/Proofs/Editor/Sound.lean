import FormulaEditor.Editor.State
import FormulaEditor.Proofs.Formula.Regular

/-!
# Sound editors

An editor is sound if its formula is well formed and its selection lies in one branch that is no
body of a grid. Many operations pass through formulas that are not well formed: they empty a branch
and refill or remove it afterwards. In between the editor is *opened* at a branch: its formula is a
well-formed one that was filled with arbitrary well-formed atoms there. Settling the branch makes an
opened editor sound again.
-/

namespace FormulaEditor

/-- The offsets of a branch: those of its atoms, and the leading gap. -/
def IsOffset (atoms : List Atom) (offset : Int) : Prop :=
  leadingGap ≤ offset ∧ offset < atoms.length

theorem isOffset_leadingGap (atoms : List Atom) : IsOffset atoms leadingGap :=
  ⟨Int.le_refl _, by simp only [leadingGap]; omega⟩

theorem isOffset_natCast {atoms : List Atom} {i : Nat} (h : i < atoms.length) :
    IsOffset atoms i :=
  ⟨by simp only [leadingGap]; omega, by omega⟩

theorem isOffset_lastOffset (atoms : List Atom) : IsOffset atoms (lastOffset atoms) := by
  unfold lastOffset
  split
  · exact isOffset_leadingGap atoms
  · exact ⟨by simp only [leadingGap]; omega, by omega⟩

/-- An empty branch has no offset but that of its leading gap. -/
theorem IsOffset.eq_leadingGap {offset : Int} (h : IsOffset [] offset) : offset = leadingGap := by
  obtain ⟨hl, hr⟩ := h
  simp only [leadingGap, List.length_nil] at hl hr ⊢
  omega

/-- An offset other than that of the leading gap is that of an atom. -/
theorem IsOffset.exists_natCast {atoms : List Atom} {offset : Int} (h : IsOffset atoms offset)
    (hne : offset ≠ leadingGap) : ∃ i : Nat, offset = i ∧ i < atoms.length := by
  obtain ⟨hl, hr⟩ := h
  simp only [leadingGap] at hl hne
  exact ⟨offset.toNat, by omega, by omega⟩

/-- A position of a formula: an offset of a branch that is no body of a grid. -/
def IsPosition (root : Atom) (p : Path) : Prop :=
  ∃ q slot offset owner atoms, p = q.child slot offset ∧ IsBranch root q slot owner atoms ∧
    IsOffset atoms offset

/-- A position that is that of an atom. -/
def IsAtomPosition (root : Atom) (p : Path) : Prop :=
  ∃ q slot owner atoms, ∃ i : Nat, p = q.child slot i ∧ IsBranch root q slot owner atoms ∧
    i < atoms.length

theorem IsBranch.isPosition {root : Atom} {q : Path} {slot : Slot} {owner : Atom}
    {atoms : List Atom} (h : IsBranch root q slot owner atoms) {offset : Int}
    (ho : IsOffset atoms offset) : IsPosition root (q.child slot offset) :=
  ⟨q, slot, offset, owner, atoms, rfl, h, ho⟩

theorem IsBranch.isAtomPosition {root : Atom} {q : Path} {slot : Slot} {owner : Atom}
    {atoms : List Atom} (h : IsBranch root q slot owner atoms) {i : Nat} (hi : i < atoms.length) :
    IsAtomPosition root (q.child slot i) :=
  ⟨q, slot, owner, atoms, i, rfl, h, hi⟩

theorem IsAtomPosition.isPosition {root : Atom} {p : Path} (h : IsAtomPosition root p) :
    IsPosition root p := by
  obtain ⟨q, slot, owner, atoms, i, rfl, hb, hi⟩ := h
  exact hb.isPosition (isOffset_natCast hi)

/-- The content of a formula is the body of its root. -/
theorem isBranch_body {root : Atom} (hk : root.kind = .root) (hw : root.isWellFormed = true) :
    IsBranch root Path.root .body root root.body :=
  (isFormula_of_isWellFormed hk hw).isBranch_body

namespace Editor

/-- The formula is well formed, with the root at its top, and the selection is valid. -/
structure Sound (e : Editor) : Prop where
  kind_root : e.root.kind = .root
  isWellFormed : e.root.isWellFormed = true
  valid : e.validate = .ok ()

/-! ## Valid selections -/

theorem resolve?_isSome_iff {root : Atom} {q : Path} {slot : Slot} {owner : Atom}
    {atoms : List Atom} (hq : q.atom? root = some owner) (hb : owner.branch slot = some atoms)
    (offset : Int) :
    ((q.child slot offset).resolve? root).isSome = true ↔ IsOffset atoms offset := by
  unfold Path.resolve? IsOffset
  rw [Path.last?_child]
  simp only [Path.owner?_child, hq, hb, Option.bind_eq_bind, Option.bind_some]
  by_cases h : 0 ≤ offset
  · rw [Step.index?_of_nonneg slot h]
    simp only [Option.isSome_map, isSome_getElem?, leadingGap]
    omega
  · have hnone : Step.index? ⟨slot, offset⟩ = none := by simp [Step.index?, h]
    rw [hnone]
    by_cases hgap : offset = leadingGap
    · simp only [hgap, if_true, Option.isSome_some, true_iff]
      exact isOffset_leadingGap atoms
    · simp only [hgap, if_false, Option.isSome_none, Bool.false_eq_true, false_iff]
      simp only [leadingGap] at hgap ⊢
      omega

theorem isPosition_child (e : Editor) (q : Path) (slot : Slot) (offset : Int) :
    e.isPosition (q.child slot offset) = true ↔
      ∃ owner atoms, IsBranch e.root q slot owner atoms ∧ IsOffset atoms offset := by
  simp only [isPosition, inGridBody, Path.isRoot_child, Path.slot?_child, Path.owner?_child,
    Bool.not_false, Bool.true_and, Bool.and_eq_true]
  constructor
  · rintro ⟨hr, hg⟩
    cases hq : q.atom? e.root with
    | none => simp [Path.resolve?, hq] at hr
    | some owner =>
        cases hb : owner.branch slot with
        | none => simp [Path.resolve?, hq, hb] at hr
        | some atoms =>
            rw [hq] at hg
            exact ⟨owner, atoms, ⟨hq, hb, by simpa using hg⟩, (resolve?_isSome_iff hq hb offset).1 hr⟩
  · rintro ⟨owner, atoms, hb, ho⟩
    refine ⟨(resolve?_isSome_iff hb.atom?_eq hb.branch_eq offset).2 ho, ?_⟩
    simp [hb.atom?_eq, hb.not_grid]

theorem isPosition_root (e : Editor) : e.isPosition Path.root = false := rfl

theorem isPosition_iff (e : Editor) (p : Path) :
    e.isPosition p = true ↔ IsPosition e.root p := by
  constructor
  · intro h
    cases hr : p.isRoot with
    | true =>
        rw [Path.eq_root_of_isRoot hr, isPosition_root] at h
        cases h
    | false =>
        obtain ⟨q, slot, offset, rfl⟩ := Path.exists_child hr
        obtain ⟨owner, atoms, hb, ho⟩ := (e.isPosition_child ..).1 h
        exact ⟨q, slot, offset, owner, atoms, rfl, hb, ho⟩
  · rintro ⟨q, slot, offset, owner, atoms, rfl, hb, ho⟩
    exact (e.isPosition_child ..).2 ⟨owner, atoms, hb, ho⟩

/-- The selection has both ends in the branch `atoms`. -/
structure SelectsIn (e : Editor) (q : Path) (slot : Slot) (owner : Atom) (atoms : List Atom)
    (anchor focus : Int) : Prop where
  branch : IsBranch e.root q slot owner atoms
  selection_eq : e.selection = ⟨q.child slot anchor, q.child slot focus⟩
  anchor : IsOffset atoms anchor
  focus : IsOffset atoms focus

/-- The ends of a selection are offsets of its branch. -/
theorem SelectsIn.start_stop {e : Editor} {q : Path} {slot : Slot} {owner : Atom} {atoms : List Atom}
    {anchor focus : Int} (h : e.SelectsIn q slot owner atoms anchor focus) :
    e.selection.startPath = q.child slot (min anchor focus) ∧
      e.selection.stopPath = q.child slot (max anchor focus) ∧
      IsOffset atoms (min anchor focus) ∧ IsOffset atoms (max anchor focus) := by
  obtain ⟨hal, har⟩ := h.anchor
  obtain ⟨hfl, hfr⟩ := h.focus
  refine ⟨?_, ?_, ⟨by omega, by omega⟩, ⟨by omega, by omega⟩⟩
  · simp [h.selection_eq, Selection.startPath, Selection.start]
  · simp [h.selection_eq, Selection.stopPath, Selection.stop]

theorem SelectsIn.indices {e : Editor} {q : Path} {slot : Slot} {owner : Atom} {atoms : List Atom}
    {anchor focus : Int} (h : e.SelectsIn q slot owner atoms anchor focus) :
    (e.selection.startIndex : Int) = min anchor focus + 1 ∧
      (e.selection.stopIndex : Int) = max anchor focus + 1 := by
  obtain ⟨hal, -⟩ := h.anchor
  obtain ⟨hfl, -⟩ := h.focus
  simp only [leadingGap] at hal hfl
  simp only [h.selection_eq, Selection.startIndex, Selection.stopIndex, Selection.start,
    Selection.stop, Path.offset_child]
  omega

theorem SelectsIn.startIndex_le {e : Editor} {q : Path} {slot : Slot} {owner : Atom}
    {atoms : List Atom} {anchor focus : Int} (h : e.SelectsIn q slot owner atoms anchor focus) :
    e.selection.startIndex ≤ e.selection.stopIndex ∧ e.selection.stopIndex ≤ atoms.length := by
  obtain ⟨hstart, hstop⟩ := h.indices
  obtain ⟨-, har⟩ := h.anchor
  obtain ⟨-, hfr⟩ := h.focus
  omega

theorem validate_eq_ok_iff (e : Editor) :
    e.validate = .ok () ↔
      ∃ q slot owner atoms anchor focus, e.SelectsIn q slot owner atoms anchor focus := by
  unfold validate
  constructor
  · intro h
    split at h
    · cases h
    split at h
    · cases h
    split at h
    · cases h
    rename_i ha hf hs
    simp only [Bool.not_eq_true', Bool.not_eq_false] at ha hf hs
    obtain ⟨q, slot, anchor, owner, atoms, hp, hb, ho⟩ := (e.isPosition_iff _).1 ha
    rw [hp] at hs
    obtain ⟨focus, hfocus⟩ := Path.sameBranch_exists hs
    rw [hfocus] at hf
    obtain ⟨owner', atoms', hb', ho'⟩ := (e.isPosition_child ..).1 hf
    obtain ⟨rfl, rfl⟩ := hb.unique hb'
    refine ⟨q, slot, owner, atoms, anchor, focus, hb, ?_, ho, ho'⟩
    rw [← hp, ← hfocus]
  · rintro ⟨q, slot, owner, atoms, anchor, focus, hb, hs, ha, hf⟩
    have hap : e.isPosition (q.child slot anchor) = true :=
      (e.isPosition_child ..).2 ⟨owner, atoms, hb, ha⟩
    have hfp : e.isPosition (q.child slot focus) = true :=
      (e.isPosition_child ..).2 ⟨owner, atoms, hb, hf⟩
    have hsame : (q.child slot anchor).sameBranch (q.child slot focus) = true :=
      (Path.sameBranch_child ..).2 ⟨rfl, rfl⟩
    simp [hs, hap, hfp, hsame]

theorem Sound.exists_selectsIn {e : Editor} (h : e.Sound) :
    ∃ q slot owner atoms anchor focus, e.SelectsIn q slot owner atoms anchor focus :=
  (validate_eq_ok_iff e).1 h.valid

theorem SelectsIn.sound {e : Editor} {q : Path} {slot : Slot} {owner : Atom} {atoms : List Atom}
    {anchor focus : Int} (h : e.SelectsIn q slot owner atoms anchor focus)
    (hk : e.root.kind = .root) (hw : e.root.isWellFormed = true) : e.Sound :=
  ⟨hk, hw, (validate_eq_ok_iff e).2 ⟨q, slot, owner, atoms, anchor, focus, h⟩⟩

theorem sound_setCaret {e : Editor} (hk : e.root.kind = .root) (hw : e.root.isWellFormed = true)
    {p : Path} (h : IsPosition e.root p) : (e.setCaret p).Sound := by
  obtain ⟨q, slot, offset, owner, atoms, rfl, hb, ho⟩ := h
  exact SelectsIn.sound ⟨hb, rfl, ho, ho⟩ hk hw

theorem sound_selectAtom {e : Editor} (hk : e.root.kind = .root) (hw : e.root.isWellFormed = true)
    {p : Path} (h : IsAtomPosition e.root p) : (e.selectAtom p).Sound := by
  obtain ⟨q, slot, owner, atoms, i, rfl, hb, hi⟩ := h
  have hs : (e.selectAtom (q.child slot i)).selection = ⟨q.child slot (i - 1), q.child slot i⟩ := by
    simp [selectAtom]
  refine SelectsIn.sound ⟨hb, hs, ⟨?_, ?_⟩, isOffset_natCast hi⟩ hk hw
  · simp only [leadingGap]
    omega
  · omega

/-- Only the formula and the selection matter. -/
theorem Sound.of_eq {e e' : Editor} (h : e.Sound) (hr : e'.root = e.root)
    (hs : e'.selection = e.selection) : e'.Sound := by
  obtain ⟨q, slot, owner, atoms, anchor, focus, hsel⟩ := h.exists_selectsIn
  exact SelectsIn.sound ⟨hr ▸ hsel.branch, hs.trans hsel.selection_eq, hsel.anchor, hsel.focus⟩
    (hr ▸ h.kind_root) (hr ▸ h.isWellFormed)

theorem Sound.setCaret {e : Editor} (h : e.Sound) {p : Path} (hp : IsPosition e.root p) :
    (e.setCaret p).Sound :=
  sound_setCaret h.kind_root h.isWellFormed hp

theorem Sound.selectAtom {e : Editor} (h : e.Sound) {p : Path} (hp : IsAtomPosition e.root p) :
    (e.selectAtom p).Sound :=
  sound_selectAtom h.kind_root h.isWellFormed hp

theorem Sound.caret {e : Editor} (h : e.Sound) : IsPosition e.root e.caret := by
  obtain ⟨q, slot, owner, atoms, anchor, focus, hsel⟩ := h.exists_selectsIn
  rw [Editor.caret, hsel.selection_eq]
  exact hsel.branch.isPosition hsel.focus

theorem Sound.rootBranch {e : Editor} (h : e.Sound) :
    IsBranch e.root Path.root .body e.root e.root.body :=
  isBranch_body h.kind_root h.isWellFormed

/-- The end of a well-formed formula is a position, so that a caret can be put there. -/
theorem sound_setCaret_endOf {e : Editor} (hk : e.root.kind = .root)
    (hw : e.root.isWellFormed = true) : (e.setCaret (endOf e.root)).Sound :=
  sound_setCaret hk hw ((isBranch_body hk hw).isPosition (isOffset_lastOffset _))

theorem sound_setAtoms (e : Editor) {atoms : List Atom} (h : ∀ a ∈ atoms, a.isWellFormed = true) :
    (e.setAtoms atoms).Sound :=
  sound_setCaret_endOf
    (e := { e with root := (Atom.newRoot atoms e.supply).1
                   supply := (Atom.newRoot atoms e.supply).2
                   mode := .math })
    rfl (Atom.isWellFormed_newWrapper rfl (fun _ _ => rfl) h none _)

theorem Sound.whenValid {e : Editor} (h : e.Sound) (operation : Editor → Outcome Editor Unit) :
    e.whenValid operation = operation e := by
  simp [Editor.whenValid, h.valid]

/-! ## Settling a branch -/

section

variable {e : Editor} {q : Path} {slot : Slot} {owner : Atom} {atoms : List Atom}

/-- A branch with atoms in it is settled already. -/
theorem settleCaret_of_ne_nil (h : IsBranch e.root q slot owner atoms) (hne : atoms ≠ [])
    (at' offset : Int) :
    e.settleCaret (q.child slot at') offset = e.setCaret (q.child slot offset) := by
  unfold settleCaret settle
  simp [Path.slot?_child, Path.owner?_child, h.atom?_eq, h.branch_eq, hne]

/-- An emptied branch that is optional goes, and the caret is behind its owner. -/
theorem settleCaret_of_isOptional (h : IsBranch e.root q slot owner [])
    (ho : slot.isOptional = true) (at' offset : Int) :
    e.settleCaret (q.child slot at') offset =
      (e.withRoot (q.modifyAtom (fun a => (a.removeBranch slot).2) e.root)).setCaret q := by
  unfold settleCaret settle
  simp only [Path.slot?_child, Path.owner?_child, h.atom?_eq, h.branch_eq, Option.getD_some,
    List.isEmpty_nil, if_true, ho, Path.modifyOwner_child, Path.parent_child]

/-- An emptied branch that stays is refilled, and the caret is at its start. -/
theorem settleCaret_of_not_isOptional (h : IsBranch e.root q slot owner [])
    (ho : slot.isOptional = false) (at' offset : Int) :
    e.settleCaret (q.child slot at') offset =
      ((e.mint newIdentity).2.withRoot
        (q.modifyAtom (fun a => (a.setBranch slot [] e.supply).getD a) e.root)).setCaret
          (q.child slot leadingGap) := by
  unfold settleCaret settle
  simp only [Path.slot?_child, Path.owner?_child, h.atom?_eq, h.branch_eq, Option.getD_some,
    List.isEmpty_nil, if_true, ho, Bool.false_eq_true, if_false, Path.modifyOwner_child,
    Path.withOffset_child]
  rfl

end

end Editor

end FormulaEditor

import FormulaEditor.Proofs.Editor.Sound

/-!
# Placed editors

An editor is placed if its formula is regular and its selection is valid. A sound editor is placed,
and so is one whose formula has an empty branch that should not be empty: where the caret can go does
not depend on that. While a branch is edited, all that matters is that it is there and what it holds;
a placed editor has such a branch around its caret, and has one again once the branch is settled.
-/

namespace FormulaEditor.Editor

open Atom (Regular)

/-- The formula is regular, and the selection is valid. -/
structure Placed (e : Editor) : Prop where
  formula : IsFormula e.root
  valid : e.validate = .ok ()

variable {e e' : Editor} {q : Path} {slot : Slot} {owner : Atom} {atoms content : List Atom}
  {anchor focus offset : Int}

theorem Sound.placed (h : e.Sound) : e.Placed :=
  ⟨isFormula_of_isWellFormed h.kind_root h.isWellFormed, h.valid⟩

theorem Placed.exists_selectsIn (h : e.Placed) :
    ∃ q slot owner atoms anchor focus, e.SelectsIn q slot owner atoms anchor focus :=
  (validate_eq_ok_iff e).1 h.valid

theorem SelectsIn.placed (h : e.SelectsIn q slot owner atoms anchor focus) (hf : IsFormula e.root) :
    e.Placed :=
  ⟨hf, (validate_eq_ok_iff e).2 ⟨q, slot, owner, atoms, anchor, focus, h⟩⟩

theorem placed_setCaret (hf : IsFormula e.root) {p : Path} (h : IsPosition e.root p) :
    (e.setCaret p).Placed := by
  obtain ⟨q, slot, offset, owner, atoms, rfl, hb, ho⟩ := h
  exact SelectsIn.placed ⟨hb, rfl, ho, ho⟩ hf

/-- Only the formula and the selection matter. -/
theorem Placed.of_eq (h : e.Placed) (hr : e'.root = e.root) (hs : e'.selection = e.selection) :
    e'.Placed := by
  obtain ⟨q, slot, owner, atoms, anchor, focus, hsel⟩ := h.exists_selectsIn
  exact SelectsIn.placed ⟨hr ▸ hsel.branch, hs.trans hsel.selection_eq, hsel.anchor, hsel.focus⟩
    (hr ▸ h.formula)

theorem Placed.setCaret (h : e.Placed) {p : Path} (hp : IsPosition e.root p) :
    (e.setCaret p).Placed :=
  placed_setCaret h.formula hp

theorem Placed.selectAtom (h : e.Placed) {p : Path} (hp : IsAtomPosition e.root p) :
    (e.selectAtom p).Placed := by
  obtain ⟨q, slot, owner, atoms, i, rfl, hb, hi⟩ := hp
  have hs : (e.selectAtom (q.child slot i)).selection = ⟨q.child slot (i - 1), q.child slot i⟩ := by
    simp [Editor.selectAtom]
  refine SelectsIn.placed ⟨hb, hs, ⟨?_, ?_⟩, isOffset_natCast hi⟩ h.formula
  · simp only [leadingGap]
    omega
  · omega

theorem Placed.caret (h : e.Placed) : IsPosition e.root e.caret := by
  obtain ⟨q, slot, owner, atoms, anchor, focus, hsel⟩ := h.exists_selectsIn
  rw [Editor.caret, hsel.selection_eq]
  exact hsel.branch.isPosition hsel.focus

/-- The end of a formula is a position, so that a caret can be put there. -/
theorem placed_setCaret_endOf (hf : IsFormula e.root) : (e.setCaret (endOf e.root)).Placed :=
  placed_setCaret hf (hf.isBranch_body.isPosition (isOffset_lastOffset _))

theorem Placed.whenValid (h : e.Placed) (operation : Editor → Outcome Editor Unit) :
    e.whenValid operation = operation e := by
  simp [Editor.whenValid, h.valid]

theorem Placed.state_whenValid (h : e.Placed) {operation : Editor → Outcome Editor Unit}
    (ho : (operation e).state.Placed) : (e.whenValid operation).state.Placed := by
  rwa [h.whenValid]

/-! ## Movements -/

/-- Nothing but the selection changed, as far as formula and mode are concerned. -/
structure OnlySelects (e e' : Editor) : Prop where
  root_eq : e'.root = e.root
  mode_eq : e'.mode = e.mode

theorem OnlySelects.of_eq {e'' : Editor} (h : e'.OnlySelects e'') (hr : e'.root = e.root)
    (hm : e'.mode = e.mode) : e.OnlySelects e'' :=
  ⟨h.root_eq.trans hr, h.mode_eq.trans hm⟩

theorem onlySelects_setCaret (e : Editor) (p : Path) : e.OnlySelects (e.setCaret p) :=
  ⟨rfl, rfl⟩

/-- A movement of a sound editor to a valid selection leaves it sound. -/
theorem Sound.onlySelects (h : e.Sound) (ho : e.OnlySelects e') (hp : e'.Placed) : e'.Sound :=
  ⟨hp.formula.kind_root, ho.root_eq ▸ h.isWellFormed, hp.valid⟩

/-! ## Edited branches -/

/-- The formula is regular, and has the atoms in a branch that can be edited. -/
structure EditsIn (e : Editor) (q : Path) (slot : Slot) (atoms : List Atom) : Prop where
  formula : IsFormula e.root
  exists_branch : ∃ owner, IsBranch e.root q slot owner atoms

theorem Placed.editsIn (h : e.Placed) (hb : IsBranch e.root q slot owner atoms) :
    e.EditsIn q slot atoms :=
  ⟨h.formula, owner, hb⟩

namespace EditsIn

theorem of_root_eq (h : e.EditsIn q slot atoms) (hr : e'.root = e.root) : e'.EditsIn q slot atoms :=
  ⟨hr ▸ h.formula, hr ▸ h.exists_branch⟩

theorem branch? (h : e.EditsIn q slot atoms) (offset : Int) :
    (q.child slot offset).branch? e.root = some atoms := by
  obtain ⟨owner, hb⟩ := h.exists_branch
  exact hb.branch? offset

theorem regular (h : e.EditsIn q slot atoms) : ∀ a ∈ atoms, a.Regular := by
  obtain ⟨owner, hb⟩ := h.exists_branch
  exact h.formula.regular_branch hb

theorem isPosition (h : e.EditsIn q slot atoms) (ho : IsOffset atoms offset) :
    IsPosition e.root (q.child slot offset) := by
  obtain ⟨owner, hb⟩ := h.exists_branch
  exact hb.isPosition ho

theorem placed (h : e.EditsIn q slot atoms)
    (hs : e.selection = ⟨q.child slot anchor, q.child slot focus⟩) (ha : IsOffset atoms anchor)
    (hf : IsOffset atoms focus) : e.Placed := by
  obtain ⟨owner, hb⟩ := h.exists_branch
  exact SelectsIn.placed ⟨hb, hs, ha, hf⟩ h.formula

theorem setCaret (h : e.EditsIn q slot atoms) (ho : IsOffset atoms offset) :
    (e.setCaret (q.child slot offset)).Placed :=
  placed_setCaret h.formula (h.isPosition ho)

theorem withFilled (h : e.EditsIn q slot atoms) (hc : ∀ a ∈ content, a.Regular) :
    (e.withRoot (q.fill slot content e.root)).EditsIn q slot content := by
  obtain ⟨owner, hb⟩ := h.exists_branch
  exact ⟨h.formula.fill hb hc, _, hb.fill content⟩

/-- The branch may be changed to any that holds regular atoms. -/
theorem modifyBranch (h : e.EditsIn q slot atoms) (offset : Int) {f : List Atom → List Atom}
    (hc : ∀ a ∈ f atoms, a.Regular) :
    (e.withRoot ((q.child slot offset).modifyBranch f e.root)).EditsIn q slot (f atoms) := by
  obtain ⟨owner, hb⟩ := h.exists_branch
  rw [Path.modifyBranch_child hb]
  exact h.withFilled hc

theorem putBranch (h : e.EditsIn q slot atoms) (offset : Int) (hc : ∀ a ∈ content, a.Regular) :
    (e.putBranch (q.child slot offset) content).EditsIn q slot content :=
  h.modifyBranch offset (f := fun _ => content) hc

/-- The owner of an optional branch stands in a branch of its own, and stays there without it. -/
theorem exists_removed (h : e.EditsIn q slot atoms) (hs : slot.isOptional = true) :
    ∃ q' slot' i content, q = q'.child slot' (i : Nat) ∧ i < content.length ∧
      (e.withRoot (q.modifyAtom (fun a => (a.removeBranch slot).2) e.root)).EditsIn q' slot'
        content := by
  obtain ⟨owner, hb⟩ := h.exists_branch
  have howner := h.formula.regular_owner hb
  have hallowed := (howner.branch hb.branch_eq).allowed
  obtain ⟨hroot, hrow, hcell⟩ := Kind.ne_of_allowsSlot hallowed hs
  obtain ⟨q', slot', i, owner', content, rfl, hb', hi⟩ := exists_isBranch h.formula.regular
    (h.formula.isRoot_eq_false hb.atom?_eq hroot) hb.atom?_eq hrow hcell
  have hbranch := (h.formula.regular_owner hb').branch hb'.branch_eq
  obtain ⟨hremoved, hkind⟩ := howner.removeBranch slot
  have houter : e.EditsIn q' slot' content := ⟨h.formula, owner', hb'⟩
  refine ⟨q', slot', i, content.set i (owner.removeBranch slot).2, rfl, ?_, ?_⟩
  · rw [List.length_set]
    exact Atom.lt_length_of_getElem?_eq_some hi
  · rw [Path.modifyAtom_child hb' hi]
    exact houter.withFilled (hbranch.set hi hkind hremoved).regular

/-- A branch that is not optional stays when it is emptied, with a placeholder if it needs one. -/
theorem exists_refilled (h : e.EditsIn q slot []) (hs : slot.isOptional = false) (filler : Nat) :
    ∃ content, (e.withRoot (q.modifyAtom (fun a => (a.setBranch slot [] filler).getD a)
      e.root)).EditsIn q slot content := by
  obtain ⟨owner, hb⟩ := h.exists_branch
  have hset : (owner.setBranch slot [] filler).getD owner = owner.putBranch slot
      (some (if owner.requiresContent slot then [Atom.placeholder filler] else [])) := by
    have hpresent := hb.branch_eq
    cases slot <;> simp_all [Atom.setBranch, Slot.isOptional]
  have hroot : q.modifyAtom (fun a => (a.setBranch slot [] filler).getD a) e.root =
      q.fill slot (if owner.requiresContent slot then [Atom.placeholder filler] else []) e.root :=
    Path.modifyAtom_congr hb.atom?_eq hset
  refine ⟨if owner.requiresContent slot then [Atom.placeholder filler] else [], ?_⟩
  rw [hroot]
  refine h.withFilled fun a ha => ?_
  split at ha
  · rw [List.mem_singleton.1 ha]
    exact Atom.regular_placeholder filler
  · cases ha

/-- Settling a branch makes the editor placed, whatever is left in the branch. -/
theorem placed_settleCaret (h : e.EditsIn q slot atoms) (at' : Int)
    (ho : atoms ≠ [] → IsOffset atoms offset) :
    (e.settleCaret (q.child slot at') offset).Placed := by
  obtain ⟨owner, hb⟩ := h.exists_branch
  cases atoms with
  | cons a rest =>
      rw [settleCaret_of_ne_nil hb (List.cons_ne_nil a rest)]
      exact h.setCaret (ho (List.cons_ne_nil a rest))
  | nil =>
      cases hs : slot.isOptional with
      | true =>
          rw [settleCaret_of_isOptional hb hs]
          obtain ⟨q', slot', i, content, rfl, hi, hremoved⟩ := h.exists_removed hs
          exact hremoved.setCaret (isOffset_natCast hi)
      | false =>
          rw [settleCaret_of_not_isOptional hb hs]
          obtain ⟨content, hrefilled⟩ := h.exists_refilled hs e.supply
          exact EditsIn.setCaret (hrefilled.of_root_eq rfl) (isOffset_leadingGap content)

end EditsIn

end FormulaEditor.Editor

import FormulaEditor.Proofs.Editor.Operations
import FormulaEditor.Proofs.Editor.Showing
import FormulaEditor.Proofs.Formula.Ledger
import Mathlib.Data.List.Infix
import Mathlib.Data.List.Perm.Subperm
import Mathlib.Logic.Function.Iterate

/-!
# A selection that grows

Selecting a group takes in more atoms around those that were selected: a longer run of the branch, or
the atom that holds the branch. The identities of what is selected stay one stretch of the formula in
document order, and the stretch gets longer until it is the whole formula. The main statement is
`Sound.selectGroup_grows`.
-/

namespace FormulaEditor

open Atom (identitiesOf)

/-- A shorter run of a list is part of a longer one around it. -/
theorem slice_isInfix_slice {α : Type} (xs : List α) {start start' stop stop' : Nat}
    (hs : start' ≤ start) (ht : stop ≤ stop') : slice xs start stop <:+: slice xs start' stop' :=
  (List.drop_suffix_drop_left (xs.take stop) hs).isInfix.trans
    (List.IsPrefix.drop (List.take_prefix_take_left ht) start').isInfix

/-- A part of a list that lacks some of it. -/
def ProperInfix {α : Type} (xs ys : List α) : Prop :=
  xs <:+: ys ∧ xs.length < ys.length

theorem ProperInfix.trans {α : Type} {xs ys zs : List α} (h : ProperInfix xs ys) (h' : ys <:+: zs) :
    ProperInfix xs zs :=
  ⟨h.1.trans h', Nat.lt_of_lt_of_le h.2 h'.length_le⟩

/-- The run from the first element to the last one is the whole list. -/
theorem slice_eq_self {α : Type} {xs : List α} {start stop : Nat}
    (h : start = 0 ∧ stop = xs.length) : slice xs start stop = xs := by
  obtain ⟨rfl, rfl⟩ := h
  rw [slice, List.take_length, List.drop_zero]

/-- A run is a part of every longer one around it that lacks some of it. -/
theorem properInfix_slice {α : Type} {xs : List α} {start start' stop stop' : Nat}
    (hs : start' ≤ start) (hle : start ≤ stop) (ht : stop ≤ stop') (hl : stop' ≤ xs.length)
    (hne : start' ≠ start ∨ stop' ≠ stop) :
    ProperInfix (slice xs start stop) (slice xs start' stop') := by
  refine ⟨slice_isInfix_slice xs hs ht, ?_⟩
  rw [length_slice hl, length_slice (Nat.le_trans ht hl)]
  omega

namespace Atom

variable {a b : Atom} {slot : Slot} {atoms as bs : List Atom}

theorem identitiesOf_append (as bs : List Atom) :
    identitiesOf (as ++ bs) = identitiesOf as ++ identitiesOf bs := by
  rw [identitiesOf, subatomsOfList_append, List.map_append]
  rfl

theorem identitiesOf_isInfix (h : as <:+: bs) : identitiesOf as <:+: identitiesOf bs := by
  obtain ⟨before, after, rfl⟩ := h
  rw [identitiesOf_append, identitiesOf_append]
  exact List.infix_append _ _ _

/-- Every atom has an identity of its own. -/
theorem length_le_length_identitiesOf (atoms : List Atom) :
    atoms.length ≤ (identitiesOf atoms).length := by
  induction atoms with
  | nil => exact Nat.le_refl 0
  | cons a rest ih =>
      have hself : 0 < a.subatoms.length := List.length_pos_of_mem a.self_mem_subatoms
      simp only [identitiesOf, subatomsOfList, List.length_map, List.length_append,
        List.length_cons] at ih ⊢
      omega

/-- A part of a sequence that lacks some atom lacks its identity. -/
theorem properInfix_identitiesOf (h : ProperInfix as bs) :
    ProperInfix (identitiesOf as) (identitiesOf bs) := by
  obtain ⟨hrun, hlt⟩ := h
  refine ⟨identitiesOf_isInfix hrun, ?_⟩
  obtain ⟨before, after, rfl⟩ := hrun
  have hbefore := length_le_length_identitiesOf before
  have hafter := length_le_length_identitiesOf after
  simp only [identitiesOf_append, List.length_append] at hlt ⊢
  omega

/-- The identities of a branch are some of those of its owner, which has one of its own. -/
theorem properInfix_identitiesOf_branch (hb : a.branch slot = some atoms) :
    ProperInfix (identitiesOf atoms) a.identities := by
  have hself : a.identities = a.id :: identitiesOf a.children := by
    rw [identities, subatoms_eq, List.map_cons]
    rfl
  have hbelow : identitiesOf atoms <:+: identitiesOf a.children := by
    obtain ⟨first, last, hslots⟩ := List.append_of_mem (Slot.mem_all slot)
    have hchildren : a.children = Slot.all.flatMap fun slot => (a.branch slot).getD [] := rfl
    apply identitiesOf_isInfix
    rw [hchildren, hslots, List.flatMap_append, List.flatMap_cons, hb, Option.getD_some,
      ← List.append_assoc]
    exact List.infix_append _ _ _
  rw [hself]
  exact ⟨hbelow.trans (List.suffix_cons _ _).isInfix, Nat.lt_succ_of_le hbelow.length_le⟩

theorem identities_isInfix_of_mem (h : a ∈ atoms) : a.identities <:+: identitiesOf atoms := by
  obtain ⟨before, after, rfl⟩ := List.append_of_mem h
  rw [← identitiesOf_singleton]
  exact identitiesOf_isInfix ⟨before, after, by rw [List.append_assoc, List.singleton_append]⟩

/-- What steps lead to has some of the identities of the atom they start from. -/
theorem identities_isInfix_of_descend? {steps : List Step} (h : a.descend? steps = some b) :
    b.identities <:+: a.identities := by
  induction steps generalizing a with
  | nil =>
      cases h
      exact List.infix_refl _
  | cons s rest ih =>
      obtain ⟨atoms, i, child, hb, -, hi, hd⟩ := descend?_cons_eq_some h
      exact (ih hd).trans ((identities_isInfix_of_mem (List.mem_of_getElem? hi)).trans
        (properInfix_identitiesOf_branch hb).1)

end Atom

namespace IsFormula

variable {root owner : Atom} {slot : Slot} {atoms : List Atom}

/-- The root has no branch but its body. -/
theorem slot_eq_body (h : IsFormula root) (hb : root.branch slot = some atoms) :
    slot = .body := by
  have hallowed := (h.regular.branch hb).allowed
  rw [h.kind_root] at hallowed
  cases slot <;> first | rfl | cases hallowed

theorem eq_body (h : IsFormula root) (hb : IsBranch root Path.root slot owner atoms) :
    atoms = root.body := by
  have hbranch : root.branch slot = some atoms := by
    have howner : root = owner := Option.some.inj hb.atom?_eq
    rw [howner]
    exact hb.branch_eq
  have hbody := hbranch
  rw [h.slot_eq_body hbranch] at hbody
  rw [Atom.body, hbody, Option.getD_some]

end IsFormula

namespace Editor

variable {e e' : Editor} {root owner a : Atom} {q : Path} {slot : Slot} {atoms : List Atom}
  {anchor focus offset : Int} {first last i : Nat}

/-- The identities of the selected atoms and of everything below them, in document order. -/
def selectedIdentities (e : Editor) : List Nat :=
  identitiesOf e.selectedAtoms

/-- Whether the whole content is selected. In an empty formula nothing is missing. -/
def SelectsAll (e : Editor) : Prop :=
  e.selectedAtoms = e.atoms

/-- Everything that was selected is selected, and more, unless nothing was missing. -/
structure GrowsInto (e e' : Editor) : Prop where
  isInfix : e.selectedIdentities <:+: e'.selectedIdentities
  length_lt : ¬e.SelectsAll → e.selectedIdentities.length < e'.selectedIdentities.length

/-! ## What is selected -/

theorem SelectsIn.isSelected_iff (h : e.SelectsIn q slot owner atoms anchor focus) (id : Nat) :
    e.isSelected id = true ↔ id ∈ e.selectedIdentities := by
  have hbranch : e.selection.focus.branch? e.root = some atoms := by
    rw [h.selection_eq]
    exact h.branch.branch? focus
  rw [selectedIdentities, h.selectedAtoms_eq]
  simp only [isSelected, hbranch, h.startIndex_le.2, decide_true, Bool.true_and, List.any_eq_true,
    Atom.find?, List.find?_isSome, beq_iff_eq, identitiesOf, Atom.subatomsOfList_eq_flatMap,
    List.mem_map, List.mem_flatMap]
  constructor
  · rintro ⟨a, ha, b, hb, rfl⟩
    exact ⟨b, ⟨a, ha, hb⟩, rfl⟩
  · rintro ⟨b, ⟨a, ha, hb⟩, rfl⟩
    exact ⟨a, ha, b, hb, rfl⟩

theorem Sound.isSelected_iff (h : e.Sound) (id : Nat) :
    e.isSelected id = true ↔ id ∈ e.selectedIdentities := by
  obtain ⟨q, slot, owner, atoms, anchor, focus, hsel⟩ := h.exists_selectsIn
  exact hsel.isSelected_iff id

theorem selectsIn_selectRun (hb : IsBranch e.root q slot owner atoms) (offset : Int)
    (hle : first ≤ last) (hl : last < atoms.length) :
    (e.selectRun (q.child slot offset) first last).SelectsIn q slot owner atoms ((first : Int) - 1)
      last := by
  refine ⟨hb, by simp only [selectRun, Path.withOffset_child], ⟨?_, by omega⟩, isOffset_natCast hl⟩
  simp only [leadingGap]
  omega

/-- A run from one index to another has the atoms with these indices. -/
theorem selectedAtoms_selectRun (hb : IsBranch e.root q slot owner atoms) (offset : Int)
    (hle : first ≤ last) (hl : last < atoms.length) :
    (e.selectRun (q.child slot offset) first last).selectedAtoms = slice atoms first (last + 1) := by
  have hsel := selectsIn_selectRun hb offset hle hl
  obtain ⟨hstart, hstop⟩ := hsel.indices
  rw [hsel.selectedAtoms_eq]
  congr 1 <;> omega

theorem selectedAtoms_selectContent (h : IsFormula e.root) (hne : e.atoms ≠ []) :
    e.selectContent.selectedAtoms = e.atoms := by
  have hpos := List.length_pos_iff.2 hne
  have hlast : e.root.body.length - 1 + 1 = e.root.body.length := Nat.sub_add_cancel hpos
  have hnot : e.atoms.isEmpty = false := by simpa using hne
  rw [selectContent, hnot, if_neg Bool.false_ne_true]
  refine (selectedAtoms_selectRun h.isBranch_body leadingGap (Nat.zero_le _)
    (Nat.sub_lt hpos Nat.one_pos)).trans ?_
  rw [hlast]
  exact slice_eq_self ⟨rfl, rfl⟩

/-! ## Owners -/

/-- The owner around a grid is found on the way up. -/
theorem exists_take_ownerOutsideGrid (root : Atom) {p : Path} (hp : 0 < p.depth) :
    ∃ d < p.depth, ownerOutsideGrid root p = p.take d := by
  unfold ownerOutsideGrid
  simp only
  cases hf : ((List.range p.depth).reverse.map p.take).find? fun q =>
      !((q.atom? root).any fun a => a.kind == .row || a.kind == .cell) with
  | none => exact ⟨0, hp, rfl⟩
  | some q =>
      obtain ⟨d, hd, rfl⟩ := List.mem_map.1 (List.mem_of_find?_eq_some hf)
      exact ⟨d, by simpa using hd, rfl⟩

/-- A branch other than the content of a formula is below an atom of the content. -/
theorem properInfix_body (h : IsFormula root) (hb : IsBranch root q slot owner atoms)
    (hq : q ≠ Path.root) : ProperInfix (identitiesOf atoms) (identitiesOf root.body) := by
  obtain ⟨steps⟩ := q
  have hd : root.descend? steps = some owner := hb.atom?_eq
  cases steps with
  | nil => exact absurd rfl hq
  | cons s rest =>
      obtain ⟨content, i, child, hc, -, hi, hchild⟩ := Atom.descend?_cons_eq_some hd
      have hbody : root.body = content := by
        rw [Atom.body, ← h.slot_eq_body hc, hc, Option.getD_some]
      rw [hbody]
      exact (Atom.properInfix_identitiesOf_branch hb.branch_eq).trans
        ((Atom.identities_isInfix_of_descend? hchild).trans
          (Atom.identities_isInfix_of_mem (List.mem_of_getElem? hi)))

/-- Selecting an atom of a branch, there and everything below it. -/
theorem selectedIdentities_selectRun_self (hb : IsBranch e.root q slot owner atoms)
    (hi : atoms[i]? = some a) :
    (e.selectRun (q.child slot i) i i).selectedIdentities = a.identities := by
  have hlt := Atom.lt_length_of_getElem?_eq_some hi
  rw [selectedIdentities, selectedAtoms_selectRun hb i (Nat.le_refl i) hlt, slice_singleton hi,
    Atom.identitiesOf_singleton]

/-- Selecting the owner of a branch takes in the branch and more, unless that is the content. -/
theorem properInfix_selectOwner (h : IsFormula e.root) (hb : IsBranch e.root q slot owner atoms)
    (ho : IsOffset atoms offset) (hq : q ≠ Path.root) :
    ProperInfix (identitiesOf atoms)
      (e.selectOwner (q.child slot offset) .forward).selectedIdentities := by
  have hposition : IsPosition e.root (q.child slot offset) := hb.isPosition ho
  have hdepth : 0 < (q.child slot offset).depth := by
    rw [Path.depth_child]
    exact Nat.succ_pos _
  obtain ⟨d, hd, hfound⟩ := exists_take_ownerOutsideGrid e.root hdepth
  unfold selectOwner
  cases hroot : (ownerOutsideGrid e.root (q.child slot offset)).isRoot with
  | true =>
      have hbody := properInfix_body h hb hq
      have hne : e.atoms ≠ [] := by
        intro hnil
        have hlt := hbody.2
        rw [show e.root.body = [] from hnil] at hlt
        exact absurd hlt (Nat.not_lt_zero _)
      simp only [hroot, if_true]
      rw [selectedIdentities, selectedAtoms_selectContent h hne]
      exact hbody
  | false =>
      obtain ⟨q', slot', owner', atoms', i, hat, hb', hi⟩ :=
        isAtomPosition_ownerOutsideGrid h hposition hroot
      have hget : atoms'[i]? = some atoms'[i] := List.getElem?_eq_getElem hi
      have hle : d ≤ q.steps.length := by
        rw [Path.depth_child] at hd
        exact Nat.lt_succ_iff.1 hd
      have htake : (q'.child slot' i).steps = q.steps.take d := by
        rw [← hat, hfound, Path.take, Path.steps_child, List.take_append_of_le_length hle]
      have hbelow : (atoms'[i]).descend? (q.steps.drop d) = some owner := by
        have hdescend : e.root.descend? (q.steps.take d ++ q.steps.drop d) = some owner := by
          rw [List.take_append_drop]
          exact hb.atom?_eq
        have hself : e.root.descend? (q.steps.take d) = some atoms'[i] := by
          rw [← htake]
          exact (hb'.atom? i).trans hget
        rwa [Atom.descend?_append, hself, Option.bind_some] at hdescend
      have hrun := selectedIdentities_selectRun_self (e := e) hb' hget
      simp only [hat, Path.isRoot_child, Bool.false_eq_true, if_false, Path.offset_child,
        Path.withOffset_child]
      simp only [selectRun, Path.withOffset_child] at hrun
      rw [hrun]
      exact (Atom.properInfix_identitiesOf_branch hb.branch_eq).trans
        (Atom.identities_isInfix_of_descend? hbelow)

/-! ## Growing -/

/-- Above the content of a formula there is nothing to select. -/
theorem selectOwner_root (e : Editor) (slot : Slot) (offset : Int) :
    e.selectOwner (Path.root.child slot offset) .forward = e.selectContent := by
  have hdepth : (Path.root.child slot offset).depth = 1 := rfl
  obtain ⟨d, hd, hfound⟩ := exists_take_ownerOutsideGrid e.root (p := Path.root.child slot offset)
    (by rw [hdepth]; exact Nat.one_pos)
  have hzero : d = 0 := by omega
  have hroot : (ownerOutsideGrid e.root (Path.root.child slot offset)).isRoot = true := by
    rw [hfound, hzero]
    rfl
  unfold selectOwner
  simp only [hroot, if_true]

theorem GrowsInto.of_properInfix (h : ProperInfix e.selectedIdentities e'.selectedIdentities) :
    e.GrowsInto e' :=
  ⟨h.1, fun _ => h.2⟩

/-- Where the whole content is selected, it stays so. -/
theorem growsInto_selectContent (h : IsFormula e.root) (hall : e.SelectsAll) :
    e.GrowsInto e.selectContent := by
  refine ⟨?_, fun hnot => absurd hall hnot⟩
  by_cases hne : e.atoms = []
  · have hnone : e.atoms.isEmpty = true := by simpa using hne
    rw [selectContent, hnone, if_pos rfl]
  · rw [selectedIdentities, selectedIdentities, selectedAtoms_selectContent h hne, hall]

theorem Sound.growsInto_growSelection (h : e.Sound)
    (hsel : e.SelectsIn q slot owner atoms anchor focus) : e.GrowsInto (e.growSelection atoms) := by
  obtain ⟨hle, hlen⟩ := hsel.startIndex_le
  have hform := isFormula_of_isWellFormed h.kind_root h.isWellFormed
  have hfocus : e.selection.focus = q.child slot focus := by rw [hsel.selection_eq]
  have hstop := countAtStart_le (fun a => !isSeparator a) (atoms.drop e.selection.stopIndex)
  rw [List.length_drop] at hstop
  have hrun {first stop : Nat} (hs : first ≤ e.selection.startIndex)
      (ht : e.selection.stopIndex ≤ stop) (hl : stop ≤ atoms.length) (hlt : first < stop)
      (hne : first ≠ e.selection.startIndex ∨ stop ≠ e.selection.stopIndex) :
      e.GrowsInto (e.selectRun (q.child slot focus) first (stop - 1)) := by
    apply GrowsInto.of_properInfix
    rw [selectedIdentities, selectedIdentities, hsel.selectedAtoms_eq,
      selectedAtoms_selectRun hsel.branch focus (by omega) (by omega),
      Nat.sub_add_cancel (Nat.lt_of_le_of_lt (Nat.zero_le _) hlt)]
    exact Atom.properInfix_identitiesOf (properInfix_slice hs hle ht hl hne)
  unfold Editor.growSelection
  simp only [hfocus]
  split
  · next hgrown =>
      simp only [Bool.and_eq_true, Bool.or_eq_true, decide_eq_true_eq] at hgrown
      exact hrun (Nat.sub_le _ _) (Nat.le_add_right _ _) (by omega) hgrown.1 hgrown.2
  · split
    · next hpart =>
        simp only [Bool.and_eq_true, Bool.or_eq_true, decide_eq_true_eq, Bool.not_eq_true',
          List.isEmpty_eq_false_iff] at hpart
        exact hrun (Nat.zero_le _) hlen (Nat.le_refl _) (List.length_pos_iff.2 hpart.1) (by omega)
    · next hwhole =>
        have hselected : e.selectedAtoms = atoms := by
          rw [hsel.selectedAtoms_eq]
          simp only [Bool.and_eq_true, Bool.or_eq_true, decide_eq_true_eq, Bool.not_eq_true',
            List.isEmpty_eq_false_iff, not_and_or, not_or, not_not] at hwhole
          exact slice_eq_self (by
            rcases hwhole with hnil | ⟨hzero, hall⟩
            · rw [hnil, List.length_nil] at hlen
              rw [hnil, List.length_nil]
              omega
            · exact ⟨hzero, hall⟩)
        by_cases hq : q = Path.root
        · subst hq
          rw [selectOwner_root]
          exact growsInto_selectContent hform (hselected.trans (hform.eq_body hsel.branch))
        · apply GrowsInto.of_properInfix
          rw [selectedIdentities, hselected]
          exact properInfix_selectOwner hform hsel.branch hsel.focus hq

/-- What is selected is a proper part of the content, if it is not all of it. -/
theorem Sound.properInfix_or_selectsAll (h : e.Sound) :
    ProperInfix e.selectedIdentities (identitiesOf e.atoms) ∨ e.SelectsAll := by
  obtain ⟨q, slot, owner, atoms, anchor, focus, hsel⟩ := h.exists_selectsIn
  obtain ⟨hle, hlen⟩ := hsel.startIndex_le
  have hform := isFormula_of_isWellFormed h.kind_root h.isWellFormed
  have hslice := hsel.selectedAtoms_eq
  by_cases hq : q = Path.root
  · subst hq
    have hbody : atoms = e.atoms := hform.eq_body hsel.branch
    subst hbody
    by_cases hpart : e.selection.startIndex = 0 ∧ e.selection.stopIndex = e.atoms.length
    · exact .inr (hslice.trans (slice_eq_self hpart))
    · have hproper : ProperInfix (slice e.atoms e.selection.startIndex e.selection.stopIndex)
          (slice e.atoms 0 e.atoms.length) :=
        properInfix_slice (Nat.zero_le _) hle hlen (Nat.le_refl _) (by omega)
      rw [slice_eq_self ⟨rfl, rfl⟩, ← hslice] at hproper
      exact .inl (Atom.properInfix_identitiesOf hproper)
  · obtain ⟨hrun, hlt⟩ := properInfix_body hform hsel.branch hq
    have hpart : e.selectedIdentities <:+: identitiesOf atoms := by
      rw [selectedIdentities, hslice]
      exact Atom.identitiesOf_isInfix
        ((List.drop_suffix _ _).isInfix.trans (List.take_prefix _ _).isInfix)
    exact .inl ⟨hpart.trans hrun, Nat.lt_of_le_of_lt hpart.length_le hlt⟩

/-- Everything is selected as soon as as many atoms are selected as there are. -/
theorem Sound.selectsAll_of_length_le (h : e.Sound)
    (hle : (identitiesOf e.atoms).length ≤ e.selectedIdentities.length) : e.SelectsAll :=
  h.properInfix_or_selectsAll.resolve_left fun hproper => Nat.not_lt_of_le hle hproper.2

theorem GrowsInto.isSelected (hg : e.GrowsInto e') (h : e.Sound) (h' : e'.Sound) {id : Nat}
    (hid : e.isSelected id = true) : e'.isSelected id = true :=
  (h'.isSelected_iff id).2 (hg.isInfix.subset ((h.isSelected_iff id).1 hid))

/-- Where no two atoms have the same identity, some atom is selected that was not. -/
theorem GrowsInto.exists_isSelected (hg : e.GrowsInto e') (h : e.Sound) (h' : e'.Sound)
    (hn : (identitiesOf e'.atoms).Nodup) (hall : ¬e.SelectsAll) :
    ∃ id, e.isSelected id = false ∧ e'.isSelected id = true := by
  have hpart : e'.selectedIdentities <:+: identitiesOf e'.atoms := by
    rcases h'.properInfix_or_selectsAll with hproper | hwhole
    · exact hproper.1
    · rw [selectedIdentities, hwhole]
  by_contra hnone
  have hsubset : e'.selectedIdentities ⊆ e.selectedIdentities := by
    intro id hid
    rw [← h.isSelected_iff]
    by_contra hnew
    exact hnone ⟨id, by simpa using hnew, (h'.isSelected_iff id).2 hid⟩
  have hle := (List.subperm_of_subset (hn.sublist hpart.sublist) hsubset).length_le
  exact absurd (hg.length_lt hall) (Nat.not_lt_of_le hle)

/-- One call is carried out, keeps the formula and lets the selection grow. -/
theorem Sound.selectGroup_step (h : e.Sound) :
    ∃ e', e.selectGroup = .done e' ∧ e'.Sound ∧ e.OnlySelects e' ∧ e.GrowsInto e' := by
  obtain ⟨q, slot, owner, atoms, anchor, focus, hsel⟩ := h.exists_selectsIn
  refine ⟨e.growSelection atoms, ?_, h.growSelection hsel, onlySelects_growSelection e atoms,
    h.growsInto_growSelection hsel⟩
  have hbranch : e.selection.focus.branch? e.root = some atoms := by
    rw [hsel.selection_eq]
    exact hsel.branch.branch? focus
  unfold Editor.selectGroup
  rw [h.whenValid]
  simp only [hbranch]

/-- Selecting the next larger group several times. -/
def selectGroupTimes (n : Nat) (e : Editor) : Editor :=
  (fun e => e.selectGroup.state)^[n] e

/-- Every call selects at least one more atom, until all atoms are selected. -/
theorem Sound.length_selectGroupTimes (h : e.Sound) (n : Nat) :
    (selectGroupTimes n e).Sound ∧ (selectGroupTimes n e).root = e.root ∧
      (n ≤ (selectGroupTimes n e).selectedIdentities.length ∨
        (identitiesOf e.atoms).length ≤ (selectGroupTimes n e).selectedIdentities.length) := by
  induction n with
  | zero => exact ⟨h, rfl, .inl (Nat.zero_le _)⟩
  | succ n ih =>
      obtain ⟨hn, hroot, hlength⟩ := ih
      obtain ⟨e', he, he', honly, hgrows⟩ := hn.selectGroup_step
      have hnext : selectGroupTimes (n + 1) e = e' := by
        rw [selectGroupTimes, Function.iterate_succ_apply']
        exact congrArg Outcome.state he
      rw [hnext]
      refine ⟨he', honly.root_eq.trans hroot, ?_⟩
      by_cases hall : (selectGroupTimes n e).SelectsAll
      · have hlen := hgrows.isInfix.length_le
        rw [selectedIdentities, hall, Editor.atoms, hroot] at hlen
        exact .inr hlen
      · have hlt := hgrows.length_lt hall
        omega

/-- Selecting the next larger group is always carried out and changes nothing but the selection.
What was selected, directly or as a part of another atom, is selected afterwards. More is selected
than before, unless that was the whole content; if no two atoms have the same identity, some atom is
selected that was not. After as many calls as there are atoms the whole content is selected, and it
stays so. -/
theorem Sound.selectGroup_grows (h : e.Sound) :
    (∃ e', e.selectGroup = .done e' ∧ e'.Sound ∧ e.OnlySelects e' ∧
      (∀ id, e.isSelected id = true → e'.isSelected id = true) ∧ e.GrowsInto e' ∧
      ((identitiesOf e.atoms).Nodup → ¬e.SelectsAll →
        ∃ id, e.isSelected id = false ∧ e'.isSelected id = true)) ∧
    ∀ n, (identitiesOf e.atoms).length ≤ n →
      (selectGroupTimes n e).root = e.root ∧ (selectGroupTimes n e).SelectsAll := by
  constructor
  · obtain ⟨e', he, he', honly, hgrows⟩ := h.selectGroup_step
    refine ⟨e', he, he', honly, fun id => hgrows.isSelected h he', hgrows, fun hn hall => ?_⟩
    exact hgrows.exists_isSelected h he' (by rwa [Editor.atoms, honly.root_eq]) hall
  · intro n hn
    obtain ⟨hsound, hroot, hlength⟩ := h.length_selectGroupTimes n
    refine ⟨hroot, hsound.selectsAll_of_length_le ?_⟩
    rw [Editor.atoms, hroot]
    exact hlength.elim (Nat.le_trans hn) id

/-- A sum of a letter and a fraction, and the caret at the end of the numerator. -/
def fractionInSum : Editor :=
  let fraction : Atom := .node ⟨3, .fraction, none, none, Marks.none⟩
    { Branches.none with
      numerator := some [.leaf 4 .ordinary (some "b") (some 'b')]
      denominator := some [.leaf 5 .ordinary (some "c") (some 'c')] }
  let sum : List Atom :=
    [.leaf 1 .ordinary (some "a") (some 'a'), .leaf 2 .binary (some "+") (some '+'), fraction]
  (ofRoot (.node ⟨0, .root, none, none, Marks.none⟩ { Branches.none with body := some sum })
    6).setCaret ⟨[⟨.body, 2⟩, ⟨.numerator, 0⟩]⟩

theorem selectGroup_grows_fractionInSum :
    fractionInSum.Sound ∧
    (∃ e' id, fractionInSum.selectGroup = .done e' ∧ fractionInSum.isSelected id = false ∧
      e'.isSelected id = true) ∧
    (selectGroupTimes 5 fractionInSum).SelectsAll := by
  have hsound : fractionInSum.Sound := ⟨rfl, by decide, rfl⟩
  obtain ⟨⟨e', he, -, -, -, -, hnew⟩, htimes⟩ := hsound.selectGroup_grows
  have hdistinct : (identitiesOf fractionInSum.atoms).Nodup := by decide
  have hpart : ¬fractionInSum.SelectsAll := by
    intro hall
    have hlength := congrArg List.length hall
    revert hlength
    decide
  obtain ⟨id, hbefore, hafter⟩ := hnew hdistinct hpart
  exact ⟨hsound, ⟨e', id, he, hbefore, hafter⟩, (htimes 5 (by decide)).2⟩

end Editor

end FormulaEditor

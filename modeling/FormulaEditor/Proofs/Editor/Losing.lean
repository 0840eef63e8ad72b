import FormulaEditor.Proofs.Editor.Deleting
import FormulaEditor.Proofs.Editor.Showing
import FormulaEditor.Proofs.Editor.Stops
import FormulaEditor.Proofs.Formula.Solid

/-!
# What a deletion loses

A deletion cuts the selection out, dissolves an atom, dissolves a script, or only moves the caret.
Whatever is dissolved leaves its content in its place, apart from placeholders. The main statement
is `Sound.delete_loses`: the formula loses what the deletion takes and nothing else, and gains no
atom but placeholders. At a caret the deletion takes no more than the atom that it dissolves exactly
if no placeholder that it drops has other atoms below it.
-/

namespace FormulaEditor

open Atom (weight weight_append weight_cons weight_singleton weight_nil solidLabels)

variable {a owner : Atom} {slot : Slot} {atoms : List Atom} {w : Label → Nat}

/-- What one deletion does to a formula. -/
inductive Deletion where
  /-- The selected atoms go. -/
  | cut (selected : List Atom)
  /-- An atom goes, and what it holds takes its place, apart from placeholders. -/
  | dissolve (a : Atom)
  /-- A script goes, and what it holds comes behind its base, apart from placeholders. -/
  | hoist (script : List Atom)
  /-- Nothing goes. -/
  | move

namespace Deletion

/-- The placeholders that are left out where content is kept. -/
def dropped : Deletion → List Atom
  | dissolve a => a.children.filter Atom.isPlaceholder
  | hoist script => script.filter Atom.isPlaceholder
  | cut _ | move => []

/-- The atoms that go from the formula, each with everything that goes along with it. -/
def taken : Deletion → List Atom
  | cut selected => selected
  | dissolve a => .node a.label Branches.none :: (dissolve a).dropped
  | hoist script => (hoist script).dropped
  | move => []

/-- How many atoms other than placeholders a deletion is meant to take. -/
def allowance : Deletion → Nat
  | cut selected => (solidLabels selected).length
  | dissolve _ => 1
  | hoist _ | move => 0

end Deletion

namespace Editor

/-- What a deletion backward does in the leading gap of a branch. -/
def deletionAtBranchStart (e : Editor) (caret : Path) : Deletion :=
  match caret.slot?, caret.owner? e.root with
  | some slot, some owner =>
      if caret.parent.isRoot then .move
      else if slot.isScript then .hoist ((owner.branch slot).getD [])
      else if isUnwrappedAt owner slot then .dissolve owner
      else .move
  | _, _ => .move

/-- What one deletion does to the formula of an editor. -/
def deletion (e : Editor) (d : Direction) : Deletion :=
  if e.selection.isCollapsed then
    match d with
    | .backward =>
        match e.caret.atom? e.root with
        | some a => if isRemovable a then .dissolve a else .move
        | none => e.deletionAtBranchStart e.caret
    | .forward =>
        match (e.caret.withOffset (e.caret.offset + 1)).atom? e.root with
        | some a => if isRemovable a then .dissolve a else .move
        | none => .move
  else .cut e.selectedAtoms

end Editor

/-! ## What is dissolved -/

theorem children_eq_nil_of_isLeaf (h : a.isLeaf = true) (hw : a.isWellFormed = true) :
    a.children = [] := by
  apply List.flatMap_eq_nil_iff.2
  intro slot _
  show (a.branch slot).getD [] = []
  rw [a.branch_eq_none_of_isLeaf h hw slot, Option.getD_none]

/-- A removable atom holds nothing, or it is none of the leaves and holds placeholders. -/
theorem isRemovable_cases (h : isRemovable a = true) (hw : a.isWellFormed = true) :
    a.children = [] ∨ a.label.isSolid = true ∧ a.isHollow = true := by
  unfold isRemovable at h
  simp only [Bool.or_eq_true, Bool.and_eq_true, bne_iff_ne] at h
  cases h with
  | inl hleaf => exact .inl (children_eq_nil_of_isLeaf hleaf hw)
  | inr hhollow =>
      right
      apply And.intro _ hhollow.2
      apply bne_iff_ne.2
      intro hk
      apply hhollow.1
      show a.label.kind.shape = .leaf
      rw [hk]
      rfl

theorem withoutPlaceholders_children_of_isRemovable (h : isRemovable a = true)
    (hw : a.isWellFormed = true) : withoutPlaceholders a.children = [] := by
  cases isRemovable_cases h hw with
  | inl hnil => rw [hnil, withoutPlaceholders, List.filter_nil]
  | inr hhollow =>
      apply List.filter_eq_nil_iff.2
      intro b hb
      rw [List.all_eq_true.1 hhollow.2 b hb]
      exact Bool.false_ne_true

/-- Slots that hold nothing may be left out. -/
theorem contentOf_filter {slots : List Slot} {p : Slot → Bool}
    (h : ∀ slot ∈ slots, p slot = false → (a.branch slot).getD [] = []) :
    contentOf a (slots.filter p) = contentOf a slots := by
  induction slots with
  | nil => rfl
  | cons slot rest ih =>
      have hrest : contentOf a (rest.filter p) = contentOf a rest :=
        ih fun other hmem => h other (List.mem_cons_of_mem slot hmem)
      simp only [contentOf] at hrest ⊢
      rw [List.filter_cons, List.flatMap_cons, ← hrest]
      cases hp : p slot with
      | true => rw [if_pos rfl, List.flatMap_cons]
      | false =>
          have hnil := h slot List.mem_cons_self hp
          rw [if_neg Bool.false_ne_true, hnil]
          rfl

/-- Without scripts, what is unwrapped is all that an atom holds apart from placeholders. -/
theorem contentOf_unwrappedSlots (h : a.hasScripts = false) :
    contentOf a (unwrappedSlots a) = withoutPlaceholders a.children := by
  have hscripts : contentOf a (unwrappedSlots a) = contentOf a a.slots := by
    apply contentOf_filter
    intro slot _ hs
    have hnone := Atom.hasScripts_eq_false.1 h slot (by simpa using hs)
    rw [hnone, Option.getD_none]
  have hslots : contentOf a a.slots = contentOf a Slot.all := by
    apply contentOf_filter
    intro slot _ hs
    have hnone : a.branch slot = none := Option.not_isSome_iff_eq_none.1 (Bool.eq_false_iff.1 hs)
    rw [hnone, Option.getD_none]
  rw [hscripts, hslots, withoutPlaceholders, Atom.children, Branches.toList,
    List.filter_flatMap]
  rfl

theorem hasScripts_eq_false_of_isUnwrappedAt (h : isUnwrappedAt owner slot = true) :
    owner.hasScripts = false := by
  unfold isUnwrappedAt at h
  simp only [Bool.and_eq_true, Bool.not_eq_true'] at h
  exact h.1

/-- What is unwrapped is no placeholder. -/
theorem isSolid_of_isUnwrappedAt (hallowed : owner.kind.allowsSlot slot = true)
    (hu : isUnwrappedAt owner slot = true) : owner.label.isSolid = true := by
  have hkind : owner.kind ≠ .placeholder := by
    intro hk
    unfold isUnwrappedAt at hu
    rw [hk] at hu hallowed
    cases slot <;> first | (simp at hu; done) | cases hallowed
  exact bne_iff_ne.2 hkind

/-- An atom that is dissolved weighs what is taken and what takes its place. -/
theorem weight_dissolve (w : Label → Nat) (a : Atom) :
    weight w (Deletion.dissolve a).taken + weight w (withoutPlaceholders a.children) =
      weight w [a] := by
  have hshell : weight w [.node a.label Branches.none] = w a.label := by
    rw [weight_singleton]
    rfl
  have hchildren := Atom.weight_filter_add w Atom.isPlaceholder a.children
  have hatom := weight_singleton w a
  rw [Deletion.taken, Deletion.dropped, weight_cons, hshell, withoutPlaceholders]
  omega

theorem weight_hoist (w : Label → Nat) (script : List Atom) :
    weight w (Deletion.hoist script).taken + weight w (withoutPlaceholders script) =
      weight w script :=
  Atom.weight_filter_add w Atom.isPlaceholder script

namespace Editor

variable {e e' e'' : Editor} {taken : List Atom} {q : Path} {i : Nat}

/-- The formula of `e` has the atoms of what is taken and of the formula of `e'`, placeholders
aside. -/
def Loses (e : Editor) (taken : List Atom) (e' : Editor) : Prop :=
  (solidLabels [e.root]).Perm (solidLabels (taken ++ [e'.root]))

theorem loses_iff : e.Loses taken e' ↔ ∀ w, IgnoresPlaceholders w →
    weight w [e.root] = weight w taken + weight w [e'.root] := by
  rw [Loses, Atom.perm_solidLabels_iff]
  simp only [weight_append]

/-- Another formula, which weighs what is not taken. -/
theorem loses_withRoot {root : Atom}
    (h : ∀ w, weight w [e.root] = weight w taken + weight w [root]) :
    e.Loses taken (e.withRoot root) :=
  loses_iff.2 fun w _ => h w

theorem loses_of_root_eq (h : e'.root = e.root) : e.Loses [] e' := by
  rw [Loses, h]
  exact List.Perm.refl _

theorem Loses.of_weight_eq (h : e.Loses taken e')
    (hw : ∀ w, IgnoresPlaceholders w → weight w [e''.root] = weight w [e'.root]) :
    e.Loses taken e'' := by
  rw [loses_iff] at h ⊢
  intro w hignores
  rw [h w hignores, hw w hignores]

theorem Loses.of_root_eq (h : e.Loses taken e') (hr : e''.root = e'.root) :
    e.Loses taken e'' := by
  apply h.of_weight_eq
  intro w _
  rw [hr]

theorem Loses.setCaret (h : e.Loses taken e') (p : Path) : e.Loses taken (e'.setCaret p) :=
  h.of_root_eq rfl

/-- Settling a branch adds and removes placeholders only. -/
theorem weight_settle (hw : IgnoresPlaceholders w) (e : Editor) (p : Path) (offset : Int) :
    weight w [(e.settle p offset).2.root] = weight w [e.root] := by
  unfold settle
  split
  · next slot owner hslot howner =>
      split
      · next hempty =>
          have hnil := List.isEmpty_iff.1 hempty
          split
          · exact Atom.weight_modifyOwner howner (Atom.weight_removeBranch_of_nil w hnil)
          · exact Atom.weight_modifyOwner howner (Atom.weight_setBranch_nil hw hnil e.supply)
      · rfl
  · rfl

theorem Loses.settleCaret (h : e.Loses taken e') (p : Path) (offset : Int) :
    e.Loses taken (e'.settleCaret p offset) :=
  h.of_weight_eq fun _ hw => weight_settle hw e' p offset

theorem root_keepCaret (e : Editor) (caret : Path) : (e.keepCaret caret).root = e.root := by
  unfold keepCaret
  split
  · split <;> rfl
  · rfl

theorem root_leaveEmptyCommand (e : Editor) : e.leaveEmptyCommand.root = e.root := by
  unfold leaveEmptyCommand
  split <;> rfl

/-! ## Steps -/

theorem Sound.loses_removeSelection (h : e.Sound) (hc : e.selection.isCollapsed = false) :
    e.Loses e.selectedAtoms e.removeSelection := by
  obtain ⟨q, slot, owner, atoms, anchor, focus, hsel⟩ := h.exists_selectsIn
  obtain ⟨hle, -⟩ := hsel.startIndex_le
  have hbranch := hsel.branch.branch? (min anchor focus)
  have hselected := hsel.selectedAtoms_eq
  rw [hsel.removeSelection_eq (Bool.eq_false_iff.1 hc)]
  apply Loses.settleCaret
  apply loses_withRoot
  intro w
  have hcut := Atom.weight_splice w atoms [] hle
  have hroot := Atom.weight_modifyBranch hbranch
    (fun _ => splice atoms e.selection.startIndex e.selection.stopIndex []) w
  rw [weight_nil] at hcut
  rw [hselected, Path.putBranch]
  omega

theorem Sound.loses_removeAtom (h : e.Sound) (hb : IsBranch e.root q slot owner atoms)
    {offset : Int} (ha : (q.child slot offset).atom? e.root = some a)
    (hr : isRemovable a = true) :
    e.Loses (Deletion.dissolve a).taken (e.removeAtom (q.child slot offset)) := by
  obtain ⟨i, rfl, hi⟩ := hb.exists_of_atom?_child ha
  have hwf := (hb.wellFormed h.isWellFormed).wellFormed a (List.mem_of_getElem? hi)
  have hhollow := withoutPlaceholders_children_of_isRemovable hr hwf
  rw [removeAtom_child]
  apply Loses.settleCaret
  apply loses_withRoot
  intro w
  have herased := Atom.weight_eraseIdx w hi
  have hroot := Atom.weight_modifyBranch (hb.branch? i) (fun b => b.eraseIdx i) w
  have hatom := weight_dissolve w a
  rw [hhollow, weight_nil] at hatom
  omega

theorem Sound.loses_hoistScript (h : e.Sound) (hb : IsBranch e.root q slot owner atoms)
    (hs : slot.isScript = true) :
    e.Loses (Deletion.hoist atoms).taken (e.hoistScript q slot) := by
  obtain ⟨q', slot', i, owner', atoms', rfl, hb', hi, hopened, -⟩ := h.opened_hoistScript hb hs
  rw [loses_iff, hopened.root_eq]
  intro w _
  have hroot := Atom.weight_fill hb' (splice (atoms'.set i (owner.putBranch slot none)) (i + 1) (i + 1)
    (withoutPlaceholders atoms)) w
  have hset := Atom.weight_set w hi (owner.putBranch slot none)
  have hdetached := Atom.weight_putBranch w owner slot none
  have hscript := weight_hoist w atoms
  rw [Atom.weight_splice_gap] at hroot
  rw [hb.branch_eq, Option.getD_some, Option.getD_none, weight_nil] at hdetached
  omega

theorem loses_unwrapAtom (ha : (q.child slot i).atom? e.root = some a)
    (hs : a.hasScripts = false) (inner : Slot) :
    e.Loses (Deletion.dissolve a).taken (e.unwrapAtom (q.child slot i) inner) := by
  have hindex : (q.child slot i).index? = some i := by
    rw [Path.index?_child, Step.index?_natCast]
  rw [unwrapAtom_child ha]
  apply Loses.settleCaret
  apply loses_withRoot
  intro w
  have hreplaced := Atom.weight_modifyBranch_replace hindex ha (contentOf a (unwrappedSlots a)) w
  have hatom := weight_dissolve w a
  rw [contentOf_unwrappedSlots hs] at hreplaced ⊢
  omega

theorem Sound.loses_deleteAtBranchStart (h : e.Sound) {p : Path} (hp : IsPosition e.root p) :
    e.Loses (e.deletionAtBranchStart p).taken (e.deleteAtBranchStart p) := by
  obtain ⟨q, slot, offset, owner, atoms, rfl, hb, -⟩ := hp
  unfold Editor.deleteAtBranchStart deletionAtBranchStart
  simp only [Path.parent_child, Path.slot?_child, Path.owner?_child, hb.atom?_eq]
  split
  · exact loses_of_root_eq rfl
  · next hroot =>
      split
      · next hs =>
          rw [hb.branch_eq, Option.getD_some]
          exact h.loses_hoistScript hb hs
      · split
        · next hu =>
            obtain ⟨hrow, hcell⟩ := ne_of_isUnwrappedAt (hb.wellFormed h.isWellFormed).allowed hu
            obtain ⟨q', slot', i, owner', atoms', rfl, hb', hi⟩ := exists_isBranch
              (Atom.regular_of_isWellFormed h.isWellFormed)
              (by simpa using hroot) hb.atom?_eq hrow hcell
            exact loses_unwrapAtom hb.atom?_eq (hasScripts_eq_false_of_isUnwrappedAt hu) slot
        · exact loses_of_root_eq (onlySelects_stepCaret e .backward false).root_eq

theorem Sound.loses_deleteBackward (h : e.Sound) :
    e.Loses (e.deletion .backward).taken e.deleteBackward := by
  unfold Editor.deleteBackward deletion
  cases hc : e.selection.isCollapsed with
  | false => exact h.loses_removeSelection hc
  | true =>
      simp only [Bool.not_true, Bool.false_eq_true, if_false, if_true]
      cases ha : e.caret.atom? e.root with
      | none => exact h.loses_deleteAtBranchStart h.caret
      | some a =>
          cases hr : isRemovable a with
          | false =>
              simp only [hr, Bool.false_eq_true, if_false]
              exact loses_of_root_eq (onlySelects_stepCaret e .backward false).root_eq
          | true =>
              obtain ⟨q, slot, offset, owner, atoms, hp, hb, -⟩ := h.caret
              simp only [hr, if_true]
              rw [hp] at ha ⊢
              exact h.loses_removeAtom hb ha hr

theorem Sound.loses_deleteForward (h : e.Sound) :
    e.Loses (e.deletion .forward).taken e.deleteForward := by
  have hstep : e.Loses [] (e.stepCaret .forward false) :=
    loses_of_root_eq (onlySelects_stepCaret e .forward false).root_eq
  unfold Editor.deleteForward deletion
  cases hc : e.selection.isCollapsed with
  | false => exact h.loses_removeSelection hc
  | true =>
      simp only [Bool.not_true, Bool.false_eq_true, if_false, if_true]
      cases ha : (e.caret.withOffset (e.caret.offset + 1)).atom? e.root with
      | none =>
          by_cases hdepth : 1 < e.caret.depth
          · simp only [hdepth, if_true]
            exact hstep
          · simp only [hdepth, if_false]
            exact loses_of_root_eq rfl
      | some a =>
          cases hr : isRemovable a with
          | false =>
              simp only [hr, Bool.false_eq_true, if_false]
              exact hstep
          | true =>
              obtain ⟨q, slot, offset, owner, atoms, hp, hb, -⟩ := h.caret
              simp only [hp, Path.withOffset_child, Path.offset_child] at ha ⊢
              simp only [hr, if_true]
              exact (h.loses_removeAtom hb ha hr).of_root_eq (root_keepCaret _ _)

/-- One deletion loses what it takes, and nothing else. -/
theorem Sound.loses_deleteOnce (h : e.Sound) (d : Direction) :
    e.Loses (e.deletion d).taken (e.deleteOnce d) := by
  cases d with
  | backward => exact h.loses_deleteBackward
  | forward => exact h.loses_deleteForward

/-! ## How much is taken at a caret -/

/-- Dissolved atoms are removable, or they are unwrapped at the start of one of their branches. -/
theorem Sound.exists_of_deletion_eq_dissolve (h : e.Sound) {d : Direction}
    (hd : e.deletion d = .dissolve a) : ∃ p : Path, p.atom? e.root = some a ∧
      (isRemovable a = true ∨ ∃ slot atoms, a.branch slot = some atoms ∧
        isUnwrappedAt a slot = true) := by
  unfold deletion at hd
  split at hd
  · split at hd
    · split at hd
      · next b hb =>
          split at hd
          · next hr =>
              cases hd
              exact ⟨e.caret, hb, .inl hr⟩
          · cases hd
      · obtain ⟨q, slot, offset, owner, atoms, hp, hb, -⟩ := h.caret
        simp only [deletionAtBranchStart, hp, Path.slot?_child, Path.owner?_child,
          hb.atom?_eq] at hd
        split at hd
        · cases hd
        split at hd
        · cases hd
        split at hd
        · next hu =>
            cases hd
            exact ⟨q, hb.atom?_eq, .inr ⟨slot, atoms, hb.branch_eq, hu⟩⟩
        · cases hd
    · split at hd
      · next b hb =>
          split at hd
          · next hr =>
              cases hd
              exact ⟨_, hb, .inl hr⟩
          · cases hd
      · cases hd
  · cases hd

/-- What is dissolved is no placeholder, or it has nothing below it. -/
theorem Sound.isSolid_or_children_eq_nil (h : e.Sound) {d : Direction}
    (hd : e.deletion d = .dissolve a) : a.label.isSolid = true ∨ a.children = [] := by
  obtain ⟨p, ha, hcase⟩ := h.exists_of_deletion_eq_dissolve hd
  have hwf : a.isWellFormed = true := Atom.isWellFormed_descend? h.isWellFormed ha
  cases hcase with
  | inl hr => exact (isRemovable_cases hr hwf).symm.imp_left And.left
  | inr hu =>
      obtain ⟨slot, atoms, hb, hu⟩ := hu
      exact .inl (isSolid_of_isUnwrappedAt (Atom.branchWellFormed hwf hb).allowed hu)

/-- A deletion takes what it is meant to take, unless a placeholder that it drops has other atoms
below it. -/
theorem Sound.length_taken_le_allowance_iff (h : e.Sound) (d : Direction) :
    (solidLabels (e.deletion d).taken).length ≤ (e.deletion d).allowance ↔
      solidLabels (e.deletion d).dropped = [] := by
  cases hd : e.deletion d with
  | cut selected => exact iff_of_true (Nat.le_refl _) rfl
  | hoist script => exact Nat.le_zero.trans List.length_eq_zero_iff
  | move => exact iff_of_true (Nat.le_refl 0) rfl
  | dissolve a =>
      have hshell : solidLabels [.node a.label Branches.none] =
          if a.label.isSolid then [a.label] else [] :=
        (Atom.solidLabels_singleton _).trans (List.append_nil _)
      have htaken : solidLabels (Deletion.dissolve a).taken =
          (if a.label.isSolid then [a.label] else []) ++
            solidLabels (Deletion.dissolve a).dropped := by
        rw [← hshell]
        exact Atom.solidLabels_append [_] _
      rw [htaken, Deletion.allowance]
      cases h.isSolid_or_children_eq_nil hd with
      | inl hsolid =>
          rw [if_pos hsolid, List.singleton_append, List.length_cons]
          rw [← List.length_eq_zero_iff]
          omega
      | inr hnil =>
          have hdropped : (Deletion.dissolve a).dropped = [] := by
            rw [Deletion.dropped, hnil, List.filter_nil]
          rw [hdropped, Atom.solidLabels_nil, List.append_nil]
          apply iff_of_true _ rfl
          split <;> simp

/-- At the start of a script, a deletion backward dissolves it. -/
theorem Sound.deletion_scriptStart (h : e.Sound) (hb : IsBranch e.root q slot owner atoms)
    (hs : slot.isScript = true) (hc : e.selection = Selection.caret (q.child slot leadingGap)) :
    e.deletion .backward = .hoist atoms := by
  have hcaret : e.caret = q.child slot leadingGap := by
    rw [Editor.caret, hc]
    rfl
  have hgap : (q.child slot leadingGap).atom? e.root = none := by
    rw [Path.atom?_child, hb.atom?_eq, Option.bind_some, hb.branch_eq, Option.bind_some,
      Step.index?_leadingGap, Option.bind_none]
  have hroot : q.isRoot = false := by
    have hopt := Slot.isOptional_of_isScript hs
    have hkind := Kind.ne_of_allowsSlot (hb.wellFormed h.isWellFormed).allowed hopt
    exact (isFormula_of_isWellFormed h.kind_root h.isWellFormed).isRoot_eq_false hb.atom?_eq
      hkind.1
  have hcollapsed : e.selection.isCollapsed = true := by
    rw [hc]
    exact beq_self_eq_true _
  unfold deletion
  simp only [hcollapsed, if_true, hcaret, hgap]
  simp only [deletionAtBranchStart, Path.slot?_child, Path.owner?_child, Path.parent_child,
    hb.atom?_eq, hb.branch_eq, Option.getD_some, hroot, hs, Bool.false_eq_true, if_false, if_true]

/-- What a selection loses are the selected atoms. -/
theorem taken_deletion_of_not_collapsed (d : Direction) (hc : e.selection.isCollapsed = false) :
    (e.deletion d).taken = e.selectedAtoms := by
  unfold deletion
  rw [hc]
  rfl

/-- One deletion loses what it takes and nothing else, and gains placeholders at most. Of a selection
it takes the selected atoms with everything below them, and a script at whose start the caret is
gets dissolved. At a caret it takes no more than it is meant to, which is the atom that it dissolves
and nothing of a script, exactly if no placeholder that it drops has other atoms below it. -/
theorem Sound.delete_loses (h : e.Sound) (d : Direction) :
    ∃ e', e.delete d 1 = .done e' ∧
      (solidLabels [e.root]).Perm (solidLabels ((e.deletion d).taken ++ [e'.root])) ∧
      (e.selection.isCollapsed = false → (e.deletion d).taken = e.selectedAtoms) ∧
      (∀ {q : Path} {slot : Slot} {owner : Atom} {script : List Atom},
        IsBranch e.root q slot owner script → slot.isScript = true →
        e.selection = Selection.caret (q.child slot leadingGap) →
        e.deletion .backward = .hoist script) ∧
      ((solidLabels (e.deletion d).taken).length ≤ (e.deletion d).allowance ↔
        solidLabels (e.deletion d).dropped = []) := by
  have hloses : e.Loses (e.deletion d).taken (e.deleteOnce d).leaveEmptyCommand :=
    (h.loses_deleteOnce d).of_root_eq (root_leaveEmptyCommand _)
  apply Exists.intro (e.deleteOnce d).leaveEmptyCommand
  apply And.intro (h.whenValid _)
  apply And.intro hloses
  apply And.intro (taken_deletion_of_not_collapsed d)
  exact And.intro h.deletion_scriptStart (h.length_taken_le_allowance_iff d)

/-- A letter whose superscript is a placeholder with a superscript of its own, and the caret at the
start of the outer one. -/
def scriptOfPlaceholder : Editor :=
  let exponent : Atom := .node ⟨1, .placeholder, none, none, Marks.none⟩
    { Branches.none with superscript := some [.leaf 2 .ordinary (some "y") (some 'y')] }
  let base : Atom := .node ⟨3, .ordinary, some "x", some 'x', Marks.none⟩
    { Branches.none with superscript := some [exponent] }
  (ofRoot (.node ⟨0, .root, none, none, Marks.none⟩ { Branches.none with body := some [base] })
    4).setCaret ⟨[⟨.body, 0⟩, ⟨.superscript, leadingGap⟩]⟩

theorem delete_loses_scriptOfPlaceholder :
    scriptOfPlaceholder.Sound ∧
    (∃ e', scriptOfPlaceholder.delete .backward 1 = .done e' ∧
      (solidLabels [scriptOfPlaceholder.root]).Perm
        (solidLabels ((scriptOfPlaceholder.deletion .backward).taken ++ [e'.root]))) ∧
    ¬(solidLabels (scriptOfPlaceholder.deletion .backward).taken).length ≤
      (scriptOfPlaceholder.deletion .backward).allowance := by
  have hsound : scriptOfPlaceholder.Sound := ⟨rfl, by decide, rfl⟩
  obtain ⟨e', he, hperm, -, -, htaken⟩ := hsound.delete_loses .backward
  have hdropped : solidLabels (scriptOfPlaceholder.deletion .backward).dropped ≠ [] := by decide
  exact ⟨hsound, ⟨e', he, hperm⟩, fun hle => hdropped (htaken.1 hle)⟩

end Editor

end FormulaEditor

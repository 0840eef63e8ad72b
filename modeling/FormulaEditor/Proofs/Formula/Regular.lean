import FormulaEditor.Proofs.Formula.Alike
import FormulaEditor.Proofs.Formula.Location

/-!
# Regular formulas

In a regular formula every branch is one that the kind of its owner allows, and grids hold rows and
rows hold cells. Unlike in a well-formed one, any branch may be empty. This is what paths rely on: an
atom with a script or index, and anything else that is no part of a grid, stands in a branch that can
be edited.
-/

namespace FormulaEditor

namespace Atom

/-- Every branch of the atom and below it is allowed, and admits what it holds. -/
inductive Regular : Atom → Prop
  | of_branches {a : Atom}
      (allowed : ∀ slot atoms, a.branch slot = some atoms → a.kind.allowsSlot slot = true)
      (admitted : ∀ slot atoms, a.branch slot = some atoms →
        ∀ b ∈ atoms, a.kind.admits slot b.kind = true)
      (regular : ∀ slot atoms, a.branch slot = some atoms → ∀ b ∈ atoms, Regular b) : Regular a

/-- The conditions that a whole branch has to satisfy in a regular formula. -/
structure BranchRegular (k : Kind) (slot : Slot) (atoms : List Atom) : Prop where
  allowed : k.allowsSlot slot = true
  admitted : ∀ b ∈ atoms, k.admits slot b.kind = true
  regular : ∀ b ∈ atoms, b.Regular

variable {a b : Atom} {slot : Slot} {atoms bs content : List Atom} {kind : Kind}

theorem regular_iff (a : Atom) :
    a.Regular ↔ ∀ slot atoms, a.branch slot = some atoms → BranchRegular a.kind slot atoms := by
  constructor
  · rintro ⟨hallowed, hadmitted, hregular⟩ slot atoms hb
    exact ⟨hallowed slot atoms hb, hadmitted slot atoms hb, hregular slot atoms hb⟩
  · intro h
    exact .of_branches (fun slot atoms hb => (h slot atoms hb).allowed)
      (fun slot atoms hb => (h slot atoms hb).admitted)
      (fun slot atoms hb => (h slot atoms hb).regular)

theorem Regular.branch (h : a.Regular) (hb : a.branch slot = some atoms) :
    BranchRegular a.kind slot atoms :=
  (regular_iff a).1 h slot atoms hb

/-- A regular atom has no branch that its kind does not allow. -/
theorem Regular.branch_eq_none (h : a.Regular) (hslot : a.kind.allowsSlot slot = false) :
    a.branch slot = none := by
  cases hb : a.branch slot with
  | none => rfl
  | some atoms => exact Bool.noConfusion (hslot.symm.trans (h.branch hb).allowed)

/-- In a branch that is no body of a grid, regularity is a matter of the atoms alone. -/
theorem branchRegular_of_not_grid (hallowed : kind.allowsSlot slot = true)
    (hg : isGridBody kind slot = false) (h : ∀ b ∈ atoms, b.Regular) :
    BranchRegular kind slot atoms :=
  ⟨hallowed, fun b _ => Kind.admits_of_not_isGrid hg b.kind, h⟩

theorem regular_of_isWellFormed (h : a.isWellFormed = true) : a.Regular := by
  induction a using branchInduction with
  | step a ih =>
      refine (regular_iff a).2 fun slot atoms hb => ?_
      have hbranch := branchWellFormed h hb
      exact ⟨hbranch.allowed, hbranch.admitted, fun b hmem =>
        ih slot atoms hb b hmem (hbranch.wellFormed b hmem)⟩

/-- Only kinds and branches matter. -/
theorem Regular.of_eq (h : a.Regular) (hk : b.kind = a.kind)
    (hb : ∀ slot, b.branch slot = a.branch slot) : b.Regular := by
  refine (regular_iff b).2 fun slot atoms hbranch => ?_
  rw [hk]
  exact h.branch (hb slot ▸ hbranch)

theorem Regular.mapMarks (h : a.Regular) (f : Marks → Marks) : (a.mapMarks f).Regular :=
  h.of_eq (kind_mapMarks a f) (branch_mapMarks a f)

theorem Regular.markError (h : a.Regular) : a.markError.Regular :=
  h.mapMarks _

/-- Alike formulas are regular alike. -/
theorem Regular.of_bare_eq (h : a.Regular) (heq : a.bare = b.bare) : b.Regular := by
  induction h generalizing b with
  | @of_branches a hallowed hadmitted hregular ih =>
      refine (regular_iff b).2 fun slot bs hb => ?_
      have hbranch := branch_of_bare_eq heq slot
      rw [hb, Option.map_some] at hbranch
      obtain ⟨as, ha, hmap⟩ := Option.map_eq_some_iff.1 hbranch
      have hmem : ∀ c ∈ bs, ∃ d ∈ as, d.bare = c.bare := fun c hc =>
        List.mem_map.1 (hmap ▸ List.mem_map_of_mem hc)
      rw [← kind_of_bare_eq heq]
      refine ⟨hallowed slot as ha, fun c hc => ?_, fun c hc => ?_⟩
      · obtain ⟨d, hd, hcd⟩ := hmem c hc
        exact kind_of_bare_eq hcd ▸ hadmitted slot as ha d hd
      · obtain ⟨d, hd, hcd⟩ := hmem c hc
        exact ih slot as ha d hd hcd

/-! ## Changed branches -/

theorem Regular.putBranch (h : a.Regular) (hc : BranchRegular a.kind slot content) :
    (a.putBranch slot (some content)).Regular := by
  refine (regular_iff _).2 fun other atoms hb => ?_
  by_cases heq : other = slot
  · subst heq
    rw [branch_putBranch_self, Option.some.injEq] at hb
    exact hb ▸ hc
  · rw [branch_putBranch_of_ne a heq] at hb
    exact h.branch hb

theorem Regular.putBranch_none (h : a.Regular) (slot : Slot) :
    (a.putBranch slot none).Regular := by
  refine (regular_iff _).2 fun other atoms hb => ?_
  by_cases heq : other = slot
  · rw [heq, branch_putBranch_self] at hb
    cases hb
  · rw [branch_putBranch_of_ne a heq] at hb
    exact h.branch hb

theorem Regular.removeBranch (h : a.Regular) (slot : Slot) :
    (a.removeBranch slot).2.Regular ∧ (a.removeBranch slot).2.kind = a.kind := by
  unfold Atom.removeBranch
  split
  · exact ⟨h.putBranch_none slot, rfl⟩
  · exact ⟨h, rfl⟩

/-- An atom of a branch may be replaced by one of its kind. -/
theorem BranchRegular.set (h : BranchRegular kind slot atoms) {i : Nat} {child c : Atom}
    (hc : atoms[i]? = some child) (hk : c.kind = child.kind) (hr : c.Regular) :
    BranchRegular kind slot (atoms.set i c) := by
  have hmem := List.mem_of_getElem? hc
  refine ⟨h.allowed, fun b hb => ?_, fun b hb => ?_⟩
  · rcases List.mem_or_eq_of_mem_set hb with hb | rfl
    · exact h.admitted b hb
    · exact hk ▸ h.admitted child hmem
  · rcases List.mem_or_eq_of_mem_set hb with hb | rfl
    · exact h.regular b hb
    · exact hr

theorem Regular.descend? {steps : List Step} (h : a.Regular) (hd : a.descend? steps = some b) :
    b.Regular :=
  of_descend? (fun h hb => (h.branch hb).regular) h hd

theorem Regular.modifyAt? {a' : Atom} {steps : List Step} {f : Atom → Atom} (h : a.Regular)
    (hd : a.descend? steps = some b) (hk : (f b).kind = b.kind) (hf : (f b).Regular)
    (hm : a.modifyAt? f steps = some a') : a'.Regular ∧ a'.kind = a.kind :=
  of_modifyAt? (fun h hb => (h.branch hb).regular)
    (fun h hb hc hk hr => h.putBranch ((h.branch hb).set hc hk hr)) h hd hk hf hm

theorem isSome_branch_putBranch (h : (a.branch slot).isSome = true) (other : Slot) :
    ((a.putBranch other (some content)).branch slot).isSome = true := by
  rw [branch_putBranch]
  split
  · rfl
  · exact h

/-- A change further down takes no branch away. -/
theorem isSome_branch_modifyAt? {a' : Atom} {steps : List Step} {f : Atom → Atom}
    (hf : ∀ b : Atom, (b.branch slot).isSome = true → ((f b).branch slot).isSome = true)
    (h : (a.branch slot).isSome = true) (hm : a.modifyAt? f steps = some a') :
    (a'.branch slot).isSome = true := by
  cases steps with
  | nil =>
      cases hm
      exact hf a h
  | cons s rest =>
      cases hd : a.descend? (s :: rest) with
      | none => cases (modifyAt?_eq_none hd f).symm.trans hm
      | some b =>
          obtain ⟨atoms, i, child, hb, hi, hc, -⟩ := descend?_cons_eq_some hd
          rw [modifyAt?_cons hb hi hc] at hm
          obtain ⟨c, -, rfl⟩ := Option.map_eq_some_iff.1 hm
          exact isSome_branch_putBranch h s.slot

/-! ## New atoms -/

theorem regular_leaf (id : Nat) (kind : Kind) (value : Option String) (glyph : Option Char) :
    (leaf id kind value glyph).Regular :=
  (regular_iff _).2 fun _ _ hb => by simp at hb

theorem regular_placeholder (id : Nat) : (placeholder id).Regular :=
  regular_leaf id .placeholder none none

theorem regular_filled (h : ∀ a ∈ atoms, a.Regular) (n : Nat) :
    ∀ a ∈ (filled atoms n).1, a.Regular := by
  cases atoms with
  | nil => simpa using regular_placeholder n
  | cons a rest => exact h

theorem regular_newFraction {num den : List Atom} (hn : ∀ a ∈ num, a.Regular)
    (hd : ∀ a ∈ den, a.Regular) (value : String) (n : Nat) :
    (newFraction value num den n).1.Regular := by
  refine (regular_iff _).2 fun slot atoms hb => ?_
  cases slot <;> cases hb
  · exact branchRegular_of_not_grid rfl rfl (regular_filled hn _)
  · exact branchRegular_of_not_grid rfl rfl (regular_filled hd _)

theorem regular_newRadical {radicand : List Atom} {index : Option (List Atom)}
    (hr : ∀ a ∈ radicand, a.Regular) (hi : ∀ atoms, index = some atoms → ∀ a ∈ atoms, a.Regular)
    (n : Nat) : (newRadical radicand index n).1.Regular := by
  refine (regular_iff _).2 fun slot atoms hb => ?_
  cases slot with
  | index => exact branchRegular_of_not_grid rfl rfl (hi atoms (Option.filter_eq_some_iff.1 hb).1)
  | radicand =>
      cases hb
      exact branchRegular_of_not_grid rfl rfl (regular_filled hr _)
  | _ => cases hb

theorem regular_newWrapper {body : List Atom} (hs : kind.shape = .sequence)
    (hk : ∀ a ∈ body, kind.admits .body a.kind = true) (h : ∀ a ∈ body, a.Regular)
    (value : Option String) (n : Nat) : (newWrapper kind value body n).1.Regular := by
  rw [newWrapper_apply hs]
  refine (regular_iff _).2 fun slot atoms hb => ?_
  cases slot <;> cases hb
  refine ⟨by simp [Kind.allowsSlot, Kind.hasSlot, kind_node, hs], ?_, ?_⟩
  · unfold wrapperBody
    split
    · rename_i hr
      intro a _
      cases kind <;> simp_all [Kind.requiresBody, Kind.admits]
    · exact hk
  · unfold wrapperBody
    split
    · exact regular_filled h n
    · exact h

theorem regular_relabelList (h : ∀ a ∈ atoms, a.Regular) (n : Nat) :
    ∀ a ∈ (relabelList atoms n).1, a.Regular := by
  intro a hmem
  have hbare := bare_relabelList atoms n
  simp only [mapLabelsOfList_eq_map] at hbare
  have hmem' := List.mem_map_of_mem (f := mapLabels Label.bare) hmem
  rw [hbare] at hmem'
  obtain ⟨b, hb, he⟩ := List.mem_map.1 hmem'
  exact (h b hb).of_bare_eq he

end Atom

/-! ## Formulas -/

open Atom (Regular)

/-- An atom that is neither the top nor part of a grid stands in a branch that can be edited. -/
theorem exists_isBranch {root a : Atom} {q : Path} (hr : root.Regular) (hq : q.isRoot = false)
    (ha : q.atom? root = some a) (hrow : a.kind ≠ .row) (hcell : a.kind ≠ .cell) :
    ∃ q' slot i owner atoms, q = q'.child slot (i : Nat) ∧ IsBranch root q' slot owner atoms ∧
      atoms[i]? = some a := by
  obtain ⟨q', slot, offset, rfl⟩ := Path.exists_child hq
  obtain ⟨owner, atoms, i, hq', hb, rfl, hi⟩ := Path.exists_of_atom?_child ha
  refine ⟨q', slot, i, owner, atoms, rfl, ⟨hq', hb, ?_⟩, hi⟩
  have hadmit := ((hr.descend? hq').branch hb).admitted a (List.mem_of_getElem? hi)
  rw [← Bool.not_eq_true, isGridBody, Bool.and_eq_true, beq_iff_eq]
  rintro ⟨hgrid, rfl⟩
  exact (Kind.row_or_cell_of_admits hgrid hadmit).elim hrow hcell

/-- A regular formula: the root is at its top and has a body. -/
structure IsFormula (root : Atom) : Prop where
  kind_root : root.kind = .root
  hasBody : (root.branch .body).isSome = true
  regular : root.Regular

variable {root owner a : Atom} {q : Path} {slot : Slot} {atoms content : List Atom}

theorem isFormula_of_isWellFormed (hk : root.kind = .root) (hw : root.isWellFormed = true) :
    IsFormula root := by
  refine ⟨hk, ?_, Atom.regular_of_isWellFormed hw⟩
  cases hb : root.branch .body with
  | some atoms => rfl
  | none =>
      have hslot := ((Atom.isWellFormed_iff root).1 hw).1 .body hb
      rw [hk] at hslot
      cases hslot

theorem isFormula_newRoot (h : ∀ a ∈ atoms, a.Regular) (n : Nat) :
    IsFormula (Atom.newRoot atoms n).1 :=
  ⟨rfl, rfl, Atom.regular_newWrapper rfl (fun _ _ => rfl) h none n⟩

namespace IsFormula

theorem isBranch_body (h : IsFormula root) : IsBranch root Path.root .body root root.body := by
  obtain ⟨atoms, hb⟩ := Option.isSome_iff_exists.1 h.hasBody
  refine ⟨Path.atom?_root root, ?_, by simp [isGridBody, h.kind_root, Kind.isGrid]⟩
  simp [Atom.body, hb]

theorem regular_owner (h : IsFormula root) (hb : IsBranch root q slot owner atoms) :
    owner.Regular :=
  h.regular.descend? hb.atom?_eq

theorem regular_branch (h : IsFormula root) (hb : IsBranch root q slot owner atoms) :
    ∀ a ∈ atoms, a.Regular :=
  ((h.regular_owner hb).branch hb.branch_eq).regular

/-- What is no root is not at the top. -/
theorem isRoot_eq_false (h : IsFormula root) (ha : q.atom? root = some a) (hk : a.kind ≠ .root) :
    q.isRoot = false := by
  rw [← Bool.not_eq_true]
  intro hr
  rw [Path.eq_root_of_isRoot hr, Path.atom?_root] at ha
  cases ha
  exact hk h.kind_root

/-- A formula stays one when a branch is filled. -/
theorem fill (h : IsFormula root) (hb : IsBranch root q slot owner atoms)
    (hc : ∀ a ∈ content, a.Regular) : IsFormula (q.fill slot content root) := by
  have howner := h.regular_owner hb
  have hput := howner.putBranch (Atom.branchRegular_of_not_grid
    (howner.branch hb.branch_eq).allowed hb.not_grid hc)
  have hfill := Path.modifyAtom?_eq_some hb.atom?_eq fun a => a.putBranch slot (some content)
  obtain ⟨hregular, hkind⟩ := h.regular.modifyAt? hb.atom?_eq rfl hput hfill
  refine ⟨hkind.trans h.kind_root, ?_, hregular⟩
  exact Atom.isSome_branch_modifyAt?
    (fun _ hsome => Atom.isSome_branch_putBranch hsome slot) h.hasBody hfill

end IsFormula

end FormulaEditor

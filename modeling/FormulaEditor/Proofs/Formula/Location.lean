import FormulaEditor.Formula.Placeholders
import FormulaEditor.Proofs.Formula.Descent

/-!
# Branches and positions in a formula

Every path other than that of the root is a position in the branch of some owner. A branch of a
formula can be filled with other atoms; changing an atom fills the branch that it stands in, so
every edit of a formula is the filling of one branch, and is judged by the owner of that branch.
-/

namespace FormulaEditor

theorem Atom.isGridBody_of_isScript (k : Kind) {slot : Slot} (h : slot.isScript = true) :
    isGridBody k slot = false := by
  cases slot with
  | superscript => simp [isGridBody]
  | subscript => simp [isGridBody]
  | _ => cases h

namespace Path

/-! ## Positions in a branch -/

section child

variable (q : Path) (slot : Slot) (offset : Int)

@[simp] theorem last?_child : (q.child slot offset).last? = some ⟨slot, offset⟩ := by
  simp [last?, child]

@[simp] theorem slot?_child : (q.child slot offset).slot? = some slot := by
  simp [slot?]

@[simp] theorem offset_child : (q.child slot offset).offset = offset := by
  simp [Path.offset]

@[simp] theorem parent_child : (q.child slot offset).parent = q := by
  simp [parent, child]

@[simp] theorem withOffset_child (offset' : Int) :
    (q.child slot offset).withOffset offset' = q.child slot offset' := by
  simp [withOffset, child, last?]

@[simp] theorem isRoot_child : (q.child slot offset).isRoot = false := by
  simp [isRoot, child]

@[simp] theorem depth_child : (q.child slot offset).depth = q.depth + 1 := by
  simp [depth, child]

@[simp] theorem index?_child : (q.child slot offset).index? = Step.index? ⟨slot, offset⟩ := by
  simp [index?]

@[simp] theorem owner?_child (root : Atom) : (q.child slot offset).owner? root = q.atom? root := by
  simp [owner?]

theorem branch?_child (root : Atom) :
    (q.child slot offset).branch? root = (q.atom? root).bind fun a => a.branch slot := by
  simp [branch?]

theorem atom?_child (root : Atom) :
    (q.child slot offset).atom? root =
      (q.atom? root).bind fun a => (a.branch slot).bind fun atoms =>
        (Step.index? ⟨slot, offset⟩).bind fun i => atoms[i]? := by
  simp only [atom?, child, Atom.descend?_append]
  congr 1
  funext a
  simp [Atom.descend?]

theorem steps_child : (q.child slot offset).steps = q.steps ++ [⟨slot, offset⟩] := rfl

end child

@[simp] theorem isRoot_root : root.isRoot = true := rfl

@[simp] theorem atom?_root (a : Atom) : root.atom? a = some a := rfl

theorem eq_root_of_isRoot {p : Path} (h : p.isRoot = true) : p = root := by
  cases p
  simpa [isRoot, root] using h

/-- A path other than that of the root is a position in some branch. -/
theorem exists_child {p : Path} (h : p.isRoot = false) :
    ∃ (q : Path) (slot : Slot) (offset : Int), p = q.child slot offset := by
  have hne : p.steps ≠ [] := by simpa [isRoot] using h
  refine ⟨p.parent, (p.steps.getLast hne).slot, (p.steps.getLast hne).offset, ?_⟩
  cases p
  simpa [parent, child] using (List.dropLast_concat_getLast hne).symm

/-- A path is that of the root or a position in some branch. -/
@[elab_as_elim]
theorem rootOrChild {motive : Path → Prop} (root : motive Path.root)
    (child : ∀ q slot offset, motive (Path.child q slot offset)) (p : Path) : motive p := by
  cases hp : p.isRoot with
  | true => exact eq_root_of_isRoot hp ▸ root
  | false =>
      obtain ⟨q, slot, offset, rfl⟩ := exists_child hp
      exact child q slot offset

@[simp] theorem withOffset_offset (p : Path) : p.withOffset p.offset = p := by
  cases p using rootOrChild with
  | root => rfl
  | child q slot offset => rw [offset_child, withOffset_child]

theorem child_injective {q q' : Path} {slot slot' : Slot} {offset offset' : Int}
    (h : q.child slot offset = q'.child slot' offset') : q = q' ∧ slot = slot' ∧ offset = offset' := by
  have hp := congrArg parent h
  have hl := congrArg last? h
  simp at hp hl
  exact ⟨hp, hl.1, hl.2⟩

@[simp] theorem sameBranch_child (q q' : Path) (slot slot' : Slot) (offset offset' : Int) :
    (q.child slot offset).sameBranch (q'.child slot' offset') = true ↔ q = q' ∧ slot = slot' := by
  have hsteps : q.steps = q'.steps ↔ q = q' := by
    cases q
    cases q'
    simp
  simp [sameBranch, branchKey?, child, last?, hsteps]

theorem sameBranch_exists {q p : Path} {slot : Slot} {offset : Int}
    (h : (q.child slot offset).sameBranch p = true) : ∃ offset', p = q.child slot offset' := by
  cases p using rootOrChild with
  | root => simp [sameBranch, branchKey?, root, last?, child] at h
  | child q' slot' offset' =>
      obtain ⟨rfl, rfl⟩ := (sameBranch_child ..).1 h
      exact ⟨offset', rfl⟩

end Path

theorem Step.index?_of_nonneg (slot : Slot) {offset : Int} (h : 0 ≤ offset) :
    Step.index? ⟨slot, offset⟩ = some offset.toNat := by
  simp [Step.index?, h]

@[simp] theorem Step.index?_natCast (slot : Slot) (i : Nat) : Step.index? ⟨slot, i⟩ = some i := by
  simp [Step.index?]

@[simp] theorem Step.index?_leadingGap (slot : Slot) : Step.index? ⟨slot, leadingGap⟩ = none := rfl

/-! ## Branches of a formula -/

/-- The atom at `q` has the branch `atoms` in a slot, and it is no body of a grid. -/
structure IsBranch (root : Atom) (q : Path) (slot : Slot) (owner : Atom) (atoms : List Atom) :
    Prop where
  atom?_eq : q.atom? root = some owner
  branch_eq : owner.branch slot = some atoms
  not_grid : isGridBody owner.kind slot = false

namespace IsBranch

variable {root : Atom} {q : Path} {slot : Slot} {owner : Atom} {atoms : List Atom}

theorem branch? (h : IsBranch root q slot owner atoms) (offset : Int) :
    (q.child slot offset).branch? root = some atoms := by
  rw [Path.branch?_child, h.atom?_eq]
  exact h.branch_eq

theorem atom? (h : IsBranch root q slot owner atoms) (i : Nat) :
    (q.child slot i).atom? root = atoms[i]? := by
  simp [Path.atom?_child, h.atom?_eq, h.branch_eq]

/-- One place holds one branch. -/
theorem unique {owner' : Atom} {atoms' : List Atom} (h : IsBranch root q slot owner atoms)
    (h' : IsBranch root q slot owner' atoms') : owner = owner' ∧ atoms = atoms' := by
  cases h.atom?_eq.symm.trans h'.atom?_eq
  cases h.branch_eq.symm.trans h'.branch_eq
  exact ⟨rfl, rfl⟩

theorem isWellFormed_owner (h : IsBranch root q slot owner atoms) (hw : root.isWellFormed = true) :
    owner.isWellFormed = true :=
  Atom.isWellFormed_descend? hw h.atom?_eq

theorem wellFormed (h : IsBranch root q slot owner atoms) (hw : root.isWellFormed = true) :
    Atom.BranchWellFormed owner.kind slot atoms :=
  Atom.branchWellFormed (h.isWellFormed_owner hw) h.branch_eq

/-- In a branch that is no body of a grid, well-formedness is a matter of the atoms alone. -/
theorem branchWellFormed (h : IsBranch root q slot owner atoms) (hw : root.isWellFormed = true)
    {content : List Atom} (hf : owner.kind.fillsSlot slot = true → content ≠ [])
    (hc : ∀ a ∈ content, a.isWellFormed = true) :
    Atom.BranchWellFormed owner.kind slot content :=
  ⟨(h.wellFormed hw).allowed, hf, fun a _ => Kind.admits_of_not_isGrid h.not_grid a.kind, hc⟩

end IsBranch

/-! ## Filling a branch -/

namespace Path

/-- The formula with other atoms in a branch of the atom at `q`. -/
def fill (q : Path) (slot : Slot) (content : List Atom) (root : Atom) : Atom :=
  q.modifyAtom (fun a => a.putBranch slot (some content)) root

theorem modifyAtom?_eq_some {q : Path} {root owner : Atom} (h : q.atom? root = some owner)
    (f : Atom → Atom) : q.modifyAtom? f root = some (q.modifyAtom f root) := by
  obtain ⟨root', h'⟩ := Option.isSome_iff_exists.1 (Atom.modifyAt?_isSome h f)
  simp [modifyAtom, modifyAtom?, h']

theorem modifyOwner_child (q : Path) (slot : Slot) (offset : Int) (f : Atom → Atom) (root : Atom) :
    (q.child slot offset).modifyOwner f root = q.modifyAtom f root := by
  simp [modifyOwner, modifyOwner?, modifyAtom]

variable {root : Atom} {q : Path} {slot : Slot} {owner : Atom} {atoms : List Atom}

theorem modifyBranch_child (h : IsBranch root q slot owner atoms) (offset : Int)
    (f : List Atom → List Atom) :
    (q.child slot offset).modifyBranch f root = q.fill slot (f atoms) root := by
  simp only [modifyBranch, modifyBranch?, slot?_child, owner?_child, h.atom?_eq,
    Option.bind_eq_bind, Option.bind_some, h.branch_eq, modifyOwner?, isRoot_child,
    Bool.false_eq_true, if_false, parent_child]
  rfl

theorem putBranch_child (h : IsBranch root q slot owner atoms) (offset : Int)
    (content : List Atom) :
    (q.child slot offset).putBranch content root = q.fill slot content root :=
  modifyBranch_child h offset fun _ => content

/-- Changing an atom of a branch fills the branch. -/
theorem modifyAtom_child (h : IsBranch root q slot owner atoms) {i : Nat} {a : Atom}
    (ha : atoms[i]? = some a) (f : Atom → Atom) :
    (q.child slot i).modifyAtom f root = q.fill slot (atoms.set i (f a)) root := by
  have hb : owner.modifyAt? f [⟨slot, i⟩] = some (owner.putBranch slot (some (atoms.set i (f a)))) :=
    Atom.modifyAt?_cons h.branch_eq (Step.index?_natCast slot i) ha f []
  have happ := Atom.modifyAt?_append h.atom?_eq f [⟨slot, i⟩] hb
  have hcongr : root.modifyAt? (fun _ => owner.putBranch slot (some (atoms.set i (f a)))) q.steps =
      root.modifyAt? (fun b => b.putBranch slot (some (atoms.set i (f a)))) q.steps :=
    Atom.modifyAt?_congr h.atom?_eq rfl
  simp only [modifyAtom, modifyAtom?, fill, steps_child, happ, hcongr]

end Path

namespace IsBranch

variable {root : Atom} {q : Path} {slot : Slot} {owner : Atom} {atoms : List Atom}

/-- The filled branch is read back. -/
theorem fill (h : IsBranch root q slot owner atoms) (content : List Atom) :
    IsBranch (q.fill slot content root) q slot (owner.putBranch slot (some content)) content := by
  refine ⟨?_, Atom.branch_putBranch_self _ _ _, h.not_grid⟩
  exact Atom.descend?_modifyAt? h.atom?_eq (Path.modifyAtom?_eq_some h.atom?_eq _)

theorem fill_fill (h : IsBranch root q slot owner atoms) (content content' : List Atom) :
    q.fill slot content' (q.fill slot content root) = q.fill slot content' root := by
  let f (c : List Atom) (a : Atom) : Atom := a.putBranch slot (some c)
  have hfirst := Path.modifyAtom?_eq_some h.atom?_eq (f content)
  have hsecond := Path.modifyAtom?_eq_some h.atom?_eq (f content')
  have hboth := Atom.modifyAt?_modifyAt? (g := f content') h.atom?_eq hfirst
  simp only [f, Atom.putBranch_putBranch] at hboth
  simp only [Path.fill, Path.modifyAtom, Path.modifyAtom?] at hboth hsecond ⊢
  rw [hboth, hsecond]
  rfl

theorem fill_self (h : IsBranch root q slot owner atoms) : q.fill slot atoms root = root := by
  have hm := Atom.modifyAt?_eq_self (f := fun a => a.putBranch slot (some atoms)) h.atom?_eq
    (by simp [← h.branch_eq])
  simp [Path.fill, Path.modifyAtom, Path.modifyAtom?, hm]

/-- A well-formed formula stays well formed when a branch is filled with what its owner accepts. -/
theorem isWellFormed_fill (h : IsBranch root q slot owner atoms) (hw : root.isWellFormed = true)
    {content : List Atom} (hf : owner.kind.fillsSlot slot = true → content ≠ [])
    (hc : ∀ a ∈ content, a.isWellFormed = true) :
    (q.fill slot content root).isWellFormed = true :=
  (Atom.isWellFormed_modifyAt? hw h.atom?_eq rfl
    (Atom.isWellFormed_putBranch (h.isWellFormed_owner hw) (h.branchWellFormed hw hf hc))
    (Path.modifyAtom?_eq_some h.atom?_eq _)).1

theorem kind_fill (h : IsBranch root q slot owner atoms) (content : List Atom) :
    (q.fill slot content root).kind = root.kind := by
  have hm := Path.modifyAtom?_eq_some h.atom?_eq fun a => a.putBranch slot (some content)
  unfold Path.modifyAtom? at hm
  cases hs : q.steps with
  | nil => simp [Path.fill, Path.modifyAtom, Path.modifyAtom?, hs, Atom.modifyAt?]
  | cons s rest =>
      have hd := h.atom?_eq
      rw [Path.atom?, hs] at hd
      obtain ⟨atoms', i, child, hb, hi, hc, -⟩ := Atom.descend?_cons_eq_some hd
      rw [hs, Atom.modifyAt?_cons hb hi hc] at hm
      obtain ⟨c, -, he⟩ := Option.map_eq_some_iff.1 hm
      rw [Path.fill, ← he]
      rfl

end IsBranch

namespace Path

theorem atom?_modifyAtom {root owner : Atom} {q : Path} (h : q.atom? root = some owner)
    (f : Atom → Atom) : q.atom? (q.modifyAtom f root) = some (f owner) :=
  Atom.descend?_modifyAt? h (modifyAtom?_eq_some h f)

theorem modifyAtom_modifyAtom {root owner : Atom} {q : Path} (h : q.atom? root = some owner)
    (f g : Atom → Atom) :
    q.modifyAtom g (q.modifyAtom f root) = q.modifyAtom (fun a => g (f a)) root := by
  have hfirst := modifyAtom?_eq_some h f
  have hboth := modifyAtom?_eq_some h fun a => g (f a)
  have hcomp := Atom.modifyAt?_modifyAt? (g := g) h hfirst
  simp only [modifyAtom, modifyAtom?] at hcomp hboth ⊢
  rw [hcomp, hboth]
  rfl

theorem modifyAtom_congr {root owner : Atom} {q : Path} (h : q.atom? root = some owner)
    {f g : Atom → Atom} (hfg : f owner = g owner) : q.modifyAtom f root = q.modifyAtom g root := by
  simp only [modifyAtom, modifyAtom?, Atom.modifyAt?_congr h hfg]

theorem exists_of_atom?_child {root a : Atom} {q : Path} {slot : Slot} {offset : Int}
    (h : (q.child slot offset).atom? root = some a) :
    ∃ owner atoms i, q.atom? root = some owner ∧ owner.branch slot = some atoms ∧
      offset = (i : Nat) ∧ atoms[i]? = some a := by
  rw [atom?_child] at h
  obtain ⟨owner, hq, h⟩ := Option.bind_eq_some_iff.1 h
  obtain ⟨atoms, hb, h⟩ := Option.bind_eq_some_iff.1 h
  obtain ⟨i, hi, h⟩ := Option.bind_eq_some_iff.1 h
  simp only [Step.index?] at hi
  split at hi
  · cases hi
    exact ⟨owner, atoms, offset.toNat, hq, hb, by omega, h⟩
  · cases hi

end Path

theorem IsBranch.exists_of_atom?_child {root owner a : Atom} {q : Path} {slot : Slot}
    {atoms : List Atom} {offset : Int} (h : IsBranch root q slot owner atoms)
    (ha : (q.child slot offset).atom? root = some a) :
    ∃ i : Nat, offset = i ∧ atoms[i]? = some a := by
  obtain ⟨owner', atoms', i, howner, hbranch, hi, ha⟩ := Path.exists_of_atom?_child ha
  cases h.atom?_eq.symm.trans howner
  cases h.branch_eq.symm.trans hbranch
  exact ⟨i, hi, ha⟩

end FormulaEditor

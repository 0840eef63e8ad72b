import FormulaEditor.Editor.Error
import FormulaEditor.Proofs.Formula.Location

/-!
# Paths as lenses

A path reads an atom, the owner of a branch or a branch, and changes the very part that it reads:
what was changed is read back, putting back what is read changes nothing, and of two changes the
second one decides. Elsewhere a change leaves everything alone: a path reads the same as before unless
it goes into the changed part or leads to an atom above it.
-/

namespace FormulaEditor

namespace Atom

/-- The atom with what one of its branches holds changed, if it has the branch. -/
def mapBranch (slot : Slot) (f : List Atom → List Atom) (a : Atom) : Atom :=
  a.putBranch slot ((a.branch slot).map f)

theorem branch_mapBranch_self (slot : Slot) (f : List Atom → List Atom) (a : Atom) :
    (a.mapBranch slot f).branch slot = (a.branch slot).map f :=
  branch_putBranch_self a slot _

theorem branch_mapBranch_of_ne {slot other : Slot} (h : other ≠ slot) (f : List Atom → List Atom)
    (a : Atom) : (a.mapBranch slot f).branch other = a.branch other :=
  branch_putBranch_of_ne a h _

theorem mapBranch_mapBranch (slot : Slot) (f g : List Atom → List Atom) (a : Atom) :
    (a.mapBranch slot f).mapBranch slot g = a.mapBranch slot fun atoms => g (f atoms) := by
  rw [mapBranch, branch_mapBranch_self, mapBranch, putBranch_putBranch, Option.map_map]
  rfl

/-- A step into another branch of the atom leads to the same. -/
theorem descend?_mapBranch_of_ne {slot : Slot} {s : Step} (h : s.slot ≠ slot)
    (f : List Atom → List Atom) (a : Atom) (rest : List Step) :
    (a.mapBranch slot f).descend? (s :: rest) = a.descend? (s :: rest) := by
  simp only [descend?, branch_mapBranch_of_ne h]

end Atom

/-! ## Lenses -/

/-- A part of a formula that may be missing, as it is read and as it is changed: what is changed is
the very part that is read. -/
structure IsLens {α : Type} (read : Atom → Option α) (modify : (α → α) → Atom → Option Atom) :
    Prop where
  /-- The part is changed exactly where it is read. -/
  isSome_modify (f : α → α) (root : Atom) : (modify f root).isSome = (read root).isSome
  /-- What was changed is read back. -/
  read_modify {f : α → α} {root root' : Atom} :
    modify f root = some root' → read root' = (read root).map f
  /-- Nothing but the part that is read decides about the change. -/
  modify_congr {f g : α → α} {root : Atom} {part : α} :
    read root = some part → f part = g part → modify f root = modify g root
  /-- Putting back what is read changes nothing. -/
  modify_eq_self {f : α → α} {root : Atom} {part : α} :
    read root = some part → f part = part → modify f root = some root
  /-- Two changes one after the other are one change. -/
  modify_modify {f g : α → α} {root root' : Atom} :
    modify f root = some root' → modify g root' = modify (fun part => g (f part)) root

namespace Path

theorem isLens_atom (p : Path) : IsLens p.atom? p.modifyAtom? := by
  have hread {f : Atom → Atom} {root root' : Atom} (h : p.modifyAtom? f root = some root') :
      ∃ a, p.atom? root = some a := by
    apply Option.isSome_iff_exists.1
    show (root.descend? p.steps).isSome = true
    rw [← Atom.modifyAt?_isSome_eq root f]
    exact Option.isSome_of_eq_some h
  constructor
  case isSome_modify => exact fun f root => Atom.modifyAt?_isSome_eq root f p.steps
  case read_modify =>
    intro f root root' h
    obtain ⟨a, ha⟩ := hread h
    rw [ha]
    exact Atom.descend?_modifyAt? ha h
  case modify_congr => exact Atom.modifyAt?_congr
  case modify_eq_self => exact Atom.modifyAt?_eq_self
  case modify_modify =>
    intro f g root root' h
    obtain ⟨a, ha⟩ := hread h
    exact Atom.modifyAt?_modifyAt? ha h

theorem modifyOwner?_child (q : Path) (slot : Slot) (offset : Int) (f : Atom → Atom) (root : Atom) :
    (q.child slot offset).modifyOwner? f root = q.modifyAtom? f root := by
  simp [modifyOwner?]

/-- A part that no formula has. -/
theorem isLens_none {α : Type} {read : Atom → Option α} {modify : (α → α) → Atom → Option Atom}
    (hread : ∀ root, read root = none) (hmodify : ∀ f root, modify f root = none) :
    IsLens read modify := by
  constructor <;> intros <;> simp_all

theorem isLens_owner (p : Path) : IsLens p.owner? p.modifyOwner? := by
  cases p using rootOrChild with
  | root => exact isLens_none (fun _ => rfl) (fun _ _ => rfl)
  | child q slot offset =>
      have hread : (q.child slot offset).owner? = q.atom? := funext (owner?_child q slot offset)
      have hmodify : (q.child slot offset).modifyOwner? = q.modifyAtom? :=
        funext fun f => funext (modifyOwner?_child q slot offset f)
      rw [hread, hmodify]
      exact q.isLens_atom

theorem branch?_root (root : Atom) : Path.root.branch? root = none := rfl

theorem exists_owner_of_branch?_child {q : Path} {slot : Slot} {root : Atom} {atoms : List Atom}
    {offset : Int} (h : (q.child slot offset).branch? root = some atoms) :
    ∃ owner, q.atom? root = some owner ∧ owner.branch slot = some atoms := by
  rw [branch?_child] at h
  exact Option.bind_eq_some_iff.1 h

/-- Changing a branch changes its owner. -/
theorem modifyBranch?_child {q : Path} {slot : Slot} {root : Atom} {atoms : List Atom} {offset : Int}
    (h : (q.child slot offset).branch? root = some atoms) (f : List Atom → List Atom) :
    (q.child slot offset).modifyBranch? f root = q.modifyAtom? (Atom.mapBranch slot f) root := by
  obtain ⟨owner, howner, hb⟩ := exists_owner_of_branch?_child h
  simp only [modifyBranch?, slot?_child, owner?_child, howner, hb, Option.bind_eq_bind,
    Option.bind_some, modifyOwner?_child]
  apply q.isLens_atom.modify_congr howner
  rw [Atom.mapBranch, hb]
  rfl

theorem modifyBranch?_eq_none {p : Path} {root : Atom} (h : p.branch? root = none)
    (f : List Atom → List Atom) : p.modifyBranch? f root = none := by
  simp only [branch?, Option.bind_eq_bind, Option.bind_eq_none_iff] at h
  simp only [modifyBranch?, Option.bind_eq_bind, Option.bind_eq_none_iff]
  intro slot hslot owner howner atoms hb
  rw [h slot hslot owner howner] at hb
  cases hb

theorem exists_branch?_of_modifyBranch? {p : Path} {root root' : Atom} {f : List Atom → List Atom}
    (h : p.modifyBranch? f root = some root') : ∃ atoms, p.branch? root = some atoms := by
  cases hb : p.branch? root with
  | none =>
      rw [modifyBranch?_eq_none hb] at h
      cases h
  | some atoms => exact ⟨atoms, rfl⟩

theorem isLens_branch (p : Path) : IsLens p.branch? p.modifyBranch? := by
  cases p using rootOrChild with
  | root => exact isLens_none branch?_root (fun _ _ => rfl)
  | child q slot offset =>
      have hlens := q.isLens_atom
      have hread {f : List Atom → List Atom} {root root' : Atom}
          (h : (q.child slot offset).modifyBranch? f root = some root') :
          (q.child slot offset).branch? root' = ((q.child slot offset).branch? root).map f ∧
            q.modifyAtom? (Atom.mapBranch slot f) root = some root' := by
        obtain ⟨atoms, hb⟩ := exists_branch?_of_modifyBranch? h
        rw [modifyBranch?_child hb] at h
        refine ⟨?_, h⟩
        rw [branch?_child, branch?_child, hlens.read_modify h]
        cases q.atom? root with
        | none => rfl
        | some owner => exact Atom.branch_mapBranch_self slot f owner
      constructor
      case isSome_modify =>
        intro f root
        cases hb : (q.child slot offset).branch? root with
        | none => rw [modifyBranch?_eq_none hb]; rfl
        | some atoms =>
            obtain ⟨owner, howner, -⟩ := exists_owner_of_branch?_child hb
            rw [modifyBranch?_child hb, hlens.isSome_modify, howner]
            rfl
      case read_modify => exact fun h => (hread h).1
      case modify_congr =>
        intro f g root atoms hb hfg
        rw [modifyBranch?_child hb, modifyBranch?_child hb]
        obtain ⟨owner, howner, hbranch⟩ := exists_owner_of_branch?_child hb
        apply hlens.modify_congr howner
        simp only [Atom.mapBranch, hbranch, Option.map_some, hfg]
      case modify_eq_self =>
        intro f root atoms hb hf
        rw [modifyBranch?_child hb]
        obtain ⟨owner, howner, hbranch⟩ := exists_owner_of_branch?_child hb
        apply hlens.modify_eq_self howner
        rw [Atom.mapBranch, hbranch, Option.map_some, hf, ← hbranch, Atom.putBranch_branch]
      case modify_modify =>
        intro f g root root' h
        obtain ⟨atoms, hb⟩ := exists_branch?_of_modifyBranch? h
        obtain ⟨hb', hm⟩ := hread h
        rw [hb, Option.map_some] at hb'
        rw [modifyBranch?_child hb', modifyBranch?_child hb, hlens.modify_modify hm]
        simp only [Atom.mapBranch_mapBranch]

/-! ## Putting a branch -/

section putBranch

variable {p : Path} {root : Atom} {atoms : List Atom}

theorem modifyBranch?_eq_putBranch (h : p.branch? root = some atoms) (content : List Atom) :
    p.modifyBranch? (fun _ => content) root = some (p.putBranch content root) := by
  have hsome : (p.modifyBranch? (fun _ => content) root).isSome = true := by
    rw [p.isLens_branch.isSome_modify, h]
    rfl
  obtain ⟨root', hroot⟩ := Option.isSome_iff_exists.1 hsome
  rw [putBranch, modifyBranch, hroot]
  rfl

theorem branch?_putBranch (h : p.branch? root = some atoms) (content : List Atom) :
    p.branch? (p.putBranch content root) = some content := by
  rw [p.isLens_branch.read_modify (modifyBranch?_eq_putBranch h content), h]
  rfl

theorem putBranch_putBranch (h : p.branch? root = some atoms) (content content' : List Atom) :
    p.putBranch content' (p.putBranch content root) = p.putBranch content' root := by
  have hput := modifyBranch?_eq_putBranch h content
  apply Option.some.inj
  rw [← modifyBranch?_eq_putBranch (branch?_putBranch h content), ← modifyBranch?_eq_putBranch h]
  exact p.isLens_branch.modify_modify hput

theorem putBranch_self (h : p.branch? root = some atoms) : p.putBranch atoms root = root := by
  apply Option.some.inj
  rw [← modifyBranch?_eq_putBranch h]
  exact p.isLens_branch.modify_eq_self h rfl

theorem offset_withOffset (h : p.branch? root = some atoms) (offset : Int) :
    (p.withOffset offset).offset = offset := by
  cases p using rootOrChild with
  | root => cases h
  | child q slot offset' => rw [withOffset_child, offset_child]

/-- Every position in a branch points into the same branch. -/
theorem branch?_withOffset (p : Path) (offset : Int) (root : Atom) :
    (p.withOffset offset).branch? root = p.branch? root := by
  cases p using rootOrChild with
  | root => rfl
  | child q slot offset' => rw [withOffset_child, branch?_child, branch?_child]

end putBranch

/-! ## Where paths go -/

/-- Whether the path goes through the branch that another path points into. -/
def goesThroughBranch (r p : Path) : Bool :=
  p.sameBranch (r.take p.depth)

/-- The path from the atom at `above` on. -/
def below (p above : Path) : Path :=
  ⟨p.steps.drop above.depth⟩

theorem startsWith_iff {p q : Path} : p.startsWith q = true ↔ q.steps <+: p.steps :=
  List.isPrefixOf_iff_prefix

theorem startsWith_eq_false {p q : Path} : p.startsWith q = false ↔ ¬q.steps <+: p.steps := by
  rw [← startsWith_iff, Bool.not_eq_true]

theorem steps_eq_append_below {p above : Path} (h : p.startsWith above = true) :
    p.steps = above.steps ++ (p.below above).steps :=
  (List.prefix_iff_eq_append.1 (startsWith_iff.1 h)).symm

theorem goesThroughBranch_child {r q : Path} {slot : Slot} {offset : Int} :
    r.goesThroughBranch (q.child slot offset) = true ↔
      ∃ offset' rest, r.steps = q.steps ++ ⟨slot, offset'⟩ :: rest := by
  have hdepth : (q.child slot offset).depth = q.steps.length + 1 := depth_child q slot offset
  unfold goesThroughBranch
  rw [hdepth]
  constructor
  · intro h
    obtain ⟨offset', hchild⟩ := sameBranch_exists h
    have hsteps : r.steps.take (q.steps.length + 1) = q.steps ++ [⟨slot, offset'⟩] :=
      congrArg steps hchild
    refine ⟨offset', r.steps.drop (q.steps.length + 1), ?_⟩
    calc r.steps
      _ = r.steps.take (q.steps.length + 1) ++ r.steps.drop (q.steps.length + 1) :=
          (List.take_append_drop ..).symm
      _ = _ := by rw [hsteps, List.append_assoc, List.singleton_append]
  · rintro ⟨offset', rest, hsteps⟩
    have htake : r.take (q.steps.length + 1) = q.child slot offset' := by
      simp [take, child, hsteps, List.take_append, List.take_of_length_le]
    rw [htake]
    exact (sameBranch_child ..).2 ⟨rfl, rfl⟩

/-! ## What a change leaves alone -/

/-- Every path reads the same in two formulas, unless it goes into the part that was changed or what
it reads holds that part. -/
structure SameElsewhere (root root' : Atom) (goesInto atomHolds branchHolds : Path → Bool) : Prop where
  atom_eq {r : Path} : goesInto r = false → atomHolds r = false → r.atom? root' = r.atom? root
  branch_eq {r : Path} : goesInto r = false → branchHolds r = false →
    r.branch? root' = r.branch? root

variable {root root' : Atom}

/-- Above a changed atom, a branch that does not hold it is the same. -/
theorem branch?_of_above {p q : Path} {f : Atom → Atom} (hm : p.modifyAtom? f root = some root')
    (habove : q.steps <+: p.steps) (hne : q ≠ p) {slot : Slot} {offset : Int}
    (hholds : ∀ offset' rest, p.steps ≠ q.steps ++ ⟨slot, offset'⟩ :: rest) :
    (q.child slot offset).branch? root' = (q.child slot offset).branch? root := by
  obtain ⟨rest, hrest⟩ := habove
  cases rest with
  | nil =>
      rw [List.append_nil] at hrest
      exact absurd (congrArg Path.mk hrest) hne
  | cons s rest =>
      have hslot : slot ≠ s.slot := by
        rintro rfl
        exact hholds s.offset rest hrest.symm
      unfold modifyAtom? at hm
      rw [← hrest] at hm
      rw [branch?_child, branch?_child]
      exact Atom.branch_descend?_modifyAt?_above hm hslot

/-- A path that does not go into the changed atom points into the same branch, unless the branch holds
the atom. -/
theorem branch?_of_modifyAtom? {p r : Path} {f : Atom → Atom}
    (hm : p.modifyAtom? f root = some root') (hinto : r.startsWith p = false)
    (hholds : p.goesThroughBranch r = false) : r.branch? root' = r.branch? root := by
  cases r using rootOrChild with
  | root => rfl
  | child q slot offset =>
      rw [startsWith_eq_false, steps_child] at hinto
      by_cases habove : q.steps <+: p.steps
      · apply branch?_of_above hm habove
        · rintro rfl
          exact hinto (List.prefix_append _ _)
        · intro offset' rest hsteps
          rw [goesThroughBranch_child.2 ⟨offset', rest, hsteps⟩] at hholds
          cases hholds
      · have hsame : q.atom? root' = q.atom? root := by
          apply Atom.descend?_modifyAt?_of_not_prefix hm _ habove
          intro h
          exact hinto (h.trans (List.prefix_append _ _))
        rw [branch?_child, branch?_child, hsame]

/-- Changing an atom changes nothing elsewhere. -/
theorem sameElsewhere_modifyAtom? {p : Path} {f : Atom → Atom}
    (hm : p.modifyAtom? f root = some root') :
    SameElsewhere root root' (fun r => r.startsWith p) p.startsWith p.goesThroughBranch := by
  constructor
  case atom_eq =>
    intro r hinto habove
    exact Atom.descend?_modifyAt?_of_not_prefix hm (startsWith_eq_false.1 hinto)
      (startsWith_eq_false.1 habove)
  case branch_eq => exact branch?_of_modifyAtom? hm

/-- A path that goes elsewhere from the owner of the changed branch, or does not reach the owner,
leads to the same atom. -/
theorem atom?_of_mapBranch {q r : Path} {slot : Slot} {f : List Atom → List Atom}
    (hm : q.modifyAtom? (Atom.mapBranch slot f) root = some root')
    (hinto : ∀ offset rest, r.steps ≠ q.steps ++ ⟨slot, offset⟩ :: rest)
    (habove : ¬r.steps <+: q.steps) : r.atom? root' = r.atom? root := by
  by_cases hq : q.steps <+: r.steps
  · obtain ⟨rest, hrest⟩ := hq
    cases rest with
    | nil =>
        rw [List.append_nil] at hrest
        exact absurd (hrest ▸ List.prefix_refl _) habove
    | cons s rest =>
        have hslot : s.slot ≠ slot := by
          rintro rfl
          exact hinto s.offset rest hrest.symm
        have howner : root'.descend? q.steps = (root.descend? q.steps).map (Atom.mapBranch slot f) :=
          q.isLens_atom.read_modify hm
        rw [atom?, atom?, ← hrest, Atom.descend?_append, Atom.descend?_append, howner]
        cases root.descend? q.steps with
        | none => rfl
        | some owner => exact Atom.descend?_mapBranch_of_ne hslot f owner rest
  · exact Atom.descend?_modifyAt?_of_not_prefix hm hq habove

/-- A path that goes elsewhere from the owner of the changed branch, or does not reach the owner,
points into the same branch, unless that one holds the changed branch. -/
theorem branch?_of_mapBranch {q r : Path} {slot : Slot} {offset : Int} {f : List Atom → List Atom}
    (hm : q.modifyAtom? (Atom.mapBranch slot f) root = some root')
    (hinto : ∀ offset rest, r.steps ≠ q.steps ++ ⟨slot, offset⟩ :: rest)
    (hholds : (q.child slot offset).goesThroughBranch r = false) :
    r.branch? root' = r.branch? root := by
  cases r using rootOrChild with
  | root => rfl
  | child q' slot' offset' =>
      rw [steps_child] at hinto
      by_cases hq : q' = q
      · subst hq
        have hslot : slot' ≠ slot := by
          rintro rfl
          exact hinto offset' [] rfl
        rw [branch?_child, branch?_child, q'.isLens_atom.read_modify hm]
        cases q'.atom? root with
        | none => rfl
        | some owner => exact Atom.branch_mapBranch_of_ne hslot f owner
      · by_cases habove : q'.steps <+: q.steps
        · apply branch?_of_above hm habove hq
          intro offset'' rest hsteps
          have hchild : (q.child slot offset).steps =
              q'.steps ++ ⟨slot', offset''⟩ :: (rest ++ [⟨slot, offset⟩]) := by
            rw [steps_child, hsteps, List.append_assoc, List.cons_append]
          rw [goesThroughBranch_child.2 ⟨offset'', _, hchild⟩] at hholds
          cases hholds
        · have hsame : q'.atom? root' = q'.atom? root := by
            apply atom?_of_mapBranch hm _ habove
            intro offset'' rest hsteps
            apply hinto offset'' (rest ++ [⟨slot', offset'⟩])
            rw [hsteps, List.append_assoc, List.cons_append]
          rw [branch?_child, branch?_child, hsame]

/-- Changing a branch changes nothing elsewhere. -/
theorem sameElsewhere_modifyBranch? {p : Path} {f : List Atom → List Atom}
    (hm : p.modifyBranch? f root = some root') :
    SameElsewhere root root' (fun r => r.goesThroughBranch p) p.parent.startsWith
      p.goesThroughBranch := by
  obtain ⟨atoms, hb⟩ := exists_branch?_of_modifyBranch? hm
  cases p using rootOrChild with
  | root => cases hb
  | child q slot offset =>
      rw [modifyBranch?_child hb] at hm
      rw [parent_child]
      have hinto {r : Path} (h : r.goesThroughBranch (q.child slot offset) = false)
          (offset' : Int) (rest : List Step) : r.steps ≠ q.steps ++ ⟨slot, offset'⟩ :: rest := by
        intro hsteps
        rw [goesThroughBranch_child.2 ⟨offset', rest, hsteps⟩] at h
        cases h
      constructor
      case atom_eq =>
        intro r hr habove
        exact atom?_of_mapBranch hm (hinto hr) (startsWith_eq_false.1 habove)
      case branch_eq =>
        intro r hr hholds
        exact branch?_of_mapBranch hm (hinto hr) hholds

/-- Above a changed atom stands the atom with the change below it. -/
theorem atom?_of_startsWith_modifyAtom? {p r : Path} {f : Atom → Atom}
    (hm : p.modifyAtom? f root = some root') (habove : p.startsWith r = true) :
    r.atom? root' = (r.atom? root).bind fun a => (p.below r).modifyAtom? f a := by
  unfold modifyAtom? at hm
  rw [steps_eq_append_below habove] at hm
  exact Atom.descend?_modifyAt?_above hm

/-- Above a changed branch stands the atom with the change below it. -/
theorem atom?_of_startsWith_modifyBranch? {p r : Path} {f : List Atom → List Atom}
    (hm : p.modifyBranch? f root = some root') (habove : p.parent.startsWith r = true) :
    r.atom? root' = (r.atom? root).bind fun a => (p.below r).modifyBranch? f a := by
  obtain ⟨atoms, hb⟩ := exists_branch?_of_modifyBranch? hm
  cases p using rootOrChild with
  | root => cases hb
  | child q slot offset =>
      rw [modifyBranch?_child hb] at hm
      rw [parent_child] at habove
      have hbelow : (q.child slot offset).below r = (q.below r).child slot offset := by
        have hle := (startsWith_iff.1 habove).length_le
        simp [below, child, depth, List.drop_append_of_le_length hle]
      rw [atom?_of_startsWith_modifyAtom? hm habove, hbelow]
      cases ha : r.atom? root with
      | none => rfl
      | some a =>
          have howner : q.atom? root = (q.below r).atom? a := by
            rw [atom?, steps_eq_append_below habove, Atom.descend?_append]
            show (r.atom? root).bind _ = _
            rw [ha]
            rfl
          rw [branch?_child, howner, ← branch?_child (q.below r) slot offset] at hb
          exact (modifyBranch?_child hb f).symm

/-! ## Resolving -/

section resolve

variable {p : Path}

theorem resolve?_child (q : Path) (slot : Slot) (offset : Int) (root : Atom) :
    (q.child slot offset).resolve? root =
      (q.atom? root).bind fun owner => (owner.branch slot).bind fun atoms =>
        match Step.index? ⟨slot, offset⟩ with
        | some i => (atoms[i]?).map Place.atom
        | none => if offset = leadingGap then some (.gap owner slot) else none := by
  unfold resolve?
  rw [last?_child]
  simp only [owner?_child]
  rfl

/-- A path resolves to the atom that it reaches. -/
theorem resolve?_eq_atom_iff {a : Atom} :
    p.resolve? root = some (.atom a) ↔ p.atom? root = some a := by
  cases p using rootOrChild with
  | root => simp [resolve?, last?, atom?, Path.root, Atom.descend?]
  | child q slot offset =>
      rw [resolve?_child, atom?_child]
      cases q.atom? root with
      | none => simp
      | some owner =>
          cases hb : owner.branch slot with
          | none => simp [hb]
          | some atoms => cases Step.index? ⟨slot, offset⟩ <;> simp [hb]

/-- A path resolves to the gap before the branch that it points into. -/
theorem resolve?_eq_gap_iff {owner : Atom} {slot : Slot} :
    p.resolve? root = some (.gap owner slot) ↔
      (p.offset = leadingGap ∧ (p.branch? root).isSome = true) ∧
        p.owner? root = some owner ∧ p.slot? = some slot := by
  cases p using rootOrChild with
  | root => simp [resolve?, last?, slot?, Path.root]
  | child q slot' offset =>
      rw [resolve?_child, branch?_child, owner?_child, slot?_child, offset_child]
      have hleading : offset = leadingGap → Step.index? ⟨slot', offset⟩ = none := by
        rintro rfl
        rfl
      cases q.atom? root with
      | none => simp
      | some owner' =>
          cases hb : owner'.branch slot' with
          | none => simp [hb]
          | some atoms =>
              cases hi : Step.index? ⟨slot', offset⟩ with
              | none => simp [hb]
              | some i =>
                  have hne : offset ≠ leadingGap := fun h => by simp [hleading h] at hi
                  simp [hb, hne]

theorem exists_owner_of_branch? (h : (p.branch? root).isSome = true) :
    ∃ owner slot, p.owner? root = some owner ∧ p.slot? = some slot := by
  obtain ⟨atoms, hb⟩ := Option.isSome_iff_exists.1 h
  simp only [branch?, Option.bind_eq_bind, Option.bind_eq_some_iff] at hb
  obtain ⟨slot, hslot, owner, howner, -⟩ := hb
  exact ⟨owner, slot, howner, hslot⟩

theorem exists_resolve?_eq_gap_iff :
    (∃ owner slot, p.resolve? root = some (.gap owner slot)) ↔
      p.offset = leadingGap ∧ (p.branch? root).isSome = true := by
  constructor
  · rintro ⟨owner, slot, h⟩
    exact (resolve?_eq_gap_iff.1 h).1
  · intro h
    obtain ⟨owner, slot, hread⟩ := exists_owner_of_branch? h.2
    exact ⟨owner, slot, resolve?_eq_gap_iff.2 ⟨h, hread⟩⟩

theorem resolve?_eq_none_iff :
    p.resolve? root = none ↔
      p.atom? root = none ∧ ¬(p.offset = leadingGap ∧ (p.branch? root).isSome = true) := by
  rw [← exists_resolve?_eq_gap_iff]
  cases hr : p.resolve? root with
  | some place =>
      cases place with
      | atom a => simp [resolve?_eq_atom_iff.1 hr]
      | gap owner slot => simp
  | none =>
      have hatom : p.atom? root = none := by
        apply Option.eq_none_iff_forall_ne_some.2
        intro a ha
        rw [resolve?_eq_atom_iff.2 ha] at hr
        cases hr
      simp [hatom]

/-- What resolving a path says about the atom, the owner and the branch that it reaches. -/
structure ResolvesAsRead (p : Path) (root : Atom) : Prop where
  atom_iff {a : Atom} : p.resolve root = .ok (.atom a) ↔ p.atom? root = some a
  gap_iff : (∃ owner slot, p.resolve root = .ok (.gap owner slot)) ↔
    p.offset = leadingGap ∧ (p.branch? root).isSome = true
  gap_eq {owner : Atom} {slot : Slot} : p.resolve root = .ok (.gap owner slot) →
    p.owner? root = some owner ∧ p.slot? = some slot
  /-- Any other path does not resolve. -/
  error_iff {e : EditError} : p.resolve root = .error e ↔
    (p.atom? root = none ∧ ¬(p.offset = leadingGap ∧ (p.branch? root).isSome = true)) ∧
      e = .invalidPath p

theorem resolve_eq_ok_iff {place : Place} :
    p.resolve root = .ok place ↔ p.resolve? root = some place := by
  unfold resolve
  cases p.resolve? root <;> simp

theorem resolve_eq_error_iff {e : EditError} :
    p.resolve root = .error e ↔ p.resolve? root = none ∧ e = .invalidPath p := by
  unfold resolve
  cases p.resolve? root <;> simp [eq_comm]

theorem resolvesAsRead (p : Path) (root : Atom) : p.ResolvesAsRead root := by
  constructor
  case atom_iff => exact resolve_eq_ok_iff.trans resolve?_eq_atom_iff
  case gap_iff => simpa only [resolve_eq_ok_iff] using exists_resolve?_eq_gap_iff
  case gap_eq => exact fun h => (resolve?_eq_gap_iff.1 (resolve_eq_ok_iff.1 h)).2
  case error_iff => exact resolve_eq_error_iff.trans (and_congr_left' resolve?_eq_none_iff)

end resolve

/-! ## The accessors of a path -/

/-- Resolving a path agrees with reading through it, and the atom, the owner and the branch that it
reaches are changed just where they are read. Every path that neither goes into the changed branch or
atom nor leads to an atom above reads the same as before; a path that leads to an atom above reads that
atom with the change below it. -/
theorem accessors_agree (p : Path) (root : Atom) :
    p.ResolvesAsRead root ∧ IsLens p.atom? p.modifyAtom? ∧ IsLens p.owner? p.modifyOwner? ∧
    IsLens p.branch? p.modifyBranch? ∧
    (∀ f root', p.modifyBranch? f root = some root' →
      SameElsewhere root root' (fun r => r.goesThroughBranch p) p.parent.startsWith
          p.goesThroughBranch ∧
        ∀ r, p.parent.startsWith r = true →
          r.atom? root' = (r.atom? root).bind fun a => (p.below r).modifyBranch? f a) ∧
    ∀ f root', p.modifyAtom? f root = some root' →
      SameElsewhere root root' (fun r => r.startsWith p) p.startsWith p.goesThroughBranch ∧
        ∀ r, p.startsWith r = true →
          r.atom? root' = (r.atom? root).bind fun a => (p.below r).modifyAtom? f a := by
  refine ⟨p.resolvesAsRead root, p.isLens_atom, p.isLens_owner, p.isLens_branch, ?_, ?_⟩
  · intro f root' h
    exact ⟨sameElsewhere_modifyBranch? h, fun r => atom?_of_startsWith_modifyBranch? h⟩
  · intro f root' h
    exact ⟨sameElsewhere_modifyAtom? h, fun r => atom?_of_startsWith_modifyAtom? h⟩

/-- A letter with a letter as its superscript. -/
def letterWithExponent : Atom :=
  let base : Atom := .node ⟨1, .ordinary, some "x", some 'x', Marks.none⟩
    { Branches.none with superscript := some [.leaf 2 .ordinary (some "y") (some 'y')] }
  .node ⟨0, .root, none, none, Marks.none⟩ { Branches.none with body := some [base] }

/-- The path of an atom does not go through the superscript of the atom, and yet what it reads is
changed with the superscript. -/
theorem atom?_ne_of_exponent_changed :
    ∃ root', ((inRoot 0).child .superscript 0).modifyBranch? (fun _ => []) letterWithExponent =
        some root' ∧
      (inRoot 0).goesThroughBranch ((inRoot 0).child .superscript 0) = false ∧
      (inRoot 0).atom? root' ≠ (inRoot 0).atom? letterWithExponent := by
  refine ⟨_, rfl, rfl, ?_⟩
  intro h
  have hexponent := congrArg (fun a? => (a?.bind fun a => a.branch .superscript).map List.length) h
  exact absurd hexponent (by decide)

end Path

end FormulaEditor

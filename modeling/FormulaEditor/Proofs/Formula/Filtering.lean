import FormulaEditor.Proofs.Formula.Location

/-!
# Atoms with certain labels

The atoms of a formula whose labels have some property, in document order. If there are none, those
that there are once a branch was filled with others are those among the others.
-/

namespace FormulaEditor

namespace Atom

variable {p : Label → Bool} {a b a' : Atom} {slot : Slot} {atoms before after : List Atom}
  {marks : Marks}

/-- The atoms of a sequence, and everything below them, whose labels have a property. -/
def withLabels (p : Label → Bool) (atoms : List Atom) : List Atom :=
  (subatomsOfList atoms).filter fun b => p b.label

@[simp] theorem withLabels_nil (p : Label → Bool) : withLabels p [] = [] := rfl

@[simp] theorem withLabels_append (p : Label → Bool) (as bs : List Atom) :
    withLabels p (as ++ bs) = withLabels p as ++ withLabels p bs := by
  rw [withLabels, subatomsOfList_append, List.filter_append, withLabels, withLabels]

theorem withLabels_cons (p : Label → Bool) (a : Atom) (rest : List Atom) :
    withLabels p (a :: rest) = withLabels p [a] ++ withLabels p rest :=
  withLabels_append p [a] rest

theorem withLabels_children (p : Label → Bool) (a : Atom) :
    withLabels p a.children =
      Slot.all.flatMap fun slot => withLabels p ((a.branch slot).getD []) := by
  obtain ⟨label, branches⟩ := a
  simp [children, branch, Branches.toList, Slot.all]

theorem withLabels_singleton (p : Label → Bool) (a : Atom) :
    withLabels p [a] = (if p a.label then [a] else []) ++ withLabels p a.children := by
  rw [withLabels, subatomsOfList, subatomsOfList, List.append_nil, subatoms_eq, List.filter_cons]
  split <;> rfl

/-! ## Where there are none -/

theorem withLabels_eq_nil_iff : withLabels p atoms = [] ↔ ∀ a ∈ atoms, withLabels p [a] = [] := by
  induction atoms with
  | nil => simp
  | cons a rest ih =>
      rw [withLabels_cons, List.append_eq_nil_iff, ih, List.forall_mem_cons]

theorem withLabels_eq_nil_mono {q : Label → Bool} (hpq : ∀ l, p l = true → q l = true)
    (h : withLabels q atoms = []) : withLabels p atoms = [] := by
  rw [withLabels, List.filter_eq_nil_iff] at h ⊢
  exact fun a ha hp => h a ha (hpq a.label hp)

theorem withLabels_singleton_eq_nil_iff : withLabels p [a] = [] ↔
    p a.label = false ∧ ∀ slot, withLabels p ((a.branch slot).getD []) = [] := by
  rw [withLabels_singleton, List.append_eq_nil_iff, withLabels_children, List.flatMap_eq_nil_iff]
  refine and_congr ?_ ⟨fun h slot => h slot (Slot.mem_all slot), fun h slot _ => h slot⟩
  cases p a.label <;> simp

theorem withLabels_branch_eq_nil (h : withLabels p [a] = []) (hb : a.branch slot = some atoms) :
    withLabels p atoms = [] := by
  have hbranch := (withLabels_singleton_eq_nil_iff.1 h).2 slot
  rwa [hb] at hbranch

theorem withLabels_children_eq_nil (h : withLabels p [a] = []) : withLabels p a.children = [] := by
  rw [withLabels_singleton, List.append_eq_nil_iff] at h
  exact h.2

theorem withLabels_descend?_eq_nil {steps : List Step} (h : withLabels p [a] = [])
    (hd : a.descend? steps = some b) : withLabels p [b] = [] :=
  of_descend? (P := fun a => withLabels p [a] = [])
    (fun h hb => withLabels_eq_nil_iff.1 (withLabels_branch_eq_nil h hb)) h hd

theorem withLabels_eq_nil_of_mem_children (h : withLabels p [a] = []) (hb : b ∈ a.children) :
    withLabels p [b] = [] :=
  withLabels_eq_nil_iff.1 (withLabels_children_eq_nil h) b hb

theorem withLabels_eq_nil_of_mem (h : withLabels p [a] = []) (hb : b ∈ a.subatoms) :
    withLabels p [b] = [] :=
  of_mem_subatoms (P := fun b => withLabels p [b] = [])
    (fun _ h _ => withLabels_eq_nil_of_mem_children h) h hb

/-- Changed labels that never have a property. -/
theorem withLabels_mapLabels_eq_nil {f : Label → Label} (h : ∀ l, p (f l) = false) (a : Atom) :
    withLabels p [a.mapLabels f] = [] := by
  induction a using branchInduction with
  | step a ih =>
      refine withLabels_singleton_eq_nil_iff.2 ⟨by rw [label_mapLabels, h], fun slot => ?_⟩
      rw [branch_mapLabels]
      cases hb : a.branch slot with
      | none => rfl
      | some atoms =>
          exact withLabels_eq_nil_iff.2 (List.forall_mem_map.2 (ih slot atoms hb))

/-! ## What a change brings -/

theorem withLabels_mark (p : Label → Bool) (a : Atom) (marks : Marks) :
    withLabels p [a.mark marks] =
      (if p (a.mark marks).label then [a.mark marks] else []) ++ withLabels p a.children := by
  rw [withLabels_singleton, children_mark]

/-- An atom that was marked is found. -/
theorem withLabels_mark_of_true (hn : withLabels p [a] = [])
    (hm : p (a.mark marks).label = true) : withLabels p [a.mark marks] = [a.mark marks] := by
  rw [withLabels_mark, if_pos hm, withLabels_children_eq_nil hn, List.append_nil]

/-- An atom that got another mark is not found. -/
theorem withLabels_mark_of_false (hn : withLabels p [a] = [])
    (hm : p (a.mark marks).label = false) : withLabels p [a.mark marks] = [] := by
  rw [withLabels_mark, hm, withLabels_children_eq_nil hn]
  rfl

theorem withLabels_map_mark (hn : withLabels p atoms = [])
    (hm : ∀ a : Atom, p (a.mark marks).label = true) :
    withLabels p (atoms.map (·.mark marks)) = atoms.map (·.mark marks) := by
  induction atoms with
  | nil => rfl
  | cons a rest ih =>
      rw [withLabels_cons, List.append_eq_nil_iff] at hn
      rw [List.map_cons, withLabels_cons, withLabels_mark_of_true hn.1 (hm a), ih hn.2]
      rfl

/-- Other atoms in the place of some bring what is found in them. -/
theorem withLabels_between (hn : withLabels p (before ++ atoms ++ after) = [])
    (content : List Atom) : withLabels p (before ++ content ++ after) = withLabels p content := by
  simp only [withLabels_append, List.append_eq_nil_iff] at hn ⊢
  rw [hn.1.1, hn.2, List.append_nil, List.nil_append]

/-- A new branch of an atom brings what is found in it. -/
theorem withLabels_putBranch (h : withLabels p [a] = []) (slot : Slot) (content : List Atom) :
    withLabels p [a.putBranch slot (some content)] = withLabels p content := by
  obtain ⟨hlabel, hnone⟩ := withLabels_singleton_eq_nil_iff.1 h
  have hslots : (Slot.all.map fun other =>
      withLabels p (((a.putBranch slot (some content)).branch other).getD [])) =
        Slot.all.map fun other => if other = slot then withLabels p content else [] := by
    refine List.map_congr_left fun other _ => ?_
    split
    · rename_i heq
      rw [heq, branch_putBranch_self, Option.getD_some]
    · rename_i hne
      rw [branch_putBranch_of_ne a hne, hnone]
  rw [withLabels_singleton, label_putBranch, hlabel, withLabels_children, List.flatMap_def, hslots]
  cases slot <;> simp [Slot.all]

/-- Another atom in a sequence brings what is found in it. -/
theorem withLabels_set (h : withLabels p atoms = []) {i : Nat} (hi : i < atoms.length) (c : Atom) :
    withLabels p (atoms.set i c) = withLabels p [c] := by
  rw [withLabels_eq_nil_iff] at h
  have htake : withLabels p (atoms.take i) = [] :=
    withLabels_eq_nil_iff.2 fun a ha => h a (List.mem_of_mem_take ha)
  have hdrop : withLabels p (atoms.drop (i + 1)) = [] :=
    withLabels_eq_nil_iff.2 fun a ha => h a (List.mem_of_mem_drop ha)
  rw [List.set_eq_take_append_cons_drop, if_pos hi, withLabels_append, withLabels_cons, htake,
    hdrop, List.append_nil, List.nil_append]

theorem withLabels_modifyAt? {steps : List Step} {f : Atom → Atom} (h : withLabels p [a] = [])
    (hd : a.descend? steps = some b) (hm : a.modifyAt? f steps = some a') :
    withLabels p [a'] = withLabels p [f b] := by
  induction steps generalizing a a' with
  | nil =>
      cases hd
      cases hm
      rfl
  | cons s rest ih =>
      obtain ⟨atoms, i, child, hb, hi, hc, hd⟩ := descend?_cons_eq_some hd
      rw [modifyAt?_cons hb hi hc] at hm
      obtain ⟨c, hcm, rfl⟩ := Option.map_eq_some_iff.1 hm
      have hatoms := withLabels_branch_eq_nil h hb
      rw [withLabels_putBranch h, withLabels_set hatoms (lt_length_of_getElem?_eq_some hc)]
      exact ih (withLabels_eq_nil_iff.1 hatoms child (List.mem_of_getElem? hc)) hd hcm

/-- Nothing is found below leaves. -/
theorem withLabels_of_leaves (p : Label → Bool) (hb : ∀ a ∈ atoms, ∀ slot, a.branch slot = none) :
    withLabels p atoms = atoms.filter fun a => p a.label := by
  induction atoms with
  | nil => rfl
  | cons a rest ih =>
      obtain ⟨hleaf, hleaves⟩ := List.forall_mem_cons.1 hb
      have hchildren : withLabels p a.children = [] := by
        rw [withLabels_children, List.flatMap_eq_nil_iff]
        intro slot _
        rw [hleaf]
        rfl
      rw [withLabels_cons, withLabels_singleton, hchildren, ih hleaves, List.filter_cons]
      split <;> rfl

end Atom

open Atom (withLabels)

namespace IsBranch

variable {root owner : Atom} {q : Path} {slot : Slot} {atoms : List Atom} {p : Label → Bool}

theorem withLabels_eq_nil (hb : IsBranch root q slot owner atoms) (h : withLabels p [root] = []) :
    withLabels p atoms = [] :=
  Atom.withLabels_branch_eq_nil (Atom.withLabels_descend?_eq_nil h hb.atom?_eq) hb.branch_eq

/-- A filled branch brings what is found in its atoms. -/
theorem withLabels_fill (hb : IsBranch root q slot owner atoms) (h : withLabels p [root] = [])
    (content : List Atom) : withLabels p [q.fill slot content root] = withLabels p content := by
  rw [Path.fill, Atom.withLabels_modifyAt? h hb.atom?_eq (Path.modifyAtom?_eq_some hb.atom?_eq _)]
  exact Atom.withLabels_putBranch (Atom.withLabels_descend?_eq_nil h hb.atom?_eq) slot content

end IsBranch

end FormulaEditor

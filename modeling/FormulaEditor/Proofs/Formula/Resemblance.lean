import FormulaEditor.Formula.Placeholders
import FormulaEditor.Proofs.Formula.Alike
import FormulaEditor.Proofs.Formula.Location

/-!
# Paths in alike formulas

Alike formulas have the same positions, and filling a branch with alike atoms makes alike formulas.
Filling a branch changes no kind along the way to it.
-/

namespace FormulaEditor

namespace Atom

/-- Steps lead to alike atoms. -/
theorem descend?_bare (a : Atom) (steps : List Step) :
    a.bare.descend? steps = (a.descend? steps).map bare := by
  induction steps generalizing a with
  | nil => rfl
  | cons s rest ih =>
      simp only [descend?, branch_bare]
      cases a.branch s.slot with
      | none => rfl
      | some atoms =>
          simp only [Option.map_some, Option.bind_eq_bind, Option.bind_some]
          cases s.index? with
          | none => rfl
          | some i =>
              simp only [Option.bind_some, List.getElem?_map]
              cases atoms[i]? with
              | none => rfl
              | some child => exact ih child

/-- Alike changes make alike atoms. -/
theorem modifyAt?_bare {f g : Atom → Atom} (hfg : ∀ a, (f a).bare = g a.bare) (a : Atom)
    (steps : List Step) : a.bare.modifyAt? g steps = (a.modifyAt? f steps).map bare := by
  induction steps generalizing a with
  | nil => simp only [modifyAt?, Option.map_some, hfg]
  | cons s rest ih =>
      simp only [modifyAt?, branch_bare]
      cases a.branch s.slot with
      | none => rfl
      | some atoms =>
          simp only [Option.map_some, Option.bind_eq_bind, Option.bind_some]
          cases s.index? with
          | none => rfl
          | some i =>
              simp only [Option.bind_some, List.getElem?_map]
              cases atoms[i]? with
              | none => rfl
              | some child =>
                  simp only [Option.map_some, Option.bind_some, ih child]
                  cases child.modifyAt? f rest with
                  | none => rfl
                  | some c =>
                      simp only [Option.map_some, Option.bind_some, Option.pure_def, bare_putBranch,
                        List.map_set]

/-- A change of an atom that is not seen in its changed labels is not seen in those of the formula. -/
theorem mapLabels_modifyAt? {g : Label → Label} {a a' : Atom} {steps : List Step} {f : Atom → Atom}
    (hf : ∀ b, a.descend? steps = some b → (f b).mapLabels g = b.mapLabels g)
    (hm : a.modifyAt? f steps = some a') : a'.mapLabels g = a.mapLabels g := by
  induction steps generalizing a a' with
  | nil =>
      cases hm
      exact hf a rfl
  | cons s rest ih =>
      cases hd : a.descend? (s :: rest) with
      | none => cases (modifyAt?_eq_none hd f).symm.trans hm
      | some b =>
          obtain ⟨atoms, i, child, hb, hi, hc, hchild⟩ := descend?_cons_eq_some hd
          rw [modifyAt?_cons hb hi hc] at hm
          obtain ⟨c, hcm, rfl⟩ := Option.map_eq_some_iff.1 hm
          have hlabels : c.mapLabels g = child.mapLabels g := by
            refine ih (fun b' hb' => hf b' ?_) hcm
            rwa [hd, ← hchild]
          have hset : (atoms.set i c).map (mapLabels g) = atoms.map (mapLabels g) := by
            have hmapped : (atoms.map (mapLabels g))[i]? = some (child.mapLabels g) := by
              rw [List.getElem?_map, hc, Option.map_some]
            obtain ⟨_, hget⟩ := List.getElem?_eq_some_iff.1 hmapped
            rw [List.map_set, hlabels, ← hget, List.set_getElem_self]
          rw [mapLabels_putBranch, Option.map_some, hset, ← Option.map_some, ← hb,
            ← branch_mapLabels, putBranch_branch]

/-- A change of an atom that keeps its kind changes no kind on the way to it. -/
theorem kind_descend?_modifyAt? {a a' : Atom} {steps : List Step} {f : Atom → Atom}
    (hf : ∀ b, (f b).kind = b.kind) (hm : a.modifyAt? f steps = some a') (n : Nat) :
    (a'.descend? (steps.take n)).map kind = (a.descend? (steps.take n)).map kind := by
  induction steps generalizing a a' n with
  | nil =>
      cases hm
      simp [descend?, hf]
  | cons s rest ih =>
      cases hd : a.descend? (s :: rest) with
      | none =>
          rw [modifyAt?_eq_none hd] at hm
          cases hm
      | some b =>
          obtain ⟨atoms, i, child, hb, hi, hc, hd⟩ := descend?_cons_eq_some hd
          rw [modifyAt?_cons hb hi hc] at hm
          obtain ⟨c, hcm, rfl⟩ := Option.map_eq_some_iff.1 hm
          cases n with
          | zero => rfl
          | succ n =>
              have hlt := lt_length_of_getElem?_eq_some hc
              simp only [List.take_succ_cons, descend?, hb, hi, hc, branch_putBranch_self,
                Option.bind_eq_bind, Option.bind_some, List.getElem?_set_self hlt, ih hcm n]

end Atom

namespace Path

variable {root : Atom} {q : Path} {slot : Slot} {content content' : List Atom}

theorem atom?_bare (p : Path) (root : Atom) :
    p.atom? root.bare = (p.atom? root).map Atom.bare :=
  Atom.descend?_bare root p.steps

section

variable {g : Label → Label} {p : Path} {root : Atom}

theorem mapLabels_modifyAtom {f : Atom → Atom}
    (hf : ∀ a, p.atom? root = some a → (f a).mapLabels g = a.mapLabels g) :
    (p.modifyAtom f root).mapLabels g = root.mapLabels g := by
  unfold modifyAtom modifyAtom?
  cases hm : root.modifyAt? f p.steps with
  | none => rfl
  | some a => exact Atom.mapLabels_modifyAt? hf hm

theorem mapLabels_modifyOwner {f : Atom → Atom}
    (hf : ∀ a, p.owner? root = some a → (f a).mapLabels g = a.mapLabels g) :
    (p.modifyOwner f root).mapLabels g = root.mapLabels g := by
  unfold modifyOwner modifyOwner?
  cases hr : p.isRoot with
  | true => rfl
  | false =>
      refine mapLabels_modifyAtom (p := p.parent) fun a ha => hf a ?_
      simpa [owner?, hr] using ha

/-- A change of a branch that is not seen in the changed labels. -/
theorem mapLabels_modifyBranch {f : List Atom → List Atom}
    (hf : ∀ atoms, p.branch? root = some atoms →
      (f atoms).map (Atom.mapLabels g) = atoms.map (Atom.mapLabels g)) :
    (p.modifyBranch f root).mapLabels g = root.mapLabels g := by
  unfold modifyBranch modifyBranch?
  cases hs : p.slot? with
  | none => rfl
  | some slot =>
      cases ho : p.owner? root with
      | none => rfl
      | some owner =>
          cases hb : owner.branch slot with
          | none => simp [hb]
          | some atoms =>
              simp only [Option.bind_eq_bind, Option.bind_some, hb]
              refine mapLabels_modifyOwner fun a ha => ?_
              cases ho.symm.trans ha
              rw [Atom.mapLabels_putBranch, Option.map_some, hf atoms (by simp [branch?, hs, ho, hb]),
                ← Option.map_some, ← hb, ← Atom.branch_mapLabels, Atom.putBranch_branch]

end

theorem bare_fill (q : Path) (slot : Slot) (content : List Atom) (root : Atom) :
    (q.fill slot content root).bare = q.fill slot (content.map Atom.bare) root.bare := by
  have hm := Atom.modifyAt?_bare (f := fun a => a.putBranch slot (some content))
    (g := fun a => a.putBranch slot (some (content.map Atom.bare)))
    (fun a => by rw [Atom.bare_putBranch, Option.map_some]) root q.steps
  unfold fill modifyAtom modifyAtom?
  rw [hm]
  cases root.modifyAt? (fun a => a.putBranch slot (some content)) q.steps <;> rfl

theorem bare_fill_congr (h : content.map Atom.bare = content'.map Atom.bare) :
    (q.fill slot content root).bare = (q.fill slot content' root).bare := by
  rw [bare_fill, bare_fill, h]

/-- Formulas that differ in one branch are alike exactly if what the branch holds is. -/
theorem bare_fill_iff {owner : Atom} {atoms : List Atom} (h : IsBranch root q slot owner atoms) :
    (q.fill slot content root).bare = (q.fill slot content' root).bare ↔
      content.map Atom.bare = content'.map Atom.bare := by
  refine ⟨fun heq => ?_, bare_fill_congr⟩
  have hbranch (content : List Atom) :
      ((q.child slot leadingGap).branch? (q.fill slot content root).bare) =
        some (content.map Atom.bare) := by
    rw [branch?_child, atom?_bare, (h.fill content).atom?_eq, Option.map_some, Option.bind_some,
      Atom.branch_bare, Atom.branch_putBranch_self, Option.map_some]
  have hboth := (hbranch content).symm.trans (heq ▸ hbranch content')
  exact Option.some.inj hboth

/-- Filling a branch changes no kind on the way to it. -/
theorem kind_atom?_take_fill (q : Path) (slot : Slot) (content : List Atom) (root : Atom) (n : Nat) :
    ((q.take n).atom? (q.fill slot content root)).map Atom.kind =
      ((q.take n).atom? root).map Atom.kind := by
  unfold fill modifyAtom modifyAtom?
  cases hm : root.modifyAt? (fun a => a.putBranch slot (some content)) q.steps with
  | none => rfl
  | some root' =>
      exact Atom.kind_descend?_modifyAt? (f := fun a => a.putBranch slot (some content))
        (fun _ => rfl) hm n

end Path

/-! ## Placeholders in alike formulas -/

mutual

theorem Atom.positions_bare : (a : Atom) → (p : Path) →
    a.bare.positions p = (a.positions p).map fun x => (x.1, x.2.bare)
  | .node label ⟨body, sup, sub, numerator, denominator, index, radicand⟩, p => by
      simp only [Atom.bare_node, Atom.positions, List.map_cons, List.map_append,
        branchPositions_bare body, branchPositions_bare sup, branchPositions_bare sub,
        branchPositions_bare numerator, branchPositions_bare denominator,
        branchPositions_bare index, branchPositions_bare radicand]

theorem branchPositions_bare : (b : Option (List Atom)) → (p : Path) → (slot : Slot) →
    branchPositions p slot (b.map (List.map Atom.bare)) =
      (branchPositions p slot b).map fun x => (x.1, x.2.bare)
  | none, _, _ => rfl
  | some atoms, p, slot => itemPositions_bare atoms p slot 0

theorem itemPositions_bare : (atoms : List Atom) → (p : Path) → (slot : Slot) → (i : Nat) →
    itemPositions p slot i (atoms.map Atom.bare) =
      (itemPositions p slot i atoms).map fun x => (x.1, x.2.bare)
  | [], _, _, _ => rfl
  | a :: rest, p, slot, i => by
      simp only [List.map_cons, itemPositions, List.map_append, Atom.positions_bare a,
        itemPositions_bare rest]

end

theorem Atom.isPlaceholder_bare (a : Atom) : a.bare.isPlaceholder = a.isPlaceholder := by
  unfold isPlaceholder kind
  rw [label_bare]
  rfl

theorem Atom.isLeaf_bare (a : Atom) : a.bare.isLeaf = a.isLeaf := by
  unfold isLeaf hasScripts kind
  rw [label_bare, branch_bare, branch_bare, Option.isSome_map, Option.isSome_map]
  rfl

theorem isPlaceholderOnly_map_bare (atoms : List Atom) :
    isPlaceholderOnly (atoms.map Atom.bare) = isPlaceholderOnly atoms := by
  match atoms with
  | [] => rfl
  | [a] => simp only [List.map_cons, List.map_nil, isPlaceholderOnly, Atom.isPlaceholder_bare,
      Atom.isLeaf_bare]
  | _ :: _ :: _ => rfl

theorem Atom.firstPlaceholder?_bare (a : Atom) (p : Path) :
    a.bare.firstPlaceholder? p = a.firstPlaceholder? p := by
  unfold firstPlaceholder?
  rw [Atom.positions_bare, List.find?_map, Option.map_map]
  simp only [Function.comp_def, Atom.isPlaceholder_bare]

end FormulaEditor

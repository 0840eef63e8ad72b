import FormulaEditor.Proofs.Typeset.Finding
import Mathlib.Data.List.Nodup

/-!
# The box of every atom

In the layout of a well-formed formula whose atoms have different identities, every atom has a box,
every box belongs to an atom of the formula or to none, and the box found for an atom holds those
found for everything below it.
-/

namespace FormulaEditor

namespace Atom

variable {a b c : Atom} {slot : Slot} {before after : List Atom} {id : Nat}

/-- The children of an atom apart from one of them. -/
theorem exists_children_eq (hb : a.branch slot = some (before ++ c :: after)) :
    ∃ left right, a.children = left ++ c :: right ∧ (∀ s ∈ before ++ after, s ∈ left ++ right) ∧
      ∀ other ≠ slot, ∀ s ∈ (a.branch other).getD [], s ∈ left ++ right := by
  obtain ⟨first, last, hslots⟩ := List.append_of_mem (Slot.mem_all slot)
  have hchildren : a.children = Slot.all.flatMap fun slot => (a.branch slot).getD [] := rfl
  refine ⟨(first.flatMap fun slot => (a.branch slot).getD []) ++ before,
    after ++ last.flatMap fun slot => (a.branch slot).getD [], ?_, fun s hs => ?_,
    fun other hne s hs => ?_⟩
  · rw [hchildren, hslots, List.flatMap_append, List.flatMap_cons, hb, Option.getD_some]
    simp only [List.append_assoc, List.cons_append]
  · rcases List.mem_append.1 hs with hs | hs
    · exact List.mem_append_left _ (List.mem_append_right _ hs)
    · exact List.mem_append_right _ (List.mem_append_left _ hs)
  · have hother : other ∈ first ++ last := by
      have hmem := hslots ▸ Slot.mem_all other
      simpa [hne] using hmem
    rcases List.mem_append.1 hother with hother | hother
    · exact List.mem_append_left _ (List.mem_append_left _ (List.mem_flatMap.2 ⟨other, hother, hs⟩))
    · exact List.mem_append_right _
        (List.mem_append_right _ (List.mem_flatMap.2 ⟨other, hother, hs⟩))

theorem identities_eq (a : Atom) : a.identities = a.id :: a.children.flatMap identities := by
  rw [identities, subatoms_eq, subatomsOfList_eq_flatMap, List.map_cons, List.map_flatMap]
  rfl

theorem identities_subset_of_mem_subatoms (h : b ∈ a.subatoms) : b.identities ⊆ a.identities := by
  refine of_mem_subatoms (P := fun b => b.identities ⊆ a.identities) (fun b hb c hc => ?_)
    (List.Subset.refl _) h
  refine List.Subset.trans (fun id hid => ?_) hb
  rw [identities_eq b]
  exact List.mem_cons_of_mem _ (List.mem_flatMap.2 ⟨c, hc, hid⟩)

theorem nodup_identities_of_mem (hd : a.identities.Nodup) (hc : c ∈ a.children) :
    c.identities.Nodup := by
  rw [identities_eq, List.nodup_cons, List.nodup_flatMap] at hd
  exact hd.2.1 c hc

/-- Where no identity occurs twice, those below a child occur nowhere else. -/
theorem not_mem_identities_of_nodup (hd : a.identities.Nodup)
    (hb : a.branch slot = some (before ++ c :: after)) (hi : id ∈ c.identities) :
    id ≠ a.id ∧ (∀ s ∈ before ++ after, id ∉ s.identities) ∧
      ∀ other ≠ slot, ∀ s ∈ (a.branch other).getD [], id ∉ s.identities := by
  obtain ⟨left, right, hchildren, hbeside, hother⟩ := exists_children_eq hb
  rw [identities_eq, hchildren, List.nodup_cons, List.nodup_flatMap, List.pairwise_append,
    List.pairwise_cons] at hd
  obtain ⟨hown, -, -, ⟨hright, -⟩, hleft⟩ := hd
  have hapart : ∀ s ∈ left ++ right, id ∉ s.identities := by
    intro s hs hmem
    rcases List.mem_append.1 hs with hs | hs
    · exact hleft s hs c List.mem_cons_self hmem hi
    · exact hright s hs hi hmem
  refine ⟨?_, fun s hs => hapart s (hbeside s hs), fun other hne s hs =>
    hapart s (hother other hne s hs)⟩
  rintro rfl
  exact hown (by simp [hi])

end Atom

namespace Typeset

variable {a d : Atom} {b part : MathBox} {id : Nat}

/-- Whether a box belongs to the atom with a given identity. -/
def isOwnedBy (id : Nat) (b : MathBox) : Bool :=
  b.owner == some id

theorem ofAtom?_eq (b : MathBox) (id : Nat) : b.ofAtom? id = (b.having (isOwnedBy id)).head? :=
  (List.head?_filter ..).symm

theorem overlooks_isOwnedBy (h : id ≠ a.id) : Overlooks (isOwnedBy id) a where
  frame b hb := by
    have howner : b.owner ≠ some id := fun heq => h (hb.owner id heq)
    simpa [isOwnedBy] using howner
  caret := .inl fun _ => rfl

theorem isOwnedBy_eq_false (h : id ≠ a.id) (hb : Shows a b) : isOwnedBy id b = false := by
  simpa [isOwnedBy, hb.owner_eq] using h.symm

theorem lacks_isOwnedBy (hw : a.isWellFormed = true) (h : id ∉ a.identities) :
    Lacks (isOwnedBy id) a :=
  have hne {c : Atom} (hc : c ∈ a.subatoms) : id ≠ c.id := fun heq =>
    h (heq ▸ List.mem_map_of_mem hc)
  lacks_of_overlooks hw (fun _ hc => overlooks_isOwnedBy (hne hc))
    fun _ hc _ hb => isOwnedBy_eq_false (hne hc) hb

/-- A box that belongs to an atom belongs to one of the formula. -/
theorem LaidOut.owner_mem (h : LaidOut a b) (hw : a.isWellFormed = true) (hp : part ∈ b.subboxes)
    (ho : part.owner = some id) : id ∈ a.identities := by
  by_contra hnot
  have hnone := List.filter_eq_nil_iff.1 (lacks_isOwnedBy hw hnot b h) part hp
  simp [isOwnedBy, ho] at hnone

/-- The box of an atom is the first one that belongs to it. -/
theorem LaidOut.ofAtom?_self (h : LaidOut a b) (hw : a.isWellFormed = true) :
    b.ofAtom? a.id = some b := by
  rw [ofAtom?_eq, MathBox.having_eq, isOwnedBy, (h.shows hw).owner_eq]
  simp

/-- Every atom of a formula has a box in the layout, with all boxes that belong to it or to an atom
below. -/
theorem LaidOut.exists_subatom (h : LaidOut a b) (hw : a.isWellFormed = true)
    (hd : a.identities.Nodup) (hs : d ∈ a.subatoms) :
    ∃ part, LaidOut d part ∧ part.subboxes ⊆ b.subboxes ∧
      ∀ id ∈ d.identities, b.having (isOwnedBy id) = part.having (isOwnedBy id) := by
  induction a using Atom.branchInduction generalizing b with
  | step a ih =>
      rcases Atom.mem_subatoms.1 hs with rfl | ⟨c, hc, hs⟩
      · exact ⟨b, h, List.Subset.refl _, fun _ _ => rfl⟩
      · obtain ⟨slot, atoms, hb, hc⟩ := Atom.mem_children.1 hc
        obtain ⟨before, after, rfl⟩ := List.append_of_mem hc
        have hwc := Atom.branchWellFormed hw hb
        obtain ⟨boxOf, hboxOf, hsub, hfound⟩ := h.exists_child hw hb
        have hdc : c.identities.Nodup :=
          Atom.nodup_identities_of_mem hd (Atom.mem_children.2 ⟨slot, _, hb, hc⟩)
        obtain ⟨part, hpart, hsubPart, hfoundPart⟩ :=
          ih slot _ hb c hc hboxOf (hwc.wellFormed c hc) hdc hs
        refine ⟨part, hpart, List.Subset.trans hsubPart hsub, fun id hi => ?_⟩
        obtain ⟨hown, hbeside, hother⟩ := Atom.not_mem_identities_of_nodup hd hb
          (Atom.identities_subset_of_mem_subatoms hs hi)
        rw [← hfoundPart id hi, MathBox.having_eq, isOwnedBy_eq_false hown (h.shows hw)]
        refine hfound _ (overlooks_isOwnedBy hown) (fun s hs => lacks_isOwnedBy ?_ (hbeside s hs))
          fun other hne s hs => lacks_isOwnedBy ?_ (hother other hne s hs)
        · exact hwc.wellFormed s (List.mem_append.2 ((List.mem_append.1 hs).imp_right
            (List.mem_cons_of_mem c)))
        · exact Atom.isWellFormed_of_mem_children hw (Atom.mem_children_of_mem_getD hs)

/-- The box found for an atom holds the boxes found for everything below it. -/
theorem LaidOut.exists_ofAtom? (h : LaidOut a b) (hw : a.isWellFormed = true)
    (hd : a.identities.Nodup) (hs : d ∈ a.subatoms) :
    ∃ part, b.ofAtom? d.id = some part ∧ ∀ c ∈ d.subatoms,
      ∃ inner ∈ part.subboxes, b.ofAtom? c.id = some inner := by
  have hwd : d.isWellFormed = true :=
    Atom.of_mem_subatoms (fun _ h _ => Atom.isWellFormed_of_mem_children h) hw hs
  have hdd : d.identities.Nodup :=
    Atom.of_mem_subatoms (fun _ h _ => Atom.nodup_identities_of_mem h) hd hs
  obtain ⟨part, hpart, -, hfound⟩ := h.exists_subatom hw hd hs
  have hofAtom {c : Atom} (hc : c ∈ d.subatoms) : b.ofAtom? c.id = part.ofAtom? c.id := by
    rw [ofAtom?_eq, hfound c.id (List.mem_map_of_mem hc), ← ofAtom?_eq]
  refine ⟨part, (hofAtom (Atom.self_mem_subatoms d)).trans (hpart.ofAtom?_self hwd), fun c hc => ?_⟩
  have hwc : c.isWellFormed = true :=
    Atom.of_mem_subatoms (fun _ h _ => Atom.isWellFormed_of_mem_children h) hwd hc
  obtain ⟨inner, hinner, hsub, hfoundInner⟩ := hpart.exists_subatom hwd hdd hc
  refine ⟨inner, hsub (MathBox.self_mem_subboxes inner), ?_⟩
  rw [hofAtom hc, ofAtom?_eq, hfoundInner c.id (List.mem_map_of_mem (Atom.self_mem_subatoms c)),
    ← ofAtom?_eq, hinner.ofAtom?_self hwc]

/-- In the layout of a formula every atom has a box, every box that belongs to an atom belongs to
one of the formula, and the box found for an atom holds those found for the atoms below it. -/
theorem layout_boxes (style : Style) (root : Atom) (hw : root.isWellFormed = true)
    (hd : root.identities.Nodup) :
    (∀ a ∈ root.subatoms, ((layout style root).ofAtom? a.id).isSome = true) ∧
    (∀ b ∈ (layout style root).subboxes, ∀ id, b.owner = some id → ∃ a ∈ root.subatoms, a.id = id) ∧
    ∀ a ∈ root.subatoms, ∀ d ∈ a.subatoms, ∀ outer inner,
      (layout style root).ofAtom? a.id = some outer →
      (layout style root).ofAtom? d.id = some inner → inner ∈ outer.subboxes := by
  have hroot := laidOut_layout style root
  have hfound {a : Atom} (ha : a ∈ root.subatoms) := hroot.exists_ofAtom? hw hd ha
  refine ⟨fun a ha => ?_, fun b hb id ho => ?_, fun a ha d hda outer inner houter hinner => ?_⟩
  · obtain ⟨part, hpart, -⟩ := hfound ha
    rw [hpart]
    rfl
  · obtain ⟨a, ha, hid⟩ := List.mem_map.1 (hroot.owner_mem hw hb ho)
    exact ⟨a, ha, hid⟩
  · obtain ⟨part, hpart, hbelow⟩ := hfound ha
    cases hpart.symm.trans houter
    obtain ⟨found, hmem, hfound⟩ := hbelow d hda
    cases hfound.symm.trans hinner
    exact hmem

/-- A matrix with rows of different lengths. -/
def raggedMatrix : Atom :=
  let leaf (id : Nat) : Atom := .leaf id .ordinary (some "x") (some 'x')
  let wrap (id : Nat) (kind : Kind) (value : Option String) (body : List Atom) : Atom :=
    .node ⟨id, kind, value, none, Marks.none⟩ { Branches.none with body := some body }
  wrap 0 .root none
    [wrap 1 .array (some "pmatrix")
      [wrap 2 .row none [wrap 3 .cell none [leaf 4]],
        wrap 5 .row none [wrap 6 .cell none [leaf 7], wrap 8 .cell none [leaf 9]]]]

theorem layout_boxes_raggedMatrix :
    (∀ a ∈ raggedMatrix.subatoms, ((layout Style.text raggedMatrix).ofAtom? a.id).isSome = true) ∧
      ((layout Style.text raggedMatrix).ofAtom? 9).isSome = true := by
  have hboxes := layout_boxes Style.text raggedMatrix (by decide) (by decide)
  have hlast : .leaf 9 .ordinary (some "x") (some 'x') ∈ raggedMatrix.subatoms := by
    simp [raggedMatrix, Atom.subatoms, Atom.subatomsOfBranch, Atom.subatomsOfList, Branches.none,
      Atom.leaf]
  exact ⟨hboxes.1, hboxes.1 _ hlast⟩

end Typeset

end FormulaEditor

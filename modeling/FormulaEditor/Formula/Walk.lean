import FormulaEditor.Formula.Atom

/-!
# Walks over a formula

The atoms of a formula in document order: an atom, then its branches. Identities, searches and
changes to every label are walks.
-/

namespace FormulaEditor.Atom

mutual

/-- The atom and everything below it, in document order. -/
def subatoms : Atom → List Atom
  | node label ⟨body, sup, sub, numerator, denominator, index, radicand⟩ =>
      node label ⟨body, sup, sub, numerator, denominator, index, radicand⟩ ::
        (subatomsOfBranch body ++ subatomsOfBranch sup ++ subatomsOfBranch sub ++
          subatomsOfBranch numerator ++ subatomsOfBranch denominator ++ subatomsOfBranch index ++
          subatomsOfBranch radicand)

/-- The atoms in a branch and below it. -/
def subatomsOfBranch : Option (List Atom) → List Atom
  | none => []
  | some atoms => subatomsOfList atoms

/-- The atoms of a sequence and everything below them. -/
def subatomsOfList : List Atom → List Atom
  | [] => []
  | a :: rest => subatoms a ++ subatomsOfList rest

end

mutual

/-- Changes every label of a formula. -/
def mapLabels (f : Label → Label) : Atom → Atom
  | node label ⟨body, sup, sub, numerator, denominator, index, radicand⟩ =>
      node (f label)
        ⟨mapLabelsOfBranch f body, mapLabelsOfBranch f sup, mapLabelsOfBranch f sub,
          mapLabelsOfBranch f numerator, mapLabelsOfBranch f denominator,
          mapLabelsOfBranch f index, mapLabelsOfBranch f radicand⟩

/-- Changes every label in and below a branch. -/
def mapLabelsOfBranch (f : Label → Label) : Option (List Atom) → Option (List Atom)
  | none => none
  | some atoms => some (mapLabelsOfList f atoms)

/-- Changes every label in and below a sequence. -/
def mapLabelsOfList (f : Label → Label) : List Atom → List Atom
  | [] => []
  | a :: rest => mapLabels f a :: mapLabelsOfList f rest

end

mutual

/-- A copy in which every atom has a new identity. -/
def relabel : Atom → Minting Atom
  | node label ⟨body, sup, sub, numerator, denominator, index, radicand⟩ => do
      let id ← newIdentity
      let body ← relabelBranch body
      let sup ← relabelBranch sup
      let sub ← relabelBranch sub
      let numerator ← relabelBranch numerator
      let denominator ← relabelBranch denominator
      let index ← relabelBranch index
      let radicand ← relabelBranch radicand
      return node { label with id := id }
        ⟨body, sup, sub, numerator, denominator, index, radicand⟩

/-- A copy of a branch with new identities. -/
def relabelBranch : Option (List Atom) → Minting (Option (List Atom))
  | none => return none
  | some atoms => do return some (← relabelList atoms)

/-- A copy of a sequence with new identities. -/
def relabelList : List Atom → Minting (List Atom)
  | [] => return []
  | a :: rest => do
      let a ← relabel a
      let rest ← relabelList rest
      return a :: rest

end

/-- The identities of an atom and everything below it, in document order. -/
def identities (a : Atom) : List Nat :=
  a.subatoms.map id

/-- The first atom with a given identity, in document order. -/
def find? (a : Atom) (id : Nat) : Option Atom :=
  a.subatoms.find? fun b => b.id == id

/-- Clears the caret and selection marks of the whole formula. -/
def clearTransientMarks (a : Atom) : Atom :=
  a.mapLabels fun l => { l with marks := l.marks.lasting }

theorem subatomsOfList_append (as bs : List Atom) :
    subatomsOfList (as ++ bs) = subatomsOfList as ++ subatomsOfList bs := by
  induction as with
  | nil => rfl
  | cons a as ih => simp [subatomsOfList, ih]

theorem subatomsOfList_eq_flatMap (as : List Atom) :
    subatomsOfList as = as.flatMap subatoms := by
  induction as with
  | nil => rfl
  | cons a as ih => simp [subatomsOfList, ih]

theorem mapLabelsOfList_eq_map (f : Label → Label) (as : List Atom) :
    mapLabelsOfList f as = as.map (mapLabels f) := by
  induction as with
  | nil => rfl
  | cons a as ih => simp [mapLabelsOfList, ih]

theorem subatomsOfBranch_eq (branch : Option (List Atom)) :
    subatomsOfBranch branch = subatomsOfList (branch.getD []) := by
  cases branch <;> rfl

theorem subatoms_eq (a : Atom) : a.subatoms = a :: subatomsOfList a.children := by
  obtain ⟨label, ⟨body, sup, sub, numerator, denominator, index, radicand⟩⟩ := a
  simp [subatoms, children, Branches.toList, Slot.all, Branches.get, subatomsOfList_append,
    subatomsOfBranch_eq]

end FormulaEditor.Atom

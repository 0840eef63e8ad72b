import FormulaEditor.Formula.Likeness
import FormulaEditor.Proofs.Formula.Alike
import FormulaEditor.Proofs.Formula.Location
import FormulaEditor.Proofs.Formula.Weight

/-!
# The bulk of a formula

The bulk of a formula counts its atoms and their branches, and every atom that is no plain
placeholder once more. It shrinks if anything is taken out of a branch, a branch included, even if a
plain placeholder comes in its place; only one plain placeholder in place of another makes no
difference. Alike formulas have the same bulk.
-/

namespace FormulaEditor.Atom

/-- What an atom counts for by itself: two, or one if it is a plain placeholder, and its branches. -/
def ownBulk (a : Atom) : Nat :=
  (if a.label.bare = (placeholder 0).label then 1 else 2) + a.slots.length

/-- The bulk of a sequence of atoms and everything below it. -/
def bulk (atoms : List Atom) : Nat :=
  total ownBulk atoms

variable {a b : Atom} {slot : Slot} {atoms as bs content : List Atom}

/-! ## Slots -/

theorem mem_slots : slot ∈ a.slots ↔ (a.branch slot).isSome = true :=
  Branches.mem_slots

theorem slots_congr (h : ∀ slot, (a.branch slot).isSome = (b.branch slot).isSome) :
    a.slots = b.slots :=
  List.filter_congr fun slot _ => h slot

theorem slots_putBranch_some (h : (a.branch slot).isSome = true) (content : List Atom) :
    (a.putBranch slot (some content)).slots = a.slots := by
  refine slots_congr fun other => ?_
  by_cases heq : other = slot
  · rw [heq, branch_putBranch_self, h, Option.isSome_some]
  · rw [branch_putBranch_of_ne a heq]

theorem slots_putBranch_none (a : Atom) (slot : Slot) :
    (a.putBranch slot none).slots = a.slots.erase slot := by
  have hall : Slot.all.Nodup := by decide
  have hnodup : a.slots.Nodup := List.Pairwise.filter _ hall
  rw [hnodup.erase_eq_filter, slots, Branches.slots, slots, Branches.slots, List.filter_filter]
  refine List.filter_congr fun other _ => ?_
  show ((a.putBranch slot none).branch other).isSome = (other != slot && (a.branch other).isSome)
  by_cases heq : other = slot
  · simp [heq]
  · simp [heq]

/-! ## Sequences -/

@[simp] theorem bulk_nil : bulk [] = 0 := rfl

theorem bulk_cons (a : Atom) (rest : List Atom) : bulk (a :: rest) = bulk [a] + bulk rest :=
  total_cons ownBulk a rest

theorem bulk_singleton (a : Atom) : bulk [a] = ownBulk a + bulk a.children :=
  total_singleton ownBulk a

theorem bulk_placeholder (n : Nat) : bulk [placeholder n] = 1 := rfl

theorem one_le_ownBulk (a : Atom) : 1 ≤ a.ownBulk := by
  unfold ownBulk
  split <;> omega

theorem bulk_pos (h : atoms ≠ []) : 0 < bulk atoms := by
  cases atoms with
  | nil => exact absurd rfl h
  | cons a rest =>
      have hown := one_le_ownBulk a
      rw [bulk_cons, bulk_singleton]
      omega

/-- Nothing but a plain placeholder has a bulk of one. -/
theorem map_bare_of_bulk_le_one (hne : atoms ≠ []) (h : bulk atoms ≤ 1) :
    atoms.map bare = [placeholder 0] := by
  cases atoms with
  | nil => exact absurd rfl hne
  | cons a rest =>
      have hown := one_le_ownBulk a
      rw [bulk_cons, bulk_singleton] at h
      have hrest : rest = [] := by
        by_cases hnil : rest = []
        · exact hnil
        · have hpos := bulk_pos hnil
          omega
      have hone : a.ownBulk ≤ 1 := by omega
      unfold ownBulk at hone
      have hlabel : a.label.bare = (placeholder 0).label := by
        split at hone
        · assumption
        · omega
      rw [if_pos hlabel] at hone
      have hslots : a.slots = [] := List.length_eq_zero_iff.1 (by omega)
      have hbare : a.bare = placeholder 0 := by
        refine eq_of_branch_eq ((label_bare a).trans hlabel) fun slot => ?_
        have hnone : a.branch slot = none := by
          rw [← Option.not_isSome_iff_eq_none, ← mem_slots, hslots]
          exact List.not_mem_nil
        rw [branch_bare, hnone]
        cases slot <;> rfl
      rw [hrest, List.map_cons, List.map_nil, hbare]

/-! ## Edits -/

theorem ignoresContent_ownBulk : IgnoresContent ownBulk := fun a slot content h => by
  unfold ownBulk
  rw [slots_putBranch_some h, label_putBranch]

theorem bulk_set {i : Nat} (hi : atoms[i]? = some a) (b : Atom) :
    bulk (atoms.set i b) + bulk [a] = bulk atoms + bulk [b] :=
  total_set ownBulk hi b

theorem bulk_eraseIdx {i : Nat} (hi : atoms[i]? = some a) :
    bulk (atoms.eraseIdx i) + bulk [a] = bulk atoms :=
  total_eraseIdx ownBulk hi

theorem bulk_splice (atoms middle : List Atom) {start stop : Nat} (h : start ≤ stop) :
    bulk (splice atoms start stop middle) + bulk (slice atoms start stop) =
      bulk atoms + bulk middle :=
  total_splice ownBulk atoms middle h

theorem bulk_splice_gap (atoms middle : List Atom) (i : Nat) :
    bulk (splice atoms i i middle) = bulk atoms + bulk middle :=
  total_splice_gap ownBulk atoms middle i

theorem bulk_le_of_sublist (h : as.Sublist bs) : bulk as ≤ bulk bs :=
  total_le_of_sublist ownBulk h

/-- A branch that goes takes its content and its slot with it. -/
theorem bulk_putBranch_none (hb : a.branch slot = some atoms) :
    bulk [a.putBranch slot none] + bulk atoms + 1 = bulk [a] := by
  have hmem : slot ∈ a.slots := mem_slots.2 (Option.isSome_of_eq_some hb)
  have hpos := List.length_pos_of_mem hmem
  have hchildren := total_children_putBranch ownBulk a slot none
  rw [hb, Option.getD_some, Option.getD_none, total_nil] at hchildren
  rw [bulk_singleton, bulk_singleton, ownBulk, ownBulk, label_putBranch, slots_putBranch_none,
    List.length_erase_of_mem hmem]
  unfold bulk
  omega

/-- A branch of a formula that is filled changes the bulk by what it holds. -/
theorem bulk_fill {root owner : Atom} {q : Path} (h : IsBranch root q slot owner atoms)
    (content : List Atom) :
    bulk [q.fill slot content root] + bulk atoms = bulk [root] + bulk content :=
  total_fill ignoresContent_ownBulk h content

/-! ## Alike formulas -/

theorem ownBulk_bare (a : Atom) : a.bare.ownBulk = a.ownBulk := by
  have hslots : a.bare.slots = a.slots := slots_congr fun slot => by
    rw [branch_bare, Option.isSome_map]
  unfold ownBulk
  rw [hslots, label_bare]
  rfl

theorem bulk_of_bare_eq (h : a.bare = b.bare) : bulk [a] = bulk [b] := by
  have hbare (a : Atom) : bulk [a.bare] = bulk [a] := total_mapLabels ownBulk_bare a
  rw [← hbare a, h, hbare b]

end FormulaEditor.Atom

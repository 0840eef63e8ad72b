import FormulaEditor.Proofs.Formula.Filtering
import FormulaEditor.Proofs.Formula.Weight

/-!
# Atoms that are no placeholders

Placeholders come and go with the branches that they fill. What a formula is made of otherwise is
the collection of the labels of all its other atoms. Two formulas have the same collection exactly
if they have the same weight in every scale where placeholders weigh nothing, so that the sums of
weights tell what an edit takes away.
-/

namespace FormulaEditor

open Atom (weight weight_append weight_cons weight_singleton weight_perm)

/-- Whether a label is that of any atom but a placeholder. -/
def Label.isSolid (l : Label) : Bool :=
  l.kind != .placeholder

/-- Weights of labels where placeholders weigh nothing. -/
def IgnoresPlaceholders (w : Label → Nat) : Prop :=
  ∀ l, l.isSolid = false → w l = 0

/-- The weights where one label weighs one, and all others nothing. -/
def onlyLabel (l : Label) : Label → Nat := fun m =>
  if m = l then 1 else 0

theorem ignoresPlaceholders_onlyLabel {l : Label} (h : l.isSolid = true) :
    IgnoresPlaceholders (onlyLabel l) := by
  intro m hm
  unfold onlyLabel
  split
  · next heq =>
      rw [heq, h] at hm
      cases hm
  · rfl

namespace Atom

variable {w : Label → Nat} {a : Atom} {slot : Slot} {atoms as bs : List Atom}

/-- The labels of all atoms in a sequence and below it that are no placeholders. -/
def solidLabels (atoms : List Atom) : List Label :=
  (withLabels Label.isSolid atoms).map label

@[simp] theorem solidLabels_nil : solidLabels [] = [] := rfl

@[simp] theorem solidLabels_append (as bs : List Atom) :
    solidLabels (as ++ bs) = solidLabels as ++ solidLabels bs := by
  rw [solidLabels, withLabels_append, List.map_append]
  rfl

theorem solidLabels_singleton (a : Atom) :
    solidLabels [a] =
      (if a.label.isSolid then [a.label] else []) ++ solidLabels a.children := by
  rw [solidLabels, withLabels_singleton, List.map_append]
  split <;> rfl

theorem isSolid_of_mem_solidLabels {l : Label} (h : l ∈ solidLabels atoms) : l.isSolid = true := by
  obtain ⟨a, ha, rfl⟩ := List.mem_map.1 h
  exact (List.mem_filter.1 ha).2

/-! ## Weights -/

/-- Where placeholders weigh nothing, a sequence weighs what its other atoms weigh. -/
theorem weight_eq_sum_solidLabels (hw : IgnoresPlaceholders w) (atoms : List Atom) :
    weight w atoms = ((solidLabels atoms).map w).sum := by
  unfold weight solidLabels withLabels
  induction subatomsOfList atoms with
  | nil => rfl
  | cons a rest ih =>
      rw [List.map_cons, List.sum_cons, ih, List.filter_cons]
      cases hs : a.label.isSolid with
      | true => rfl
      | false => rw [hw a.label hs, Nat.zero_add, if_neg Bool.false_ne_true]

theorem sum_map_onlyLabel (l : Label) (labels : List Label) :
    (labels.map (onlyLabel l)).sum = labels.count l := by
  induction labels with
  | nil => rfl
  | cons m rest ih =>
      rw [List.map_cons, List.sum_cons, ih, List.count_cons, Nat.add_comm]
      simp [onlyLabel]

/-- Two sequences have the same atoms, placeholders aside, if no weights tell them apart. -/
theorem perm_solidLabels_iff : (solidLabels as).Perm (solidLabels bs) ↔
    ∀ w, IgnoresPlaceholders w → weight w as = weight w bs := by
  constructor
  · intro h w hw
    rw [weight_eq_sum_solidLabels hw, weight_eq_sum_solidLabels hw]
    exact (h.map w).sum_nat
  · intro h
    rw [List.perm_iff_count]
    intro l
    cases hl : l.isSolid with
    | true =>
        have hw := ignoresPlaceholders_onlyLabel hl
        have heq := h (onlyLabel l) hw
        rw [weight_eq_sum_solidLabels hw, weight_eq_sum_solidLabels hw] at heq
        rwa [sum_map_onlyLabel, sum_map_onlyLabel] at heq
    | false =>
        have hnone (atoms : List Atom) : (solidLabels atoms).count l = 0 := by
          apply List.count_eq_zero.2
          intro hmem
          rw [isSolid_of_mem_solidLabels hmem] at hl
          cases hl
        rw [hnone, hnone]

theorem weight_placeholder_eq_zero (hw : IgnoresPlaceholders w) (n : Nat) :
    weight w [placeholder n] = 0 := by
  rw [weight_singleton]
  exact hw _ rfl

/-! ## Emptied branches -/

/-- Refilling an empty branch adds at most a placeholder, which weighs nothing. -/
theorem weight_setBranch_nil (hw : IgnoresPlaceholders w)
    (hb : (a.branch slot).getD [] = []) (filler : Nat) :
    weight w [(a.setBranch slot [] filler).getD a] = weight w [a] := by
  have hfiller := weight_placeholder_eq_zero hw filler
  have hnone := weight_putBranch w a slot none
  have hempty := weight_putBranch w a slot (some [])
  have hfilled := weight_putBranch w a slot (some [placeholder filler])
  simp only [hb, Option.getD_none, Option.getD_some, weight_nil] at hnone hempty hfilled
  unfold setBranch
  simp only [List.isEmpty_nil, Bool.true_and]
  split_ifs <;> simp only [Option.getD_some, Option.getD_none] <;> omega

theorem weight_removeBranch_of_nil (w : Label → Nat) (hb : (a.branch slot).getD [] = []) :
    weight w [(a.removeBranch slot).2] = weight w [a] := by
  have h := weight_removeBranch w a slot
  have hnone : (a.removeBranch slot).1.getD [] = [] := by
    unfold removeBranch
    split
    · exact hb
    · rfl
  rwa [hnone, weight_nil, Nat.add_zero] at h

/-! ## Sequences without placeholders -/

theorem weight_filter_add (w : Label → Nat) (p : Atom → Bool) (atoms : List Atom) :
    weight w (atoms.filter p) + weight w (atoms.filter fun a => !p a) = weight w atoms := by
  rw [← weight_append]
  exact weight_perm w (List.filter_append_perm p atoms)

theorem weight_eraseIdx (w : Label → Nat) {i : Nat} (hi : atoms[i]? = some a) :
    weight w (atoms.eraseIdx i) + weight w [a] = weight w atoms :=
  total_eraseIdx _ hi

/-- An owner whose change keeps its weight. -/
theorem weight_modifyOwner {root owner : Atom} {p : Path} {f : Atom → Atom}
    (h : p.owner? root = some owner) (hf : weight w [f owner] = weight w [owner]) :
    weight w [p.modifyOwner f root] = weight w [root] := by
  unfold Path.owner? at h
  unfold Path.modifyOwner Path.modifyOwner?
  split
  · rfl
  · next hroot =>
      rw [if_neg hroot] at h
      have hchange := weight_modifyAtom h f w
      show weight w [p.parent.modifyAtom f root] = _
      omega

end Atom

end FormulaEditor

import Mathlib.Algebra.BigOperators.Group.Finset.Piecewise
import FormulaEditor.Proofs.Latex.Weighing.Reading

/-!
# What becomes of arguments

The first reference to an argument stands for the argument itself, and later ones for copies. A
reference may be read more than once, since a command that lacks an argument gives its tokens back,
and what was read for it is dropped. Still, at the end the atoms of an argument are there, each
once, exactly if the argument counts as used, and no identity occurs twice.

There is one exception. The braces around the index of a radical are left out, and if the index is
an argument that is a group by itself, then the group is lost with its identity.
-/

namespace FormulaEditor.Latex

open Atom Scale

variable {args : List (List Atom)} {atoms : List Atom} {i j n : Nat}

theorem mem_of_mem_unprotected (h : i ∈ identitiesOf (Reader.unprotected atoms)) :
    i ∈ identitiesOf atoms := by
  have hle := weight_unprotected_le (only i) atoms
  rw [weight_only, weight_only] at hle
  exact List.count_pos_iff.1 (Nat.lt_of_lt_of_le (List.count_pos_iff.2 h) hle)

/-- An identity of one argument is in it once, and in no other argument. -/
theorem count_arguments (hd : (identitiesOf args.flatten).Nodup) (hj : args[j]? = some atoms)
    (hi : i ∈ identitiesOf atoms) (k : Nat) :
    (identitiesOf (args.getD k [])).count i = if k = j then 1 else 0 := by
  rw [identitiesOf_flatten, List.nodup_flatten] at hd
  obtain ⟨heach, hdisjoint⟩ := hd
  obtain ⟨hjlt, rfl⟩ := List.getElem?_eq_some_iff.1 hj
  by_cases hk : k < args.length
  · have hget : args.getD k [] = args[k] := by simp [List.getD, hk]
    rw [hget]
    by_cases heq : k = j
    · subst heq
      rw [if_pos rfl]
      exact List.count_eq_one_of_mem (heach _ (List.mem_map_of_mem (List.getElem_mem hk))) hi
    · rw [if_neg heq, List.count_eq_zero]
      intro hmem
      rw [List.pairwise_map] at hdisjoint
      rcases Nat.lt_or_gt_of_ne heq with hlt | hlt
      · exact List.pairwise_iff_getElem.1 hdisjoint k j hk hjlt hlt hmem hi
      · exact List.pairwise_iff_getElem.1 hdisjoint j k hjlt hk hlt hi hmem
  · have hne : k ≠ j := by omega
    have hget : args.getD k [] = [] := by
      simp [List.getD, List.getElem?_eq_none (Nat.le_of_not_lt hk)]
    rw [hget, if_neg hne]
    rfl

/-- An identity of an argument counts as spent if the argument was used. -/
theorem substituted_only (hd : (identitiesOf args.flatten).Nodup) (hj : args[j]? = some atoms)
    (hi : i ∈ identitiesOf atoms) (used : List Nat) :
    (only i).substituted args used = if j ∈ used then 1 else 0 := by
  simp only [substituted, weight_only, count_arguments hd hj hi, Finset.sum_ite_eq',
    List.mem_toFinset]

/-- Nothing is lost of an identity that is below the braces of an argument. -/
theorem isExact_only (hd : (identitiesOf args.flatten).Nodup) (hj : args[j]? = some atoms)
    (hi : i ∈ identitiesOf (Reader.unprotected atoms)) (hn : i < n) :
    (only i).IsExact args n := by
  have hcount : 0 < (identitiesOf (Reader.unprotected atoms)).count i := List.count_pos_iff.2 hi
  have hle := weight_unprotected_le (only i) atoms
  rw [weight_only, weight_only] at hle
  have hmem := mem_of_mem_unprotected hi
  refine ⟨fun k hk => ?_, fun content hcontent => ?_⟩
  · have hne : k ≠ i := by omega
    simp [only, hne]
  · obtain ⟨k, hk⟩ := List.mem_iff_getElem?.1 hcontent
    have hget : args.getD k [] = content := by simp [List.getD, hk]
    have hargument := count_arguments hd hj hmem k
    rw [hget] at hargument
    by_cases heq : k = j
    · subst heq
      rw [hj, Option.some.injEq] at hk
      subst hk
      rw [if_pos rfl] at hargument
      rw [IsLight, weight_only, weight_only]
      omega
    · rw [if_neg heq] at hargument
      exact isLight_of_weight_eq_zero (by rw [weight_only, hargument])

/-- An identity occurs in what is read as often as it was given out meanwhile or stands in arguments
that were used, or less often. -/
theorem count_readAll (args : List (List Atom)) (mode : ReadingMode) (tokens : List SpannedToken)
    (n i : Nat) :
    (identitiesOf (Reader.readAll args mode (Reader.start tokens n)).1).count i +
        (if i < n then 1 else 0) ≤
      (if i < (Reader.readAll args mode (Reader.start tokens n)).2.supply then 1 else 0) +
        (only i).substituted args (Reader.readAll args mode (Reader.start tokens n)).2.used ∧
    ((only i).IsExact args n →
      (identitiesOf (Reader.readAll args mode (Reader.start tokens n)).1).count i +
          (if i < n then 1 else 0) =
        (if i < (Reader.readAll args mode (Reader.start tokens n)).2.supply then 1 else 0) +
          (only i).substituted args (Reader.readAll args mode (Reader.start tokens n)).2.used) := by
  have hstock (s : Reader) : (only i).stock args s =
      (if i < s.supply then 1 else 0) + (only i).substituted args s.used := by
    rw [stock, given_only]
    simp [only]
  obtain ⟨-, hle, heq⟩ := weighs_readAll (c := only i) (.inl rfl) mode tokens n
  rw [hstock, weight_only, given_only] at hle heq
  exact ⟨hle, heq⟩

/-- Reading takes identities from the supply and puts none back. -/
theorem le_supply_readAll (args : List (List Atom)) (mode : ReadingMode)
    (tokens : List SpannedToken) (n : Nat) :
    n ≤ (Reader.readAll args mode (Reader.start tokens n)).2.supply :=
  (weighs_readAll (c := only 0) (.inl rfl) mode tokens n).1

section

variable (hd : (identitiesOf args.flatten).Nodup) (hn : ∀ i ∈ identitiesOf args.flatten, i < n)
  (mode : ReadingMode) (tokens : List SpannedToken)
include hn

theorem lt_of_mem_argument (hj : args[j]? = some atoms) (hi : i ∈ identitiesOf atoms) : i < n := by
  apply hn
  rw [identitiesOf_flatten]
  exact List.mem_flatten_of_mem (List.mem_map_of_mem (List.mem_of_getElem? hj)) hi

include hd

/-- An identity that was there before comes from an argument that was used, and only once. -/
theorem count_readAll_argument (hj : args[j]? = some atoms) (hi : i ∈ identitiesOf atoms) :
    (identitiesOf (Reader.readAll args mode (Reader.start tokens n)).1).count i ≤
      if j ∈ (Reader.readAll args mode (Reader.start tokens n)).2.used then 1 else 0 := by
  have hsupply := le_supply_readAll args mode tokens n
  have hweight := (count_readAll args mode tokens n i).1
  have hlt := lt_of_mem_argument hn hj hi
  rw [if_pos hlt, if_pos (Nat.lt_of_lt_of_le hlt hsupply), substituted_only hd hj hi] at hweight
  omega

/-- It does so exactly once, unless it is that of braces around the whole argument. -/
theorem count_readAll_unprotected (hj : args[j]? = some atoms)
    (hi : i ∈ identitiesOf (Reader.unprotected atoms)) :
    (identitiesOf (Reader.readAll args mode (Reader.start tokens n)).1).count i =
      if j ∈ (Reader.readAll args mode (Reader.start tokens n)).2.used then 1 else 0 := by
  have hmem : i ∈ identitiesOf atoms := mem_of_mem_unprotected hi
  have hsupply := le_supply_readAll args mode tokens n
  have hlt := lt_of_mem_argument hn hj hmem
  have hweight := (count_readAll args mode tokens n i).2 (isExact_only hd hj hi hlt)
  rw [if_pos hlt, if_pos (Nat.lt_of_lt_of_le hlt hsupply), substituted_only hd hj hmem] at hweight
  omega

/-- An identity that was not there before is given out once. -/
theorem nodup_readAll :
    (identitiesOf (Reader.readAll args mode (Reader.start tokens n)).1).Nodup := by
  rw [List.nodup_iff_count_le_one]
  intro i
  have hsupply := le_supply_readAll args mode tokens n
  have hweight := (count_readAll args mode tokens n i).1
  have hsubstituted := substituted_le (only i) args
    (Reader.readAll args mode (Reader.start tokens n)).2.used
  rw [weight_only] at hsubstituted
  by_cases hlt : i < n
  · have honce := List.nodup_iff_count_le_one.1 hd i
    rw [if_pos hlt, if_pos (Nat.lt_of_lt_of_le hlt hsupply)] at hweight
    omega
  · have hnone : (identitiesOf args.flatten).count i = 0 :=
      List.count_eq_zero.2 fun hi => hlt (hn i hi)
    rw [if_neg hlt] at hweight
    split at hweight <;> omega

end

/-- No identity occurs twice in what is read. An identity of an argument does not occur where the
argument was not used; where it was used it occurs once, unless it is that of a group that an
argument consists of, which may be missing. -/
theorem identities_readAll (hd : (identitiesOf args.flatten).Nodup)
    (hn : ∀ i ∈ identitiesOf args.flatten, i < n) (mode : ReadingMode)
    (tokens : List SpannedToken) :
    let r := Reader.readAll args mode (Reader.start tokens n)
    (identitiesOf r.1).Nodup ∧
      ∀ j atoms, args[j]? = some atoms →
        (∀ i ∈ identitiesOf atoms, (identitiesOf r.1).count i ≤ if j ∈ r.2.used then 1 else 0) ∧
        ∀ i ∈ identitiesOf (Reader.unprotected atoms),
          (identitiesOf r.1).count i = if j ∈ r.2.used then 1 else 0 := by
  refine ⟨nodup_readAll hd hn mode tokens, fun j atoms hj => ⟨fun i hi => ?_, fun i hi => ?_⟩⟩
  · exact count_readAll_argument hd hn mode tokens hj hi
  · exact count_readAll_unprotected hd hn mode tokens hj hi

/-- A group, and a letter with a subscript. -/
def groupAndScript : List (List Atom) :=
  [(parseFormula "\x7bx\x7d" 0).1.atoms, (parseFormula "a_2" 10).1.atoms]

/-- Fractions without denominators, one in the other, so that the references in them are read again:
the second argument is used three times, and the first one as an index. -/
def rereadSource : List SpannedToken :=
  (tokenize "\\frac\x7b#1+\\frac\x7b#1\x7d\x7d^\x7b\\sqrt[#0]#1\x7d").tokens

theorem identities_readAll_rereadSource :
    (identitiesOf groupAndScript.flatten).Nodup ∧
    (∀ i ∈ identitiesOf groupAndScript.flatten, i < 20) ∧
    let r := Reader.readAll groupAndScript .math (Reader.start rereadSource 20)
    (identitiesOf r.1).Nodup ∧
      ∀ j atoms, groupAndScript[j]? = some atoms →
        (∀ i ∈ identitiesOf atoms, (identitiesOf r.1).count i ≤ if j ∈ r.2.used then 1 else 0) ∧
        ∀ i ∈ identitiesOf (Reader.unprotected atoms),
          (identitiesOf r.1).count i = if j ∈ r.2.used then 1 else 0 := by
  have hd : (identitiesOf groupAndScript.flatten).Nodup := by decide +kernel
  have hn : ∀ i ∈ identitiesOf groupAndScript.flatten, i < 20 := by decide +kernel
  exact ⟨hd, hn, identities_readAll hd hn .math rereadSource⟩

end FormulaEditor.Latex

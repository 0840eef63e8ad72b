/-!
# Cutting and splicing lists

A list with a run of its elements taken out or replaced by others.
-/

namespace FormulaEditor

variable {α : Type}

/-- The elements with indices from `start` up to `stop`. -/
def slice (xs : List α) (start stop : Nat) : List α :=
  (xs.take stop).drop start

/-- The list with the elements from `start` up to `stop` replaced. -/
def splice (xs : List α) (start stop : Nat) (middle : List α) : List α :=
  xs.take start ++ middle ++ xs.drop stop

/-- How many elements at the end of a list have a property without a break. -/
def countAtEnd (p : α → Bool) (xs : List α) : Nat :=
  (xs.reverse.takeWhile p).length

/-- How many elements at the start of a list have a property without a break. -/
def countAtStart (p : α → Bool) (xs : List α) : Nat :=
  (xs.takeWhile p).length

theorem splice_slice (xs : List α) {start stop : Nat} (h : start ≤ stop) :
    splice xs start stop (slice xs start stop) = xs := by
  have hs : (xs.take stop).take start ++ (xs.take stop).drop start ++ xs.drop stop = xs := by
    rw [List.take_append_drop, List.take_append_drop]
  rw [List.take_take, Nat.min_eq_left h] at hs
  exact hs

theorem length_slice {xs : List α} {start stop : Nat} (h : stop ≤ xs.length) :
    (slice xs start stop).length = stop - start := by
  rw [slice, List.length_drop, List.length_take, Nat.min_eq_left h]

theorem slice_singleton {xs : List α} {i : Nat} {x : α} (h : xs[i]? = some x) :
    slice xs i (i + 1) = [x] := by
  obtain ⟨hlt, hget⟩ := List.getElem?_eq_some_iff.1 h
  rw [slice, List.take_succ_eq_append_getElem hlt, hget,
    List.drop_append_of_le_length (by simp; omega)]
  simp

theorem countAtEnd_le (p : α → Bool) (xs : List α) : countAtEnd p xs ≤ xs.length := by
  have h := (List.takeWhile_sublist (l := xs.reverse) p).length_le
  simpa [countAtEnd] using h

theorem countAtStart_le (p : α → Bool) (xs : List α) : countAtStart p xs ≤ xs.length :=
  (List.takeWhile_sublist p).length_le

end FormulaEditor

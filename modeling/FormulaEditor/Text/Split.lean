/-!
# Splitting text at a separator

A text cut at every occurrence of a separator, the inverse of joining pieces that do not hold it.
-/

namespace FormulaEditor.Text

/-- The pieces of a text between the occurrences of `sep`. There is always at least one. -/
def splitAtEach (sep : Char) : List Char → List (List Char)
  | [] => [[]]
  | c :: rest =>
      if c = sep then [] :: splitAtEach sep rest
      else
        match splitAtEach sep rest with
        | [] => [[c]]
        | piece :: pieces => (c :: piece) :: pieces

/-- The text before and after the first occurrence of `sep`. -/
def cutAtFirst? (sep : Char) : List Char → Option (List Char × List Char)
  | [] => none
  | c :: rest =>
      if c = sep then some ([], rest)
      else (cutAtFirst? sep rest).map fun (before, after) => (c :: before, after)

/-- The pieces with `sep` between them. -/
def joinWith (sep : Char) : List (List Char) → List Char
  | [] => []
  | [piece] => piece
  | piece :: pieces => piece ++ sep :: joinWith sep pieces

theorem cutAtFirst?_append {sep : Char} {before : List Char} (h : sep ∉ before) (after : List Char) :
    cutAtFirst? sep (before ++ sep :: after) = some (before, after) := by
  induction before with
  | nil => simp [cutAtFirst?]
  | cons c rest ih =>
      rw [List.mem_cons, not_or] at h
      simp [cutAtFirst?, Ne.symm h.1, ih h.2]

theorem eq_append_of_cutAtFirst? {sep : Char} {text before after : List Char}
    (h : cutAtFirst? sep text = some (before, after)) :
    text = before ++ sep :: after ∧ sep ∉ before := by
  induction text generalizing before with
  | nil => simp [cutAtFirst?] at h
  | cons c rest ih =>
      simp only [cutAtFirst?] at h
      split at h
      · rename_i hc
        obtain ⟨rfl, rfl⟩ := h
        exact ⟨by rw [hc, List.nil_append], List.not_mem_nil⟩
      · rename_i hc
        obtain ⟨⟨b, a⟩, hcut, heq⟩ := Option.map_eq_some_iff.1 h
        simp only [Prod.mk.injEq] at heq
        obtain ⟨rfl, rfl⟩ := heq
        obtain ⟨rfl, hb⟩ := ih hcut
        exact ⟨rfl, by simp [Ne.symm hc, hb]⟩

theorem length_of_cutAtFirst? {sep : Char} {text before after : List Char}
    (h : cutAtFirst? sep text = some (before, after)) :
    text.length = before.length + after.length + 1 := by
  rw [(eq_append_of_cutAtFirst? h).1, List.length_append, List.length_cons, Nat.add_assoc]

theorem splitAtEach_eq_splitOn (sep : Char) (text : List Char) :
    splitAtEach sep text = text.splitOn sep := by
  induction text with
  | nil => rfl
  | cons c rest ih =>
      rw [splitAtEach, ih, List.splitOn_cons_eq_if_modifyHead]
      by_cases hc : c = sep
      · rw [if_pos hc, if_pos (beq_iff_eq.2 hc)]
      · rw [if_neg hc, if_neg (mt beq_iff_eq.1 hc)]
        cases hpieces : rest.splitOn sep with
        | nil => exact absurd hpieces (List.splitOn_ne_nil sep rest)
        | cons piece pieces => rfl

theorem joinWith_eq_intercalate (sep : Char) (pieces : List (List Char)) :
    joinWith sep pieces = [sep].intercalate pieces := by
  induction pieces with
  | nil => rfl
  | cons piece rest ih =>
      cases rest with
      | nil => rw [joinWith, List.intercalate_singleton]
      | cons next rest =>
          have hjoin : joinWith sep (piece :: next :: rest) =
              piece ++ ([sep] ++ joinWith sep (next :: rest)) := rfl
          rw [hjoin, ih, List.intercalate_cons_cons, List.append_assoc]

theorem joinWith_splitAtEach (sep : Char) (text : List Char) :
    joinWith sep (splitAtEach sep text) = text := by
  rw [joinWith_eq_intercalate, splitAtEach_eq_splitOn, List.intercalate_splitOn]

theorem splitAtEach_joinWith {sep : Char} {pieces : List (List Char)} (hne : pieces ≠ [])
    (h : ∀ piece ∈ pieces, sep ∉ piece) : splitAtEach sep (joinWith sep pieces) = pieces := by
  rw [joinWith_eq_intercalate, splitAtEach_eq_splitOn, List.splitOn_intercalate sep h hne]

end FormulaEditor.Text

import FormulaEditor.Editor.Key
import Mathlib.Data.List.Forall2

/-!
# Keys in a text

Keys that are written one after the other are read back as they are, wherever braces meet: a doubled
brace is told apart from the brace of a name. Whatever the text is, its keys use up every character
once and in order.
-/

namespace FormulaEditor.Key

/-- Whether the reader takes a key for itself once it is written. A name ends at the first brace that
closes, and would be taken for a doubled brace if it began with one that opens. -/
def IsLegible : Key → Prop
  | char _ => True
  | named name => closeBrace ∉ name ∧ name.head? ≠ some openBrace

/-- What a key can be read from. -/
inductive IsSpelling : Key → List Char → Prop where
  | alone (c : Char) : IsSpelling (char c) [c]
  | doubled {c : Char} : c = openBrace ∨ c = closeBrace → IsSpelling (char c) [c, c]
  | named {name : List Char} : closeBrace ∉ name →
      IsSpelling (named name) (openBrace :: name ++ [closeBrace])

/-! ## One key -/

theorem read_nil : read [] = [] := by
  rw [read]

theorem read_cons (c : Char) (rest : List Char) :
    read (c :: rest) =
      if (c = openBrace ∨ c = closeBrace) ∧ rest.head? = some c then char c :: read rest.tail
      else if c = openBrace then
        match Text.cutAtFirst? closeBrace rest with
        | some (name, after) => named name :: read after
        | none => char c :: read rest
      else char c :: read rest := by
  rw [read.eq_def]
  simp only [Bool.and_eq_true, Bool.or_eq_true, decide_eq_true_eq, beq_iff_eq]
  cases Text.cutAtFirst? closeBrace rest <;> rfl

theorem read_doubled {c : Char} (h : c = openBrace ∨ c = closeBrace) (rest : List Char) :
    read (c :: c :: rest) = char c :: read rest := by
  rw [read_cons, if_pos ⟨h, rfl⟩, List.tail_cons]

theorem read_other {c : Char} (hopen : c ≠ openBrace) (hclose : c ≠ closeBrace) (rest : List Char) :
    read (c :: rest) = char c :: read rest := by
  rw [read_cons, if_neg fun h => h.1.elim hopen hclose, if_neg hopen]

theorem read_named {name : List Char} (hclose : closeBrace ∉ name)
    (hopen : name.head? ≠ some openBrace) (rest : List Char) :
    read (openBrace :: (name ++ closeBrace :: rest)) = named name :: read rest := by
  have hhead : (name ++ closeBrace :: rest).head? ≠ some openBrace := by
    cases name with
    | nil => exact fun h => absurd (Option.some.inj h) (by decide)
    | cons c name => exact hopen
  rw [read_cons, if_neg fun h => hhead h.2, if_pos rfl, Text.cutAtFirst?_append hclose]

/-- A key is read back, whatever is written after it. -/
theorem read_write_append {k : Key} (h : k.IsLegible) (rest : List Char) :
    read (k.write ++ rest) = k :: read rest := by
  cases k with
  | char c =>
      by_cases hbrace : c = openBrace ∨ c = closeBrace
      · simp [write, hbrace, read_doubled hbrace]
      · obtain ⟨hopen, hclose⟩ := not_or.1 hbrace
        simp [write, hopen, hclose, read_other hopen hclose]
  | named name =>
      have hread := read_named h.1 h.2 rest
      simpa [write] using hread

theorem read_flatMap_write {keys : List Key} (h : ∀ k ∈ keys, k.IsLegible) :
    read (keys.flatMap write) = keys := by
  induction keys with
  | nil => exact read_nil
  | cons k rest ih =>
      obtain ⟨hk, hrest⟩ := List.forall_mem_cons.1 h
      rw [List.flatMap_cons, read_write_append hk, ih hrest]

/-! ## Any text -/

/-- The keys of a text account for it if they are read from pieces that make up the text. -/
def AccountsFor (keys : List Key) (text : List Char) : Prop :=
  ∃ pieces : List (List Char), pieces.flatten = text ∧ List.Forall₂ IsSpelling keys pieces

theorem AccountsFor.cons {k : Key} {keys : List Key} {piece rest : List Char} (hk : IsSpelling k piece)
    (h : AccountsFor keys rest) : AccountsFor (k :: keys) (piece ++ rest) := by
  obtain ⟨pieces, rfl, hpieces⟩ := h
  exact ⟨piece :: pieces, rfl, .cons hk hpieces⟩

theorem accountsFor_read (text : List Char) : AccountsFor (read text) text := by
  induction text using read.induct with
  | case1 => exact ⟨[], rfl, by rw [read_nil]; exact .nil⟩
  | case2 c rest h ih =>
      rw [Bool.and_eq_true, Bool.or_eq_true, decide_eq_true_iff, decide_eq_true_iff, beq_iff_eq] at h
      obtain ⟨rest, rfl⟩ := List.head?_eq_some_iff.1 h.2
      rw [read_doubled h.1]
      exact .cons (.doubled h.1) ih
  | case3 rest name after hcut h ih =>
      obtain ⟨rfl, hclose⟩ := Text.eq_append_of_cutAtFirst? hcut
      have hopen : name.head? ≠ some openBrace := by
        intro hhead
        obtain ⟨name, rfl⟩ := List.head?_eq_some_iff.1 hhead
        exact h (by simp)
      rw [read_named hclose hopen]
      have hnamed := ih.cons (.named hclose)
      simpa using hnamed
  | case4 rest hcut h ih =>
      rw [read_cons, if_neg (by simpa using h), if_pos rfl, hcut]
      exact ih.cons (.alone openBrace)
  | case5 c rest h hopen ih =>
      rw [read_cons, if_neg (by simpa using h), if_neg hopen]
      exact ih.cons (.alone c)

theorem read_flatMap_write_accounts :
    (∀ keys : List Key, (∀ k ∈ keys, k.IsLegible) → read (keys.flatMap write) = keys) ∧
      ∀ text : List Char, AccountsFor (read text) text :=
  ⟨fun _ => read_flatMap_write, accountsFor_read⟩

/-- A brace before a name that is empty, one after it, and a name with a brace in it. -/
theorem read_flatMap_write_accounts_braces :
    (∀ k ∈ [char openBrace, named [], char closeBrace, named ['a', openBrace], char 'π'], k.IsLegible) ∧
      read [openBrace, openBrace, openBrace, closeBrace, closeBrace, closeBrace, openBrace, 'a',
          openBrace, closeBrace, 'π'] =
        [char openBrace, named [], char closeBrace, named ['a', openBrace], char 'π'] := by
  have hlegible : ∀ k ∈ [char openBrace, named [], char closeBrace, named ['a', openBrace], char 'π'],
      k.IsLegible := by
    simp [IsLegible, openBrace, closeBrace]
  exact ⟨hlegible, read_flatMap_write_accounts.1 _ hlegible⟩

end FormulaEditor.Key

import FormulaEditor.Formula.Path

/-!
# Placeholders and carets

A branch that holds nothing but a bare placeholder counts as empty: its only caret position is the
leading gap. The first placeholder of a formula is where typing goes on after an insertion.
-/

namespace FormulaEditor

/-- Whether a branch holds nothing but one placeholder without scripts. -/
def isPlaceholderOnly : List Atom → Bool
  | [a] => a.isPlaceholder && a.isLeaf
  | _ => false

/-- The offset of the last caret position in a branch. -/
def lastOffset (branch : List Atom) : Int :=
  if isPlaceholderOnly branch then leadingGap else (branch.length : Int) - 1

/-- Whether the branch in a slot is the body of a grid, where there are no caret positions. -/
def isGridBody (kind : Kind) (slot : Slot) : Bool :=
  kind.isGrid && slot == .body

mutual

/-- The atom at a position and everything below it, each with its path, in document order. -/
def Atom.positions (p : Path) : Atom → List (Path × Atom)
  | .node label ⟨body, sup, sub, numerator, denominator, index, radicand⟩ =>
      (p, .node label ⟨body, sup, sub, numerator, denominator, index, radicand⟩) ::
        (branchPositions p .body body ++ branchPositions p .superscript sup ++
          branchPositions p .subscript sub ++ branchPositions p .numerator numerator ++
          branchPositions p .denominator denominator ++ branchPositions p .index index ++
          branchPositions p .radicand radicand)

/-- The atoms of a branch and below it with their paths. -/
def branchPositions (p : Path) (slot : Slot) : Option (List Atom) → List (Path × Atom)
  | none => []
  | some atoms => itemPositions p slot 0 atoms

/-- The atoms from an index of a branch on with their paths. -/
def itemPositions (p : Path) (slot : Slot) (i : Nat) : List Atom → List (Path × Atom)
  | [] => []
  | a :: rest => a.positions (p.child slot i) ++ itemPositions p slot (i + 1) rest

end

/-- The path of the first placeholder in an atom or below it. -/
def Atom.firstPlaceholder? (p : Path) (a : Atom) : Option Path :=
  ((a.positions p).find? fun (_, b) => b.isPlaceholder).map Prod.fst

theorem isPlaceholderOnly_iff {atoms : List Atom} :
    isPlaceholderOnly atoms = true ↔
      ∃ a, atoms = [a] ∧ a.isPlaceholder = true ∧ a.isLeaf = true := by
  constructor
  · intro h
    unfold isPlaceholderOnly at h
    split at h
    · exact ⟨_, rfl, Bool.and_eq_true_iff.1 h⟩
    · cases h
  · rintro ⟨a, rfl, hplaceholder, hleaf⟩
    exact Bool.and_eq_true_iff.2 ⟨hplaceholder, hleaf⟩

/-- A branch that holds anything but placeholders does not count as empty. -/
theorem isPlaceholderOnly_eq_false {atoms : List Atom} {a : Atom} (hm : a ∈ atoms)
    (ha : a.isPlaceholder = false) : isPlaceholderOnly atoms = false := by
  rw [Bool.eq_false_iff, Ne, isPlaceholderOnly_iff]
  rintro ⟨b, rfl, hb, -⟩
  rw [List.mem_singleton.1 hm, hb] at ha
  cases ha

end FormulaEditor

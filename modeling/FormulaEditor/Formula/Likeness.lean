import FormulaEditor.Formula.Walk

/-!
# Likeness

Two formulas are alike when they have the same structure, whatever the identities and marks of
their atoms. The main statement is `alike_iff`: they are alike exactly if they become equal once
identities and marks are erased.
-/

namespace FormulaEditor

/-- The label without identity and marks. -/
def Label.bare (l : Label) : Label :=
  { l with id := 0, marks := Marks.none }

namespace Atom

/-- The formula without identities and marks. -/
def bare (a : Atom) : Atom :=
  a.mapLabels Label.bare

mutual

/-- Whether two formulas are alike. -/
def alike : Atom → Atom → Bool
  | node l ⟨body, sup, sub, numerator, denominator, index, radicand⟩,
    node l' ⟨body', sup', sub', numerator', denominator', index', radicand'⟩ =>
      l.kind == l'.kind && l.value == l'.value && l.glyph == l'.glyph &&
        alikeBranch body body' && alikeBranch numerator numerator' &&
        alikeBranch denominator denominator' && alikeBranch radicand radicand' &&
        alikeBranch index index' && alikeBranch sup sup' && alikeBranch sub sub'

/-- Whether two branches are both absent or hold alike sequences. -/
def alikeBranch : Option (List Atom) → Option (List Atom) → Bool
  | none, none => true
  | some atoms, some atoms' => alikeList atoms atoms'
  | _, _ => false

/-- Whether two sequences are alike atom by atom. -/
def alikeList : List Atom → List Atom → Bool
  | [], [] => true
  | a :: rest, b :: rest' => alike a b && alikeList rest rest'
  | _, _ => false

end

theorem bare_label_iff {l l' : Label} :
    l.bare = l'.bare ↔ l.kind = l'.kind ∧ l.value = l'.value ∧ l.glyph = l'.glyph := by
  cases l
  cases l'
  simp [Label.bare]

mutual

theorem alike_iff : (a b : Atom) → (alike a b = true ↔ a.bare = b.bare)
  | node l ⟨body, sup, sub, numerator, denominator, index, radicand⟩,
    node l' ⟨body', sup', sub', numerator', denominator', index', radicand'⟩ => by
      simp only [alike, bare, mapLabels, Bool.and_eq_true, beq_iff_eq, node.injEq,
        Branches.mk.injEq, bare_label_iff, alikeBranch_iff body body', alikeBranch_iff sup sup',
        alikeBranch_iff sub sub', alikeBranch_iff numerator numerator',
        alikeBranch_iff denominator denominator', alikeBranch_iff index index',
        alikeBranch_iff radicand radicand']
      grind

theorem alikeBranch_iff : (b c : Option (List Atom)) →
    (alikeBranch b c = true ↔ mapLabelsOfBranch Label.bare b = mapLabelsOfBranch Label.bare c)
  | none, none => by simp [alikeBranch, mapLabelsOfBranch]
  | none, some _ => by simp [alikeBranch, mapLabelsOfBranch]
  | some _, none => by simp [alikeBranch, mapLabelsOfBranch]
  | some atoms, some atoms' => by
      simp [alikeBranch, mapLabelsOfBranch, alikeList_iff atoms atoms']

theorem alikeList_iff : (as bs : List Atom) →
    (alikeList as bs = true ↔ mapLabelsOfList Label.bare as = mapLabelsOfList Label.bare bs)
  | [], [] => by simp [alikeList, mapLabelsOfList]
  | [], _ :: _ => by simp [alikeList, mapLabelsOfList]
  | _ :: _, [] => by simp [alikeList, mapLabelsOfList]
  | a :: rest, b :: rest' => by
      simp only [alikeList, mapLabelsOfList, Bool.and_eq_true, List.cons.injEq, alike_iff a b,
        alikeList_iff rest rest', bare]

end

theorem alike_refl (a : Atom) : alike a a = true :=
  (alike_iff a a).2 rfl

theorem alike_comm {a b : Atom} (h : alike a b = true) : alike b a = true :=
  (alike_iff b a).2 ((alike_iff a b).1 h).symm

theorem alike_trans {a b c : Atom} (h : alike a b = true) (h' : alike b c = true) :
    alike a c = true :=
  (alike_iff a c).2 (((alike_iff a b).1 h).trans ((alike_iff b c).1 h'))

end Atom

end FormulaEditor

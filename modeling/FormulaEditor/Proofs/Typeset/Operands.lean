import FormulaEditor.Typeset.Spacing
import Mathlib.Data.List.ReduceOption

/-!
# Operators and their operands

After operators are resolved, every one that is still binary stands between two operands, with
nothing but atoms without a class in between. Only binary operators change; one becomes ordinary for
a reason that can be seen on its left in the result or on its right in the original; and nothing is
left to resolve.
-/

namespace FormulaEditor.Typeset

/-- The class of the closest atom before an index, among those that have one. -/
def classBefore (classes : List (Option SpacingClass)) (i : Nat) : Option SpacingClass :=
  (classes.take i).reduceOption.getLast?

/-- The class of the closest atom after an index, among those that have one. -/
def classAfter (classes : List (Option SpacingClass)) (i : Nat) : Option SpacingClass :=
  (classes.drop (i + 1)).reduceOption.head?

/-- The classes that end no operand, so that what comes after them is no binary operator. -/
def endingNoOperand : List SpacingClass :=
  [.binary, .operator, .relation, .opening, .punctuation]

/-- The classes that begin no operand, so that what comes before them is no binary operator. -/
def beginningNoOperand : List SpacingClass :=
  [.binary, .relation, .closing, .punctuation]

/-- Whether a class stands for an operand that ends there. -/
def EndsOperand (left : Option SpacingClass) : Prop :=
  ∃ c, left = some c ∧ c ∉ endingNoOperand

/-- Whether a class stands for an operand that begins there. -/
def BeginsOperand (right : Option SpacingClass) : Prop :=
  ∃ c, right = some c ∧ c ∉ beginningNoOperand

/-- What holds of classes in which the operators were resolved. -/
structure ResolvesOperators (classes resolved : List (Option SpacingClass)) : Prop where
  length_eq : resolved.length = classes.length
  /-- Everything but binary operators stays as it is. -/
  kept {i : Nat} {entry : Option SpacingClass} : classes[i]? = some entry → entry ≠ some .binary →
    resolved[i]? = some entry
  /-- A binary operator stays one or becomes ordinary. -/
  demoted {i : Nat} : classes[i]? = some (some .binary) →
    resolved[i]? = some (some .binary) ∨ resolved[i]? = some (some .ordinary)
  /-- What is still a binary operator has its operands. -/
  operands {i : Nat} : resolved[i]? = some (some .binary) →
    EndsOperand (classBefore resolved i) ∧ BeginsOperand (classAfter resolved i)
  /-- What is no binary operator any more lacks an operand. Another binary operator after it is not the
  reason, since that one gives way. -/
  reason {i : Nat} : classes[i]? = some (some .binary) → resolved[i]? = some (some .ordinary) →
    ¬EndsOperand (classBefore resolved i) ∨
      ¬BeginsOperand (classAfter classes i) ∧ classAfter classes i ≠ some .binary

/-! ## Looking ahead -/

/-- Whether no operand can begin with the next class, which another binary operator does not decide,
since it will be resolved first. -/
def lacksNextOperand (right : Option SpacingClass) : Bool :=
  right.all lacksRightOperand

/-- The class of an atom between the resolved class before it and the one after it. -/
def resolveBetween (left : Option SpacingClass) (c : SpacingClass) (right : Option SpacingClass) :
    SpacingClass :=
  if c = .binary && (lacksLeftOperand left || lacksNextOperand right) then .ordinary else c

/-- The classes after `left` with their operators resolved, each as soon as it is reached. -/
def resolveAhead (left : Option SpacingClass) :
    List (Option SpacingClass) → List (Option SpacingClass)
  | [] => []
  | none :: rest => none :: resolveAhead left rest
  | some c :: rest =>
      let resolved := resolveBetween left c rest.reduceOption.head?
      some resolved :: resolveAhead (some resolved) rest

variable {classes : List (Option SpacingClass)} {left right : Option SpacingClass}
  {c : SpacingClass} {i : Nat}

theorem resolveBetween_of_ne (h : c ≠ .binary) : resolveBetween left c right = c := by
  simp [resolveBetween, h]

theorem ne_binary_of_lacksRightOperand (h : lacksRightOperand c = true) : c ≠ .binary := by
  rintro rfl
  cases h

/-- What no operand begins with is the same after every class. -/
theorem resolveAhead_congr (h : lacksNextOperand classes.reduceOption.head? = true)
    (left left' : Option SpacingClass) : resolveAhead left classes = resolveAhead left' classes := by
  induction classes with
  | nil => rfl
  | cons entry rest ih =>
      cases entry with
      | none => exact congrArg _ (ih h)
      | some c =>
          have hne : c ≠ .binary := ne_binary_of_lacksRightOperand h
          simp only [resolveAhead, resolveBetween_of_ne hne]

/-- Going back to the latest operator comes to the same as looking ahead for its operand. -/
theorem resolveFrom_eq (done classes : List (Option SpacingClass)) (latest : Option SpacingClass) :
    resolveFrom done latest classes =
      (if latest = some .binary && lacksNextOperand classes.reduceOption.head? then demoteLatest done
        else done).reverse ++ resolveAhead latest classes := by
  induction classes generalizing done latest with
  | nil =>
      by_cases h : latest = some .binary <;>
        simp [h, resolveFrom, resolveAhead, lacksNextOperand, List.reduceOption_nil]
  | cons entry rest ih =>
      cases entry with
      | none =>
          rw [resolveFrom, ih, resolveAhead, List.reduceOption_cons_of_none]
          split <;> simp [demoteLatest]
      | some c =>
          rw [resolveFrom, ih, resolveAhead, List.reduceOption_cons_of_some, List.head?_cons]
          by_cases hc : c = .binary
          · -- an operator does not complete the one before it, so nothing is taken back here
            subst hc
            by_cases hleft : lacksLeftOperand latest = true
            · simp [hleft, resolveBetween, lacksNextOperand, lacksRightOperand]
            · by_cases hright : lacksNextOperand rest.reduceOption.head? = true
              · rw [resolveAhead_congr hright _ (some .ordinary)]
                simp [hleft, hright, resolveBetween, demoteLatest, lacksRightOperand]
                simp [lacksNextOperand, lacksRightOperand]
              · simp [hleft, hright, resolveBetween, lacksRightOperand]
                simp [lacksNextOperand, lacksRightOperand]
          · simp [hc, resolveBetween, lacksNextOperand, and_comm]

theorem resolveOperators_eq (classes : List (Option SpacingClass)) :
    resolveOperators classes = resolveAhead none classes := by
  rw [resolveOperators, resolveFrom_eq]
  rfl

/-! ## Entry by entry -/

theorem length_resolveAhead (left : Option SpacingClass) (classes : List (Option SpacingClass)) :
    (resolveAhead left classes).length = classes.length := by
  induction classes generalizing left with
  | nil => rfl
  | cons entry rest ih => cases entry <;> simp [resolveAhead, ih]

theorem getElem?_resolveAhead_none (h : classes[i]? = some none) :
    (resolveAhead left classes)[i]? = some none := by
  induction classes generalizing left i with
  | nil => simp at h
  | cons entry rest ih =>
      cases i with
      | zero =>
          obtain rfl : entry = none := by simpa using h
          rfl
      | succ i =>
          rw [List.getElem?_cons_succ] at h
          cases entry <;> simp only [resolveAhead, List.getElem?_cons_succ] <;> exact ih h

theorem classBefore_cons_some (c : SpacingClass) (rest : List (Option SpacingClass)) (i : Nat) :
    classBefore (some c :: rest) (i + 1) = (classBefore rest i).or (some c) := by
  rw [classBefore, List.take_succ_cons, List.reduceOption_cons_of_some, List.getLast?_cons]
  cases h : classBefore rest i <;> simp_all [classBefore]

/-- An entry is decided by the entry before it in the result and by the one after it in the
original. -/
theorem getElem?_resolveAhead_some (h : classes[i]? = some (some c)) :
    (resolveAhead left classes)[i]? =
      some (some (resolveBetween ((classBefore (resolveAhead left classes) i).or left) c
        (classAfter classes i))) := by
  induction classes generalizing left i with
  | nil => simp at h
  | cons entry rest ih =>
      cases i with
      | zero =>
          obtain rfl : entry = some c := by simpa using h
          rfl
      | succ i =>
          rw [List.getElem?_cons_succ] at h
          cases entry with
          | none => exact ih h
          | some d =>
              simp only [resolveAhead, List.getElem?_cons_succ, classBefore_cons_some]
              rw [ih h, Option.or_assoc]
              rfl

theorem classBefore_succ (h : classes[i]? = some (some c)) : classBefore classes (i + 1) = some c := by
  rw [classBefore, List.take_add_one, h, Option.toList_some, List.reduceOption_append,
    List.reduceOption_cons_of_some, List.reduceOption_nil, List.getLast?_concat]

/-- From every entry on, the rest is resolved after the entries before it. -/
theorem drop_resolveAhead (left : Option SpacingClass) (classes : List (Option SpacingClass)) (i : Nat) :
    (resolveAhead left classes).drop i =
      resolveAhead ((classBefore (resolveAhead left classes) i).or left) (classes.drop i) := by
  induction classes generalizing left i with
  | nil => simp [resolveAhead]
  | cons entry rest ih =>
      cases i with
      | zero => rfl
      | succ i =>
          cases entry with
          | none => exact ih left i
          | some c =>
              simp only [resolveAhead, List.drop_succ_cons, classBefore_cons_some, Option.or_assoc,
                Option.some_or]
              exact ih _ i

/-- What follows a binary operator is no binary operator. -/
theorem head?_resolveAhead_binary (classes : List (Option SpacingClass)) :
    (resolveAhead (some .binary) classes).reduceOption.head? =
      classes.reduceOption.head?.map fun c => if c = .binary then .ordinary else c := by
  induction classes with
  | nil => rfl
  | cons entry rest ih =>
      cases entry with
      | none => exact ih
      | some c =>
          rw [resolveAhead, List.reduceOption_cons_of_some, List.reduceOption_cons_of_some]
          by_cases hc : c = .binary <;> simp [resolveBetween, lacksLeftOperand, hc]

/-! ## Operands -/

theorem lacksLeftOperand_eq_false : lacksLeftOperand left = false ↔ EndsOperand left := by
  cases left with
  | none => simp [lacksLeftOperand, EndsOperand]
  | some c => cases c <;> simp [lacksLeftOperand, EndsOperand, endingNoOperand]

theorem lacksNextOperand_eq_false :
    lacksNextOperand right = false ↔ BeginsOperand right ∨ right = some .binary := by
  cases right with
  | none => simp [lacksNextOperand, BeginsOperand]
  | some c =>
      cases c <;> simp [lacksNextOperand, lacksRightOperand, BeginsOperand, beginningNoOperand]

theorem resolveBetween_binary :
    resolveBetween left .binary right = .binary ↔
      lacksLeftOperand left = false ∧ lacksNextOperand right = false := by
  by_cases hleft : lacksLeftOperand left = true <;>
    by_cases hright : lacksNextOperand right = true <;> simp [resolveBetween, hleft, hright]

theorem getElem?_resolveOperators (h : classes[i]? = some (some c)) :
    (resolveOperators classes)[i]? =
      some (some (resolveBetween (classBefore (resolveOperators classes) i) c
        (classAfter classes i))) := by
  rw [resolveOperators_eq, getElem?_resolveAhead_some h, Option.or_none]

/-- A binary operator of the result was one before, and had its operands when it was reached. -/
theorem of_getElem?_eq_binary (h : (resolveOperators classes)[i]? = some (some .binary)) :
    classes[i]? = some (some .binary) ∧
      lacksLeftOperand (classBefore (resolveOperators classes) i) = false ∧
      lacksNextOperand (classAfter classes i) = false := by
  cases hentry : classes[i]? with
  | none =>
      rw [List.getElem?_eq_none_iff, ← length_resolveAhead none, ← resolveOperators_eq,
        ← List.getElem?_eq_none_iff, h] at hentry
      cases hentry
  | some entry =>
      cases entry with
      | none =>
          rw [resolveOperators_eq, getElem?_resolveAhead_none hentry] at h
          cases h
      | some c =>
          have hresolved := getElem?_resolveOperators hentry
          rw [h, Option.some.injEq, Option.some.injEq] at hresolved
          by_cases hc : c = .binary
          · subst hc
            exact ⟨rfl, resolveBetween_binary.1 hresolved.symm⟩
          · rw [resolveBetween_of_ne hc] at hresolved
            exact absurd hresolved.symm hc

theorem operands_resolveOperators (h : (resolveOperators classes)[i]? = some (some .binary)) :
    EndsOperand (classBefore (resolveOperators classes) i) ∧
      BeginsOperand (classAfter (resolveOperators classes) i) := by
  obtain ⟨-, hleft, hright⟩ := of_getElem?_eq_binary h
  refine ⟨lacksLeftOperand_eq_false.1 hleft, ?_⟩
  have hrest : classAfter (resolveOperators classes) i =
      (classAfter classes i).map fun c => if c = .binary then .ordinary else c := by
    have hbefore := classBefore_succ h
    rw [classAfter, resolveOperators_eq, drop_resolveAhead, ← resolveOperators_eq, hbefore,
      Option.some_or, head?_resolveAhead_binary]
    rfl
  cases hafter : classAfter classes i with
  | none =>
      rw [hafter] at hright
      cases hright
  | some c =>
      -- of the classes that begin no operand, only the binary operators are not lacking one
      rw [hafter] at hright
      rw [hrest, hafter]
      by_cases hc : c = .binary
      · exact ⟨.ordinary, by simp [hc], by decide⟩
      · simpa [hc] using lacksNextOperand_eq_false.1 hright

/-- Where every binary operator has its operands, nothing is left to resolve. -/
theorem resolveOperators_eq_self
    (h : ∀ i, classes[i]? = some (some .binary) →
      EndsOperand (classBefore classes i) ∧ BeginsOperand (classAfter classes i)) :
    resolveOperators classes = classes := by
  apply List.ext_getElem?
  intro i
  induction i using Nat.strongRecOn with
  | ind i ih =>
      cases hentry : classes[i]? with
      | none =>
          rw [List.getElem?_eq_none_iff] at hentry ⊢
          rw [resolveOperators_eq, length_resolveAhead]
          exact hentry
      | some entry =>
          cases entry with
          | none => rw [resolveOperators_eq, getElem?_resolveAhead_none hentry]
          | some c =>
              rw [getElem?_resolveOperators hentry]
              by_cases hc : c = .binary
              · subst hc
                obtain ⟨hleft, hright⟩ := h i hentry
                have htake : (resolveOperators classes).take i = classes.take i := by
                  apply List.ext_getElem?
                  intro k
                  rw [List.getElem?_take, List.getElem?_take]
                  split
                  · rename_i hk
                    exact ih k hk
                  · rfl
                have hkept := resolveBetween_binary.2 ⟨lacksLeftOperand_eq_false.2 hleft,
                  lacksNextOperand_eq_false.2 (.inl hright)⟩
                rw [classBefore, htake]
                exact congrArg (fun c => some (some c)) hkept
              · rw [resolveBetween_of_ne hc]

theorem resolvesOperators_resolveOperators (classes : List (Option SpacingClass)) :
    ResolvesOperators classes (resolveOperators classes) ∧
      resolveOperators (resolveOperators classes) = resolveOperators classes := by
  refine ⟨⟨?_, ?_, ?_, operands_resolveOperators, ?_⟩,
    resolveOperators_eq_self fun i => operands_resolveOperators⟩
  · rw [resolveOperators_eq, length_resolveAhead]
  · intro i entry hentry hne
    cases entry with
    | none => rw [resolveOperators_eq, getElem?_resolveAhead_none hentry]
    | some c =>
        rw [getElem?_resolveOperators hentry, resolveBetween_of_ne fun hc => hne (congrArg some hc)]
  · intro i hentry
    rw [getElem?_resolveOperators hentry, resolveBetween]
    split
    · exact .inr rfl
    · exact .inl rfl
  · intro i hentry hordinary
    have hlacks : ¬(lacksLeftOperand (classBefore (resolveOperators classes) i) = false ∧
        lacksNextOperand (classAfter classes i) = false) := by
      intro hoperands
      rw [getElem?_resolveOperators hentry, resolveBetween_binary.2 hoperands] at hordinary
      cases hordinary
    rw [lacksLeftOperand_eq_false, lacksNextOperand_eq_false, not_and_or, not_or] at hlacks
    exact hlacks

/-- A tie between two operators is settled from the left, and an operator without a right operand
does not keep the one after it from being one. -/
example : resolveOperators [some .ordinary, some .binary, none, some .binary, some .ordinary,
      some .binary, some .closing, some .binary, some .inner] =
    [some .ordinary, some .binary, none, some .ordinary, some .ordinary,
      some .ordinary, some .closing, some .binary, some .inner] := by
  decide

end FormulaEditor.Typeset

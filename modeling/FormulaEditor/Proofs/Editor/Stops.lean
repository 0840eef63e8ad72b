import FormulaEditor.Editor.Stops
import FormulaEditor.Proofs.Editor.Sound

/-!
# Stops are positions

Every caret stop of a formula is a position of it, and every placeholder stop is the position of an
atom, so that a caret which goes to a stop is valid. Conversely a position is a stop, unless it lies
behind a placeholder that is all its branch holds.
-/

namespace FormulaEditor

/-- A stop that the caret can go to. -/
def IsStop (root : Atom) : CaretStop → Prop
  | .caret p => IsPosition root p
  | .placeholder p => IsAtomPosition root p

/-- A property of the stops that a walk over a formula meets: of the leading gap of every branch, of
the gaps behind the atoms of a branch that does not count as empty, and of every placeholder. -/
structure StopClosed (root : Atom) (S : CaretStop → Prop) : Prop where
  leading {q : Path} {slot : Slot} {owner : Atom} {atoms : List Atom} :
    IsBranch root q slot owner atoms → S (.caret (q.child slot leadingGap))
  behind {q : Path} {slot : Slot} {owner : Atom} {atoms : List Atom} {i : Nat} :
    IsBranch root q slot owner atoms → isPlaceholderOnly atoms = false → i < atoms.length →
      S (.caret (q.child slot i))
  placeholder {q : Path} {slot : Slot} {owner : Atom} {atoms : List Atom} {i : Nat} :
    IsBranch root q slot owner atoms → i < atoms.length → S (.placeholder (q.child slot i))

section

variable {root : Atom} {S : CaretStop → Prop}

mutual

theorem forall_stopsInside (hS : StopClosed root S) : (a : Atom) → {p : Path} →
    p.atom? root = some a → ∀ s ∈ a.stopsInside p, S s
  | .node label ⟨body, sup, sub, numerator, denominator, index, radicand⟩, p, ha, s, hs => by
      simp only [Atom.stopsInside, List.mem_append] at hs
      rcases hs with ((((((hs | hs) | hs) | hs) | hs) | hs) | hs)
      · exact forall_branchStops hS body ha rfl s hs
      · exact forall_branchStops hS sup ha rfl s hs
      · exact forall_branchStops hS sub ha rfl s hs
      · exact forall_branchStops hS numerator ha rfl s hs
      · exact forall_branchStops hS denominator ha rfl s hs
      · exact forall_branchStops hS index ha rfl s hs
      · exact forall_branchStops hS radicand ha rfl s hs

theorem forall_branchStops (hS : StopClosed root S) : (b : Option (List Atom)) → {p : Path} →
    {owner : Atom} → {slot : Slot} → p.atom? root = some owner → owner.branch slot = b →
    ∀ s ∈ branchStops p owner.kind slot b, S s
  | none, _, _, _, _, _, s, hs => by simp [branchStops] at hs
  | some atoms, p, owner, slot, ha, hb, s, hs => by
      simp only [branchStops] at hs
      split at hs
      · exact forall_gridStops hS atoms [] ha hb s hs
      · rename_i hg
        have hbranch : IsBranch root p slot owner atoms := ⟨ha, hb, by simpa using hg⟩
        rcases List.mem_cons.1 hs with rfl | hs
        · exact hS.leading hbranch
        · split at hs
          · rename_i hp
            rw [List.mem_singleton] at hs
            subst hs
            obtain ⟨a, rfl, -, -⟩ := isPlaceholderOnly_iff.1 hp
            exact hS.placeholder hbranch (i := 0) Nat.zero_lt_one
          · rename_i hp
            exact forall_itemStops hS atoms [] hbranch (by simpa using hp) s hs

theorem forall_itemStops (hS : StopClosed root S) : (rest : List Atom) → {p : Path} →
    {owner : Atom} → {slot : Slot} → (before : List Atom) →
    IsBranch root p slot owner (before ++ rest) → isPlaceholderOnly (before ++ rest) = false →
    ∀ s ∈ itemStops p slot before.length rest, S s
  | [], _, _, _, _, _, _, s, hs => by simp [itemStops] at hs
  | a :: rest, p, owner, slot, before, hb, hp, s, hs => by
      have ha : (p.child slot before.length).atom? root = some a := by simp [hb.atom?]
      have hlt : before.length < (before ++ a :: rest).length := by simp
      simp only [itemStops, List.mem_append, List.mem_singleton] at hs
      rcases hs with ((hs | hs) | rfl) | hs
      · split at hs
        · rw [List.mem_singleton] at hs
          exact hs ▸ hS.placeholder hb hlt
        · cases hs
      · exact forall_stopsInside hS a ha s hs
      · exact hS.behind hb hp hlt
      · exact forall_itemStops hS rest (before ++ [a]) (by simpa using hb) (by simpa using hp) s
          (by simpa using hs)

theorem forall_gridStops (hS : StopClosed root S) : (rest : List Atom) → {p : Path} →
    {owner : Atom} → {slot : Slot} → (before : List Atom) → p.atom? root = some owner →
    owner.branch slot = some (before ++ rest) → ∀ s ∈ gridStops p slot before.length rest, S s
  | [], _, _, _, _, _, _, s, hs => by simp [gridStops] at hs
  | a :: rest, p, owner, slot, before, ho, hb, s, hs => by
      have ha : (p.child slot before.length).atom? root = some a := by
        simp [Path.atom?_child, ho, hb]
      simp only [gridStops, List.mem_append] at hs
      rcases hs with hs | hs
      · exact forall_stopsInside hS a ha s hs
      · exact forall_gridStops hS rest (before ++ [a]) ho (by simpa using hb) s (by simpa using hs)

end

/-- What holds of the stops of every branch holds of all stops of a formula. -/
theorem forall_stops (hS : StopClosed root S) : ∀ s ∈ root.stops, S s :=
  forall_stopsInside hS root (Path.atom?_root root)

end

theorem stopClosed_isStop (root : Atom) : StopClosed root (IsStop root) where
  leading hb := hb.isPosition (isOffset_leadingGap _)
  behind hb _ hi := hb.isPosition (isOffset_natCast hi)
  placeholder hb hi := hb.isAtomPosition hi

/-- Every stop of a formula can be gone to. -/
theorem isStop_of_mem_stops {root : Atom} {s : CaretStop} (h : s ∈ root.stops) : IsStop root s :=
  forall_stops (stopClosed_isStop root) s h

theorem mem_caretStops {root : Atom} {p : Path} :
    p ∈ root.caretStops ↔ CaretStop.caret p ∈ root.stops := by
  unfold Atom.caretStops
  rw [List.mem_filterMap]
  constructor
  · rintro ⟨s, hs, hp⟩
    cases s with
    | caret q =>
        cases hp
        exact hs
    | placeholder q => cases hp
  · exact fun h => ⟨_, h, rfl⟩

theorem isPosition_of_mem_caretStops {root : Atom} {p : Path} (h : p ∈ root.caretStops) :
    IsPosition root p :=
  isStop_of_mem_stops (mem_caretStops.1 h)

theorem isAtomPosition_of_placeholder? {root : Atom} {s : CaretStop} {p : Path}
    (h : s ∈ root.stops) (hp : s.placeholder? = some p) : IsAtomPosition root p := by
  cases s with
  | caret q => cases hp
  | placeholder q =>
      cases hp
      exact isStop_of_mem_stops h

/-! ## Positions that are stops -/

/-- Whether a position lies behind a placeholder that is all its branch holds. -/
def isBehindLonePlaceholder (root : Atom) (p : Path) : Bool :=
  p.offset != leadingGap && (p.branch? root).any isPlaceholderOnly

theorem IsBranch.isBehindLonePlaceholder_iff {root : Atom} {q : Path} {slot : Slot} {owner : Atom}
    {atoms : List Atom} (h : IsBranch root q slot owner atoms) (offset : Int) :
    isBehindLonePlaceholder root (q.child slot offset) = true ↔
      offset ≠ leadingGap ∧ isPlaceholderOnly atoms = true := by
  simp [isBehindLonePlaceholder, h.branch?]

/-- The stops in a branch of an atom are stops in the atom. -/
theorem branchStops_subset {a : Atom} {slot : Slot} {atoms : List Atom}
    (hb : a.branch slot = some atoms) (p : Path) :
    branchStops p a.kind slot (some atoms) ⊆ a.stopsInside p := by
  obtain ⟨label, body, sup, sub, numerator, denominator, index, radicand⟩ := a
  intro s hs
  replace hs : s ∈ branchStops p label.kind slot (some atoms) := hs
  simp only [Atom.stopsInside, List.mem_append]
  cases slot <;> cases hb <;> simp only [hs, true_or, or_true]

theorem stopsInside_subset_itemStops {atoms : List Atom} {i : Nat} {c : Atom}
    (hc : atoms[i]? = some c) (p : Path) (slot : Slot) (n : Nat) :
    c.stopsInside (p.child slot (n + i : Nat)) ++ [.caret (p.child slot (n + i : Nat))] ⊆
      itemStops p slot n atoms := by
  induction atoms generalizing i n with
  | nil => simp at hc
  | cons a rest ih =>
      intro s hs
      simp only [itemStops, List.mem_append]
      cases i with
      | zero =>
          cases hc
          rw [Nat.add_zero, List.mem_append] at hs
          rcases hs with hs | hs
          · exact .inl (.inl (.inr hs))
          · exact .inl (.inr hs)
      | succ i =>
          have hrest := ih (i := i) (by simpa using hc) (n + 1)
          rw [show n + 1 + i = n + (i + 1) by omega] at hrest
          exact .inr (hrest hs)

theorem stopsInside_subset_gridStops {atoms : List Atom} {i : Nat} {c : Atom}
    (hc : atoms[i]? = some c) (p : Path) (slot : Slot) (n : Nat) :
    c.stopsInside (p.child slot (n + i : Nat)) ⊆ gridStops p slot n atoms := by
  induction atoms generalizing i n with
  | nil => simp at hc
  | cons a rest ih =>
      intro s hs
      simp only [gridStops, List.mem_append]
      cases i with
      | zero =>
          cases hc
          exact .inl (by simpa using hs)
      | succ i =>
          have hrest := ih (i := i) (by simpa using hc) (n + 1)
          rw [show n + 1 + i = n + (i + 1) by omega] at hrest
          exact .inr (hrest hs)

/-- A leaf of a well-formed formula has no branch. -/
theorem Atom.branch_eq_none_of_isLeaf {a : Atom} (h : a.isLeaf = true) (hw : a.isWellFormed = true)
    (slot : Slot) : a.branch slot = none := by
  simp only [isLeaf, hasScripts, Bool.and_eq_true, beq_iff_eq, Bool.not_eq_true',
    Bool.or_eq_false_iff, Option.isSome_eq_false_iff, Option.isNone_iff_eq_none] at h
  obtain ⟨hshape, hsup, hsub⟩ := h
  cases hb : a.branch slot with
  | none => rfl
  | some atoms =>
      have hallowed := (branchWellFormed hw hb).allowed
      cases slot with
      | superscript => rw [hsup] at hb; cases hb
      | subscript => rw [hsub] at hb; cases hb
      | _ => simp [Kind.allowsSlot, Kind.hasSlot, hshape] at hallowed

theorem stopsInside_eq_nil_of_isLeaf {a : Atom} (h : a.isLeaf = true) (hw : a.isWellFormed = true)
    (p : Path) : a.stopsInside p = [] := by
  have hnone := a.branch_eq_none_of_isLeaf h hw
  obtain ⟨label, body, sup, sub, numerator, denominator, index, radicand⟩ := a
  cases hnone .body
  cases hnone .superscript
  cases hnone .subscript
  cases hnone .numerator
  cases hnone .denominator
  cases hnone .index
  cases hnone .radicand
  rfl

/-- The stops in an atom of a branch are stops in the owner of the branch. A branch that counts as
empty has no more inside. -/
theorem stopsInside_subset {a c : Atom} (hw : a.isWellFormed = true) {slot : Slot}
    {atoms : List Atom} (hb : a.branch slot = some atoms) {i : Nat} (hc : atoms[i]? = some c)
    (p : Path) : c.stopsInside (p.child slot i) ⊆ a.stopsInside p := by
  have hcw : c.isWellFormed = true :=
    (Atom.branchWellFormed hw hb).wellFormed c (List.mem_of_getElem? hc)
  refine fun s hs => branchStops_subset hb p ?_
  simp only [branchStops]
  split
  · exact stopsInside_subset_gridStops hc p slot 0 (by simpa using hs)
  · refine List.mem_cons_of_mem _ ?_
    split
    · rename_i hlone
      obtain ⟨a, rfl, -, hleaf⟩ := isPlaceholderOnly_iff.1 hlone
      cases List.mem_singleton.1 (List.mem_of_getElem? hc)
      simp [stopsInside_eq_nil_of_isLeaf hleaf hcw] at hs
    · exact stopsInside_subset_itemStops hc p slot 0 (List.mem_append_left _ (by simpa using hs))

theorem stopsInside_subset_of_descend? {a b : Atom} (hw : a.isWellFormed = true)
    {steps : List Step} (hd : a.descend? steps = some b) (p : Path) :
    b.stopsInside ⟨p.steps ++ steps⟩ ⊆ a.stopsInside p := by
  induction steps generalizing a p with
  | nil =>
      cases hd
      simp
  | cons s rest ih =>
      obtain ⟨atoms, i, c, hb, hi, hc, hd⟩ := Atom.descend?_cons_eq_some hd
      have hcw := (Atom.branchWellFormed hw hb).wellFormed c (List.mem_of_getElem? hc)
      have hoffset : s.offset = (i : Nat) := by
        unfold Step.index? at hi
        split at hi
        · cases hi
          omega
        · cases hi
      have hpath : (⟨p.steps ++ s :: rest⟩ : Path) = ⟨(p.child s.slot i).steps ++ rest⟩ := by
        rw [← hoffset]
        simp [Path.child]
      rw [hpath]
      exact List.Subset.trans (ih hcw hd _) (stopsInside_subset hw hb hc p)

/-- The leading gap of a branch is a stop. -/
theorem IsBranch.leadingGap_mem_caretStops {root : Atom} {q : Path} {slot : Slot} {owner : Atom}
    {atoms : List Atom} (h : IsBranch root q slot owner atoms) (hw : root.isWellFormed = true) :
    q.child slot leadingGap ∈ root.caretStops := by
  have hsub := stopsInside_subset_of_descend? hw h.atom?_eq Path.root
  refine mem_caretStops.2 (hsub (branchStops_subset h.branch_eq q ?_))
  simp [branchStops, h.not_grid]

/-- The gap behind an atom is a stop, unless the branch counts as empty. -/
theorem IsBranch.child_mem_caretStops {root : Atom} {q : Path} {slot : Slot} {owner : Atom}
    {atoms : List Atom} (h : IsBranch root q slot owner atoms) (hw : root.isWellFormed = true)
    (hp : isPlaceholderOnly atoms = false) {i : Nat} (hi : i < atoms.length) :
    q.child slot i ∈ root.caretStops := by
  have hsub := stopsInside_subset_of_descend? hw h.atom?_eq Path.root
  have hitem := stopsInside_subset_itemStops (List.getElem?_eq_getElem hi) q slot 0
  refine mem_caretStops.2 (hsub (branchStops_subset h.branch_eq q ?_))
  simp only [branchStops, h.not_grid, hp, Bool.false_eq_true, if_false]
  exact List.mem_cons_of_mem _ (hitem (List.mem_append_right _ (by simp)))

/-- The end of a branch is a stop. -/
theorem IsBranch.lastOffset_mem_caretStops {root : Atom} {q : Path} {slot : Slot} {owner : Atom}
    {atoms : List Atom} (h : IsBranch root q slot owner atoms) (hw : root.isWellFormed = true) :
    q.child slot (lastOffset atoms) ∈ root.caretStops := by
  unfold lastOffset
  split
  · exact h.leadingGap_mem_caretStops hw
  · rename_i hp
    cases atoms with
    | nil => exact h.leadingGap_mem_caretStops hw
    | cons a rest =>
        rw [List.length_cons, show ((rest.length + 1 : Nat) : Int) - 1 = (rest.length : Nat) by omega]
        exact h.child_mem_caretStops hw (by simpa using hp) (by simp)

/-- A stop has no lone placeholder before it. -/
def IsCaretStop (root : Atom) : CaretStop → Prop
  | .caret p => IsPosition root p ∧ isBehindLonePlaceholder root p = false
  | .placeholder _ => True

theorem stopClosed_isCaretStop (root : Atom) : StopClosed root (IsCaretStop root) where
  leading hb := by
    refine ⟨hb.isPosition (isOffset_leadingGap _), ?_⟩
    simp [isBehindLonePlaceholder]
  behind hb hp hi := by
    refine ⟨hb.isPosition (isOffset_natCast hi), ?_⟩
    rw [← Bool.not_eq_true, hb.isBehindLonePlaceholder_iff, hp]
    simp
  placeholder _ _ := trivial

/-- In a well-formed formula the stops of the caret are exactly the positions other than those
behind a lone placeholder. -/
theorem mem_caretStops_iff {root : Atom} (hw : root.isWellFormed = true) {p : Path} :
    p ∈ root.caretStops ↔ IsPosition root p ∧ isBehindLonePlaceholder root p = false := by
  constructor
  · exact fun h => forall_stops (stopClosed_isCaretStop root) _ (mem_caretStops.1 h)
  · rintro ⟨⟨q, slot, offset, owner, atoms, rfl, hb, ho⟩, hfree⟩
    by_cases hgap : offset = leadingGap
    · exact hgap ▸ hb.leadingGap_mem_caretStops hw
    · have hlone : isPlaceholderOnly atoms = false := by
        rw [← Bool.not_eq_true] at hfree ⊢
        exact fun hp => hfree ((hb.isBehindLonePlaceholder_iff offset).2 ⟨hgap, hp⟩)
      obtain ⟨i, rfl, hi⟩ := ho.exists_natCast hgap
      exact hb.child_mem_caretStops hw hlone hi

end FormulaEditor

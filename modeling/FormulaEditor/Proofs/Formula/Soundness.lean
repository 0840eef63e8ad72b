import FormulaEditor.Formula.WellFormed

/-!
# Well-formedness, slot by slot

What a kind says about one slot decides whether an atom is sound: whether the slot is filled, may be
filled, and may be empty. A formula is well formed if its top atom is sound and everything in its
branches is well formed, so that a change to one branch is judged by that branch alone.
-/

namespace FormulaEditor

namespace Kind

/-- Whether every atom of the kind has the branch. -/
def hasSlot (k : Kind) : Slot → Bool
  | .body => k.shape == .sequence
  | .numerator | .denominator => k.shape == .fraction
  | .radicand => k.shape == .radical
  | .superscript | .subscript | .index => false

/-- Whether an atom of the kind can have the branch. -/
def allowsSlot (k : Kind) : Slot → Bool
  | .superscript | .subscript => k.allowsScripts
  | .index => k.shape == .radical
  | slot => k.hasSlot slot

/-- Whether the branch is never empty where it is present. -/
def fillsSlot (k : Kind) : Slot → Bool
  | .body => k.requiresBody
  | _ => true

/-- Whether an atom of kind `k` can stand in a branch: grids hold rows, and rows hold cells. -/
def admits (k : Kind) (slot : Slot) (child : Kind) : Bool :=
  match k, slot with
  | .array, .body => child == .row
  | .row, .body => child == .cell
  | _, _ => true

theorem fillsSlot_eq (k : Kind) (slot : Slot) :
    k.fillsSlot slot = (slot.isOptional ||
      match slot with
      | .numerator | .denominator | .radicand => true
      | .body => k.requiresBody
      | .superscript | .subscript | .index => false) := by
  cases slot <;> rfl

theorem hasSlot_of_allowsSlot {k : Kind} {slot : Slot} (h : k.allowsSlot slot = true)
    (hs : slot.isOptional = false) : k.hasSlot slot = true := by
  cases slot <;> simp_all [hasSlot, allowsSlot, Slot.isOptional]

theorem hasSlot_of_isOptional {k : Kind} {slot : Slot} (h : slot.isOptional = true) :
    k.hasSlot slot = false := by
  cases slot <;> simp_all [hasSlot, Slot.isOptional]

theorem admits_of_not_isGrid {k : Kind} {slot : Slot} (h : (k.isGrid && slot == .body) = false)
    (child : Kind) : k.admits slot child = true := by
  cases k <;> cases slot <;> simp_all [admits, isGrid]

theorem row_or_cell_of_admits {k child : Kind} (hg : k.isGrid = true)
    (h : k.admits .body child = true) : child = .row ∨ child = .cell := by
  cases k <;> simp_all [admits, isGrid]

/-- The top of a formula and the parts of a grid have no optional branches. -/
theorem ne_of_allowsSlot {k : Kind} {slot : Slot} (h : k.allowsSlot slot = true)
    (hs : slot.isOptional = true) : k ≠ .root ∧ k ≠ .row ∧ k ≠ .cell := by
  cases slot <;> cases hs <;> cases k <;> simp_all [allowsSlot, allowsScripts, shape]

end Kind

namespace Atom

/-- What a kind says about one slot of an atom. -/
def SlotSound (a : Atom) (slot : Slot) : Prop :=
  match a.branch slot with
  | none => a.kind.hasSlot slot = false
  | some atoms =>
      a.kind.allowsSlot slot = true ∧ (a.kind.fillsSlot slot = true → atoms ≠ []) ∧
        ∀ b ∈ atoms, a.kind.admits slot b.kind = true

theorem hasShape_iff (a : Atom) (shape : Shape) :
    a.hasShape shape = true ↔
      ((a.branch .body).isSome = (shape == .sequence)) ∧
      ((a.branch .numerator).isSome = (shape == .fraction)) ∧
      ((a.branch .denominator).isSome = (shape == .fraction)) ∧
      ((a.branch .radicand).isSome = (shape == .radical)) ∧
      ((a.branch .index).isSome = true → shape = .radical) := by
  simp only [hasShape, List.filter_cons, List.filter_nil]
  generalize (a.branch .body).isSome = body
  generalize (a.branch .numerator).isSome = numerator
  generalize (a.branch .denominator).isSome = denominator
  generalize (a.branch .radicand).isSome = radicand
  generalize (a.branch .index).isSome = index
  revert body numerator denominator radicand index
  cases shape <;> decide

theorem hasScripts_iff (a : Atom) :
    (a.kind.allowsScripts || !a.hasScripts) = true ↔
      ((a.branch .superscript).isSome = true → a.kind.allowsScripts = true) ∧
      ((a.branch .subscript).isSome = true → a.kind.allowsScripts = true) := by
  simp only [hasScripts]
  cases (a.branch .superscript).isSome <;> cases (a.branch .subscript).isSome <;>
    cases a.kind.allowsScripts <;> simp

theorem hasGridContent_iff (a : Atom) :
    a.hasGridContent = true ↔ ∀ b ∈ a.body, a.kind.admits .body b.kind = true := by
  unfold hasGridContent
  cases a.kind <;> simp [Kind.admits]

theorem hasFilledBranches_iff (a : Atom) :
    a.hasFilledBranches = true ↔
      ∀ slot atoms, a.branch slot = some atoms → a.kind.fillsSlot slot = true → atoms ≠ [] := by
  simp only [hasFilledBranches, slots, List.all_eq_true, Branches.mem_slots, branch,
    Kind.fillsSlot_eq]
  constructor
  · intro h slot atoms hs hf he
    have hslot := h slot (by rw [hs]; rfl)
    rw [hs, he] at hslot
    cases slot <;> simp_all [requiresContent, Slot.isOptional, kind]
  · intro h slot hs
    obtain ⟨atoms, ha⟩ := Option.isSome_iff_exists.1 hs
    have hslot := h slot atoms ha
    rw [ha]
    cases atoms with
    | cons b atoms => rfl
    | nil => cases slot <;> simp_all [requiresContent, Slot.isOptional, kind]

/-- An atom is sound exactly if each of its slots is. -/
theorem isSound_iff (a : Atom) : a.isSound = true ↔ ∀ slot, a.SlotSound slot := by
  simp only [isSound, Bool.and_eq_true, hasShape_iff, hasScripts_iff, hasGridContent_iff,
    hasFilledBranches_iff]
  constructor
  · rintro ⟨⟨⟨⟨hbody, hnum, hden, hrad, hindex⟩, hsup, hsub⟩, hgrid⟩, hfilled⟩ slot
    have hf := hfilled slot
    unfold SlotSound
    cases hb : a.branch slot with
    | none => cases slot <;> simp_all [Kind.hasSlot]
    | some atoms =>
        refine ⟨?_, hf atoms hb, ?_⟩
        · cases slot <;> simp_all [Kind.allowsSlot, Kind.hasSlot]
        · intro b hmem
          cases slot with
          | body => exact hgrid b (by simpa [body, hb] using hmem)
          | _ => cases a.kind <;> rfl
  · intro h
    have hpresent (slot : Slot) (hs : slot.isOptional = false) :
        (a.branch slot).isSome = a.kind.hasSlot slot := by
      have hslot := h slot
      unfold SlotSound at hslot
      cases hb : a.branch slot with
      | none => rw [hb] at hslot; exact hslot.symm
      | some atoms =>
          rw [hb] at hslot
          exact (Kind.hasSlot_of_allowsSlot hslot.1 hs).symm
    have hallowed (slot : Slot) (hs : (a.branch slot).isSome = true) :
        a.kind.allowsSlot slot = true := by
      obtain ⟨atoms, ha⟩ := Option.isSome_iff_exists.1 hs
      have hslot := h slot
      rw [SlotSound, ha] at hslot
      exact hslot.1
    refine ⟨⟨⟨⟨hpresent .body rfl, hpresent .numerator rfl, hpresent .denominator rfl,
      hpresent .radicand rfl, ?_⟩, hallowed .superscript, hallowed .subscript⟩, ?_⟩, ?_⟩
    · intro hindex
      simpa [Kind.allowsSlot] using hallowed .index hindex
    · intro b hmem
      have hslot := h .body
      unfold SlotSound at hslot
      cases hb : a.branch .body with
      | none => simp [body, hb] at hmem
      | some atoms =>
          rw [hb] at hslot
          exact hslot.2.2 b (by simpa [body, hb] using hmem)
    · intro slot atoms ha hf
      have hslot := h slot
      rw [SlotSound, ha] at hslot
      exact hslot.2.1 hf

/-! ## Whole formulas -/

theorem mem_children {a b : Atom} :
    b ∈ a.children ↔ ∃ slot atoms, a.branch slot = some atoms ∧ b ∈ atoms := by
  simp only [children, Branches.toList, List.mem_flatMap, Slot.mem_all, true_and]
  refine exists_congr fun slot => ?_
  unfold branch
  cases a.branches.get slot <;> simp

theorem mem_children_of_mem_getD {a b : Atom} {slot : Slot} (h : b ∈ (a.branch slot).getD []) :
    b ∈ a.children :=
  List.mem_flatMap.2 ⟨slot, Slot.mem_all slot, h⟩

theorem mem_subatoms {a b : Atom} : b ∈ a.subatoms ↔ b = a ∨ ∃ c ∈ a.children, b ∈ c.subatoms := by
  rw [subatoms_eq, subatomsOfList_eq_flatMap, List.mem_cons, List.mem_flatMap]

theorem self_mem_subatoms (a : Atom) : a ∈ a.subatoms :=
  mem_subatoms.2 (.inl rfl)

theorem isWellFormed_iff_children (a : Atom) :
    a.isWellFormed = true ↔
      a.isSound = true ∧ ∀ b ∈ a.children, b.isWellFormed = true := by
  unfold isWellFormed
  rw [subatoms_eq, subatomsOfList_eq_flatMap, List.all_cons, Bool.and_eq_true, List.all_flatMap,
    List.all_eq_true]

theorem isWellFormed_of_mem_children {a b : Atom} (hw : a.isWellFormed = true)
    (hb : b ∈ a.children) : b.isWellFormed = true :=
  ((isWellFormed_iff_children a).1 hw).2 b hb

/-- The conditions that a whole branch has to satisfy in a well-formed formula. -/
structure BranchWellFormed (k : Kind) (slot : Slot) (atoms : List Atom) : Prop where
  allowed : k.allowsSlot slot = true
  filled : k.fillsSlot slot = true → atoms ≠ []
  admitted : ∀ b ∈ atoms, k.admits slot b.kind = true
  wellFormed : ∀ b ∈ atoms, b.isWellFormed = true

/-- A formula is well formed exactly if the branches it has are, and none is missing. -/
theorem isWellFormed_iff (a : Atom) :
    a.isWellFormed = true ↔
      (∀ slot, a.branch slot = none → a.kind.hasSlot slot = false) ∧
      ∀ slot atoms, a.branch slot = some atoms → BranchWellFormed a.kind slot atoms := by
  rw [isWellFormed_iff_children, isSound_iff]
  constructor
  · rintro ⟨hslots, hchildren⟩
    refine ⟨fun slot hb => ?_, fun slot atoms hb => ?_⟩
    · have hslot := hslots slot
      rwa [SlotSound, hb] at hslot
    · have hslot := hslots slot
      rw [SlotSound, hb] at hslot
      exact ⟨hslot.1, hslot.2.1, hslot.2.2, fun b hmem =>
        hchildren b (mem_children.2 ⟨slot, atoms, hb, hmem⟩)⟩
  · rintro ⟨hmissing, hbranches⟩
    refine ⟨fun slot => ?_, fun b hmem => ?_⟩
    · unfold SlotSound
      cases hb : a.branch slot with
      | none => exact hmissing slot hb
      | some atoms =>
          have hbranch := hbranches slot atoms hb
          exact ⟨hbranch.allowed, hbranch.filled, hbranch.admitted⟩
    · obtain ⟨slot, atoms, hb, hmem⟩ := mem_children.1 hmem
      exact (hbranches slot atoms hb).wellFormed b hmem

end Atom

end FormulaEditor

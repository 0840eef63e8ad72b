import FormulaEditor.Formula.Likeness
import FormulaEditor.Proofs.Formula.Soundness

/-!
# Edits of one atom

Changing a branch, a label or all labels of a formula. Well-formedness survives each change that
keeps the kinds and puts a well-formed branch in place of another one.
-/

namespace FormulaEditor.Atom

/-! ## Induction over branches -/

theorem sizeOf_lt_of_mem_branch {a b : Atom} {slot : Slot} {atoms : List Atom}
    (hb : a.branch slot = some atoms) (hmem : b ∈ atoms) : sizeOf b < sizeOf a := by
  have hlt := List.sizeOf_lt_of_mem hmem
  obtain ⟨label, ⟨body, sup, sub, numerator, denominator, index, radicand⟩⟩ := a
  cases slot <;> simp only [branch, branches_node, Branches.get] at hb <;> subst hb <;>
    simp only [node.sizeOf_spec, Branches.mk.sizeOf_spec, Option.some.sizeOf_spec] <;> omega

/-- Induction over a formula: what holds of an atom if it holds of everything in its branches holds
of every atom. -/
theorem branchInduction {motive : Atom → Prop}
    (step : ∀ a, (∀ slot atoms, a.branch slot = some atoms → ∀ b ∈ atoms, motive b) → motive a)
    (a : Atom) : motive a :=
  step a fun _ _ hb b hmem =>
    have : sizeOf b < sizeOf a := sizeOf_lt_of_mem_branch hb hmem
    branchInduction step b
termination_by sizeOf a

/-- What passes on from every atom to those directly below passes on to everything below. -/
theorem of_mem_subatoms {P : Atom → Prop} (hP : ∀ a, P a → ∀ c ∈ a.children, P c) {a b : Atom}
    (h : P a) (hb : b ∈ a.subatoms) : P b := by
  induction a using branchInduction with
  | step a ih =>
      rcases mem_subatoms.1 hb with rfl | ⟨c, hc, hb⟩
      · exact h
      · obtain ⟨slot, atoms, hbranch, hmem⟩ := mem_children.1 hc
        exact ih slot atoms hbranch c hmem (hP a h c hc) hb

/-! ## Labels -/

@[simp] theorem kind_putBranch (a : Atom) (slot : Slot) (content : Option (List Atom)) :
    (a.putBranch slot content).kind = a.kind := rfl

@[simp] theorem kind_node (l : Label) (b : Branches Atom) : (node l b).kind = l.kind := rfl

@[simp] theorem kind_mapMarks (a : Atom) (f : Marks → Marks) : (a.mapMarks f).kind = a.kind := by
  cases a
  rfl

@[simp] theorem branch_mapMarks (a : Atom) (f : Marks → Marks) (slot : Slot) :
    (a.mapMarks f).branch slot = a.branch slot := by
  cases a
  rfl

theorem label_mark (a : Atom) (marks : Marks) :
    (a.mark marks).label = { a.label with marks := a.label.marks.union marks } := by
  cases a
  rfl

theorem marks_mark (a : Atom) (marks : Marks) : (a.mark marks).marks = a.marks.union marks := by
  rw [Atom.marks, label_mark, Atom.marks]

theorem children_mark (a : Atom) (marks : Marks) : (a.mark marks).children = a.children := by
  cases a
  rfl

theorem branch_mapLabels (f : Label → Label) (a : Atom) (slot : Slot) :
    (a.mapLabels f).branch slot = (a.branch slot).map (List.map (mapLabels f)) := by
  obtain ⟨label, ⟨body, sup, sub, numerator, denominator, index, radicand⟩⟩ := a
  have hbranch (b : Option (List Atom)) :
      mapLabelsOfBranch f b = b.map (List.map (mapLabels f)) := by
    cases b <;> simp [mapLabelsOfBranch, mapLabelsOfList_eq_map]
  cases slot <;> simp [mapLabels, branch, Branches.get, hbranch]

theorem label_mapLabels (f : Label → Label) (a : Atom) : (a.mapLabels f).label = f a.label := by
  obtain ⟨label, ⟨body, sup, sub, numerator, denominator, index, radicand⟩⟩ := a
  simp [mapLabels]

theorem mapLabels_putBranch (f : Label → Label) (a : Atom) (slot : Slot)
    (content : Option (List Atom)) : (a.putBranch slot content).mapLabels f =
      (a.mapLabels f).putBranch slot (content.map (List.map (mapLabels f))) := by
  obtain ⟨label, ⟨body, sup, sub, numerator, denominator, index, radicand⟩⟩ := a
  have hbranch (b : Option (List Atom)) :
      mapLabelsOfBranch f b = b.map (List.map (mapLabels f)) := by
    cases b <;> simp [mapLabelsOfBranch, mapLabelsOfList_eq_map]
  cases slot <;> simp [putBranch, Branches.set, mapLabels, hbranch]

theorem eq_of_branch_eq {a b : Atom} (hl : a.label = b.label)
    (hb : ∀ slot, a.branch slot = b.branch slot) : a = b := by
  obtain ⟨l, branches⟩ := a
  obtain ⟨l', branches'⟩ := b
  rw [show l = l' from hl, show branches = branches' from Branches.ext_get hb]

theorem mapLabels_mapLabels (f g : Label → Label) (a : Atom) :
    (a.mapLabels g).mapLabels f = a.mapLabels fun l => f (g l) := by
  induction a using branchInduction with
  | step a ih =>
      refine eq_of_branch_eq (by simp only [label_mapLabels]) fun slot => ?_
      rw [branch_mapLabels, branch_mapLabels, branch_mapLabels, Option.map_map]
      refine Option.map_congr fun atoms hatoms => ?_
      rw [Function.comp_apply, List.map_map]
      exact List.map_congr_left (ih slot atoms hatoms)

/-- A change of marks that is not seen in the changed labels. -/
theorem mapLabels_mapMarks {f : Label → Label} {g : Marks → Marks}
    (h : ∀ l : Label, f { l with marks := g l.marks } = f l) (a : Atom) :
    (a.mapMarks g).mapLabels f = a.mapLabels f := by
  obtain ⟨label, ⟨body, sup, sub, numerator, denominator, index, radicand⟩⟩ := a
  simp only [mapMarks, mapLabel, mapLabels, h]

theorem kind_mapLabels {f : Label → Label} (hf : ∀ l, (f l).kind = l.kind) (a : Atom) :
    (a.mapLabels f).kind = a.kind := by
  simp only [kind, label_mapLabels, hf]

/-- Well-formedness does not depend on labels, apart from the kinds. -/
theorem isWellFormed_mapLabels {f : Label → Label} (hf : ∀ l, (f l).kind = l.kind) (a : Atom) :
    (a.mapLabels f).isWellFormed = true ↔ a.isWellFormed = true := by
  induction a using branchInduction with
  | step a ih =>
    rw [isWellFormed_iff, isWellFormed_iff]
    simp only [kind_mapLabels hf, branch_mapLabels, Option.map_eq_none_iff, Option.map_eq_some_iff]
    refine and_congr_right fun _ => ⟨fun h slot atoms hb => ?_, ?_⟩
    · have hbranch := h slot _ ⟨atoms, hb, rfl⟩
      refine ⟨hbranch.allowed, ?_, ?_, ?_⟩
      · simpa using hbranch.filled
      · intro b hmem
        have := hbranch.admitted _ (List.mem_map_of_mem hmem)
        rwa [kind_mapLabels hf] at this
      · exact fun b hmem =>
          (ih slot atoms hb b hmem).1 (hbranch.wellFormed _ (List.mem_map_of_mem hmem))
    · rintro h slot _ ⟨atoms, hb, rfl⟩
      have hbranch := h slot atoms hb
      refine ⟨hbranch.allowed, ?_, ?_, ?_⟩
      · simpa using hbranch.filled
      · intro b hmem
        obtain ⟨c, hc, rfl⟩ := List.mem_map.1 hmem
        rw [kind_mapLabels hf]
        exact hbranch.admitted c hc
      · intro b hmem
        obtain ⟨c, hc, rfl⟩ := List.mem_map.1 hmem
        exact (ih slot atoms hb c hc).2 (hbranch.wellFormed c hc)

theorem isWellFormed_bare (a : Atom) : a.bare.isWellFormed = true ↔ a.isWellFormed = true :=
  isWellFormed_mapLabels (f := Label.bare) (fun _ => rfl) a

theorem isWellFormed_mapMarks (a : Atom) (f : Marks → Marks) :
    (a.mapMarks f).isWellFormed = true ↔ a.isWellFormed = true := by
  simp only [isWellFormed_iff, branch_mapMarks, kind_mapMarks]

theorem isWellFormed_markError (a : Atom) :
    a.markError.isWellFormed = true ↔ a.isWellFormed = true :=
  isWellFormed_mapMarks a _

/-! ## Branches -/

theorem branch_putBranch (a : Atom) (slot other : Slot) (content : Option (List Atom)) :
    (a.putBranch slot content).branch other = if other = slot then content else a.branch other := by
  by_cases h : other = slot
  · subst h
    simp
  · simp [h]

@[simp] theorem putBranch_branch (a : Atom) (slot : Slot) : a.putBranch slot (a.branch slot) = a := by
  simp [putBranch, branch]

@[simp] theorem putBranch_putBranch (a : Atom) (slot : Slot) (content content' : Option (List Atom)) :
    (a.putBranch slot content).putBranch slot content' = a.putBranch slot content' := by
  simp [putBranch]

theorem branchWellFormed {a : Atom} {slot : Slot} {atoms : List Atom} (h : a.isWellFormed = true)
    (hb : a.branch slot = some atoms) : BranchWellFormed a.kind slot atoms :=
  ((isWellFormed_iff a).1 h).2 slot atoms hb

/-- A branch that the kind does not allow is absent. -/
theorem branch_eq_none {a : Atom} (hw : a.isWellFormed = true) {slot : Slot}
    (h : a.kind.allowsSlot slot = false) : a.branch slot = none := by
  cases hb : a.branch slot with
  | none => rfl
  | some atoms =>
      have hallowed := (branchWellFormed hw hb).allowed
      rw [h] at hallowed
      cases hallowed

theorem hasScripts_eq_false {a : Atom} : a.hasScripts = false ↔
    ∀ slot, slot.isScript = true → a.branch slot = none := by
  simp only [hasScripts, Bool.or_eq_false_iff, Option.isSome_eq_false_iff,
    Option.isNone_iff_eq_none]
  refine ⟨fun h slot hs => ?_, fun h => ⟨h .superscript rfl, h .subscript rfl⟩⟩
  cases slot with
  | superscript => exact h.1
  | subscript => exact h.2
  | _ => cases hs

/-- A branch may be replaced by any other that the kind accepts there. -/
theorem isWellFormed_putBranch {a : Atom} {slot : Slot} {atoms : List Atom}
    (h : a.isWellFormed = true) (hb : BranchWellFormed a.kind slot atoms) :
    (a.putBranch slot (some atoms)).isWellFormed = true := by
  have ha := (isWellFormed_iff a).1 h
  refine (isWellFormed_iff _).2 ⟨fun other hother => ?_, fun other atoms' hother => ?_⟩
  · by_cases hs : other = slot
    · subst hs
      simp at hother
    · rw [branch_putBranch_of_ne a hs] at hother
      exact ha.1 other hother
  · by_cases hs : other = slot
    · subst hs
      rw [branch_putBranch_self, Option.some.injEq] at hother
      exact hother ▸ hb
    · rw [branch_putBranch_of_ne a hs] at hother
      exact ha.2 other atoms' hother

/-- An optional branch may be taken away. -/
theorem isWellFormed_putBranch_none {a : Atom} {slot : Slot} (h : a.isWellFormed = true)
    (hs : slot.isOptional = true) : (a.putBranch slot none).isWellFormed = true := by
  have ha := (isWellFormed_iff a).1 h
  refine (isWellFormed_iff _).2 ⟨fun other hother => ?_, fun other atoms hother => ?_⟩
  · by_cases he : other = slot
    · rw [he]
      exact Kind.hasSlot_of_isOptional hs
    · rw [branch_putBranch_of_ne a he] at hother
      exact ha.1 other hother
  · by_cases he : other = slot
    · subst he
      simp at hother
    · rw [branch_putBranch_of_ne a he] at hother
      exact ha.2 other atoms hother

theorem removeBranch_of_isOptional (a : Atom) {slot : Slot} (hs : slot.isOptional = true) :
    a.removeBranch slot = (a.branch slot, a.putBranch slot none) := by
  simp [removeBranch, hs]

theorem setBranch_nil_of_isOptional (a : Atom) {slot : Slot} (hs : slot.isOptional = true)
    (filler : Nat) : a.setBranch slot [] filler = some (a.putBranch slot none) := by
  simp [setBranch, hs]

theorem kind_setBranch_getD (a : Atom) (slot : Slot) (atoms : List Atom) (filler : Nat) :
    ((a.setBranch slot atoms filler).getD a).kind = a.kind := by
  have hput (allowed : Bool) (content : Option (List Atom)) :
      ((if allowed then some (a.putBranch slot content) else none).getD a).kind = a.kind := by
    cases allowed <;> rfl
  unfold setBranch
  split
  · rfl
  · exact hput _ _

/-- Putting atoms into a branch that the kind allows puts just them. -/
theorem setBranch_of_ne_nil (a : Atom) {slot : Slot} {atoms : List Atom} (hne : atoms ≠ [])
    (hs : slot.isOptional = true) (ha : a.kind.allowsSlot slot = true) (filler : Nat) :
    a.setBranch slot atoms filler = some (a.putBranch slot (some atoms)) := by
  have he : atoms.isEmpty = false := by simpa using hne
  cases slot <;> simp_all [setBranch, Slot.isOptional, Kind.allowsSlot]

end FormulaEditor.Atom

import FormulaEditor.Proofs.Formula.Making

/-!
# Making alike atoms

What is made from alike content is alike, whatever the supply of identities.
-/

namespace FormulaEditor.Atom

theorem bare_node (l : Label)
    (body sup sub numerator denominator index radicand : Option (List Atom)) :
    (node l ⟨body, sup, sub, numerator, denominator, index, radicand⟩).bare =
      node l.bare ⟨body.map (List.map bare), sup.map (List.map bare), sub.map (List.map bare),
        numerator.map (List.map bare), denominator.map (List.map bare), index.map (List.map bare),
        radicand.map (List.map bare)⟩ := by
  have hbranch (b : Option (List Atom)) :
      mapLabelsOfBranch Label.bare b = b.map (List.map bare) := by
    cases b with
    | none => rfl
    | some atoms =>
        rw [mapLabelsOfBranch, mapLabelsOfList_eq_map]
        rfl
  simp only [bare, mapLabels, hbranch]

theorem label_bare (a : Atom) : a.bare.label = a.label.bare :=
  label_mapLabels Label.bare a

theorem branch_bare (a : Atom) (slot : Slot) :
    a.bare.branch slot = (a.branch slot).map (List.map bare) :=
  branch_mapLabels Label.bare a slot

theorem bare_putBranch (a : Atom) (slot : Slot) (content : Option (List Atom)) :
    (a.putBranch slot content).bare = a.bare.putBranch slot (content.map (List.map bare)) :=
  mapLabels_putBranch Label.bare a slot content

theorem bare_placeholder (id : Nat) : (placeholder id).bare = placeholder 0 := rfl

theorem bare_mapMarks (a : Atom) (f : Marks → Marks) : (a.mapMarks f).bare = a.bare :=
  mapLabels_mapMarks (fun _ => rfl) a

theorem bare_markError (a : Atom) : a.markError.bare = a.bare :=
  bare_mapMarks a _

/-- Labels may change in what is erased from them. -/
theorem bare_mapLabels {f : Label → Label} (hf : ∀ l, (f l).bare = l.bare) (a : Atom) :
    (a.mapLabels f).bare = a.bare := by
  rw [bare, mapLabels_mapLabels, funext hf]
  rfl

theorem bare_withGlyph (a : Atom) (glyph : Option Char) :
    (a.withGlyph glyph).bare = a.bare.withGlyph glyph := by
  obtain ⟨l, ⟨body, sup, sub, numerator, denominator, index, radicand⟩⟩ := a
  simp only [withGlyph, mapLabel, bare_node]
  rfl

variable {a b : Atom} {as bs : List Atom}

theorem label_bare_of_bare_eq (h : a.bare = b.bare) : a.label.bare = b.label.bare := by
  rw [← label_bare, h, label_bare]

theorem kind_of_bare_eq (h : a.bare = b.bare) : a.kind = b.kind :=
  (bare_label_iff.1 (label_bare_of_bare_eq h)).1

theorem value_of_bare_eq (h : a.bare = b.bare) : a.value = b.value :=
  (bare_label_iff.1 (label_bare_of_bare_eq h)).2.1

theorem branch_of_bare_eq (h : a.bare = b.bare) (slot : Slot) :
    (a.branch slot).map (List.map bare) = (b.branch slot).map (List.map bare) := by
  rw [← branch_bare, h, branch_bare]

theorem body_of_bare_eq (h : a.bare = b.bare) : a.body.map bare = b.body.map bare := by
  have hbody := branch_of_bare_eq h .body
  unfold body
  cases ha : a.branch .body <;> cases hb : b.branch .body <;> simp_all

theorem isSome_branch_of_bare_eq (h : a.bare = b.bare) (slot : Slot) :
    (a.branch slot).isSome = (b.branch slot).isSome := by
  rw [← Option.isSome_map, branch_of_bare_eq h slot, Option.isSome_map]

theorem isBareGroup_of_bare_eq (h : a.bare = b.bare) : a.isBareGroup = b.isBareGroup := by
  simp only [isBareGroup, hasScripts, kind_of_bare_eq h, isSome_branch_of_bare_eq h]

theorem nil_of_map_bare_eq (h : as.map bare = bs.map bare) : as = [] ↔ bs = [] := by
  rw [← List.map_eq_nil_iff (f := bare), h, List.map_eq_nil_iff]

/-! ## New atoms -/

theorem filled_of_ne_nil (h : as ≠ []) (n : Nat) : filled as n = (as, n) := by
  cases as with
  | nil => exact absurd rfl h
  | cons a as => rfl

theorem newFraction_of_ne_nil (value : String) {ds : List Atom} (h : as ≠ []) (h' : ds ≠ []) (n : Nat) :
    (newFraction value as ds n).1 = node ⟨n, .fraction, some value, none, Marks.none⟩
      { Branches.none with numerator := some as, denominator := some ds } := by
  simp only [newFraction, Minting.bind_apply, filled_of_ne_nil h, filled_of_ne_nil h',
    newIdentity_apply, Minting.pure_apply]

theorem newRadical_of_ne_nil (h : as ≠ []) (index : Option (List Atom)) (n : Nat) :
    (newRadical as index n).1 = node ⟨n, .radical, some radicalCommand, none, Marks.none⟩
      { Branches.none with
        index := index.filter fun atoms => !atoms.isEmpty, radicand := some as } := by
  simp only [newRadical, Minting.bind_apply, filled_of_ne_nil h, newIdentity_apply,
    Minting.pure_apply]

theorem newWrapper_of_ne_nil {kind : Kind} (hk : kind.shape = .sequence) (value : Option String)
    (h : kind.requiresBody = true → as ≠ []) (n : Nat) :
    (newWrapper kind value as n).1 =
      node ⟨n, kind, value, none, Marks.none⟩ { Branches.none with body := some as } := by
  have hbody : wrapperBody kind as n = (as, n) := by
    unfold wrapperBody
    split
    · rename_i hr
      exact filled_of_ne_nil (h hr) n
    · rfl
  rw [newWrapper_apply hk, hbody]

/-- The sequence itself, or a placeholder in place of an empty one. -/
def fill (atoms : List Atom) : List Atom :=
  (filled atoms 0).1

theorem fill_ne_nil (atoms : List Atom) : fill atoms ≠ [] :=
  filled_ne_nil atoms 0

theorem fill_of_ne_nil (h : as ≠ []) : fill as = as :=
  congrArg Prod.fst (filled_of_ne_nil h 0)

theorem fill_fill (atoms : List Atom) : fill (fill atoms) = fill atoms :=
  fill_of_ne_nil (fill_ne_nil atoms)

theorem map_bare_filled (atoms : List Atom) (n : Nat) :
    (filled atoms n).1.map bare = (fill atoms).map bare := by
  cases atoms <;> rfl

theorem map_bare_fill (h : as.map bare = bs.map bare) : (fill as).map bare = (fill bs).map bare := by
  by_cases hs : as = []
  · rw [hs, (nil_of_map_bare_eq h).1 hs]
  · have hs' : bs ≠ [] := fun hb => hs ((nil_of_map_bare_eq h).2 hb)
    rw [fill_of_ne_nil hs, fill_of_ne_nil hs', h]

/-- The body of an atom made from a sequence: it is filled if it may not be empty. -/
def fillFor (kind : Kind) (atoms : List Atom) : List Atom :=
  if kind.requiresBody then fill atoms else atoms

theorem bare_newWrapper {kind : Kind} (hk : kind.shape = .sequence) (value : Option String)
    (h : (fillFor kind as).map bare = (fillFor kind bs).map bare) (n n' : Nat) :
    (newWrapper kind value as n).1.bare = (newWrapper kind value bs n').1.bare := by
  have hbody (atoms : List Atom) (n : Nat) :
      (wrapperBody kind atoms n).1.map bare = (fillFor kind atoms).map bare := by
    unfold wrapperBody fillFor
    split
    · exact map_bare_filled atoms n
    · rfl
  rw [newWrapper_apply hk, newWrapper_apply hk]
  simp only [Branches.none, bare_node, Option.map_some, Option.map_none, hbody, h]
  rfl

theorem bare_newGroup (h : as.map bare = bs.map bare) (n n' : Nat) :
    (newWrapper .group none as n).1.bare = (newWrapper .group none bs n').1.bare :=
  bare_newWrapper (rfl : Kind.shape .group = .sequence) none h n n'

theorem bare_newFraction (value : String) {ds es : List Atom}
    (h : (fill as).map bare = (fill bs).map bare) (h' : (fill ds).map bare = (fill es).map bare)
    (n n' : Nat) :
    (newFraction value as ds n).1.bare = (newFraction value bs es n').1.bare := by
  simp only [newFraction, Minting.bind_apply, Minting.pure_apply, newIdentity_apply, Branches.none,
    bare_node, Option.map_some, Option.map_none, map_bare_filled, h, h']
  rfl

/-- The index of a radical, if it is not empty. -/
def nonemptyIndex (index : Option (List Atom)) : Option (List Atom) :=
  index.filter fun atoms => !atoms.isEmpty

theorem map_bare_nonemptyIndex {index index' : Option (List Atom)}
    (h : index.map (List.map bare) = index'.map (List.map bare)) :
    (nonemptyIndex index).map (List.map bare) = (nonemptyIndex index').map (List.map bare) := by
  cases index <;> cases index' <;> simp_all [nonemptyIndex, Option.filter]
  rename_i is js
  have hempty : is = [] ↔ js = [] := nil_of_map_bare_eq h
  by_cases hs : is = [] <;> simp_all

theorem bare_newRadical {index index' : Option (List Atom)}
    (h : (fill as).map bare = (fill bs).map bare)
    (hi : (nonemptyIndex index).map (List.map bare) = (nonemptyIndex index').map (List.map bare))
    (n n' : Nat) :
    (newRadical as index n).1.bare = (newRadical bs index' n').1.bare := by
  unfold nonemptyIndex at hi
  simp only [newRadical, Minting.bind_apply, Minting.pure_apply, newIdentity_apply, Branches.none,
    bare_node, Option.map_some, Option.map_none, map_bare_filled, h, hi]
  rfl

end FormulaEditor.Atom

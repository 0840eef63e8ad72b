import FormulaEditor.Proofs.Formula.Edits

/-!
# Making atoms

What is made from well-formed branches is well formed, whatever the supply of identities.
-/

namespace FormulaEditor

namespace Minting

variable {α β : Type}

@[simp] theorem bind_apply (m : Minting α) (f : α → Minting β) (supply : Nat) :
    (m >>= f) supply = f (m supply).1 (m supply).2 := rfl

@[simp] theorem pure_apply (a : α) (supply : Nat) : (pure a : Minting α) supply = (a, supply) := rfl

@[simp] theorem mapM_nil_apply (f : α → Minting β) (supply : Nat) :
    ([].mapM f : Minting (List β)) supply = ([], supply) := rfl

@[simp] theorem mapM_cons_apply (f : α → Minting β) (a : α) (rest : List α) (supply : Nat) :
    ((a :: rest).mapM f : Minting (List β)) supply =
      ((f a supply).1 :: (rest.mapM f (f a supply).2).1, (rest.mapM f (f a supply).2).2) := by
  rw [List.mapM_cons]
  rfl

/-- What is made from each element of a list. -/
theorem forall_mapM {f : α → Minting β} {Q : β → Prop} {as : List α}
    (h : ∀ a ∈ as, ∀ n, Q (f a n).1) (supply : Nat) : ∀ b ∈ (as.mapM f supply).1, Q b := by
  induction as generalizing supply with
  | nil => simp
  | cons a rest ih =>
      intro b hb
      rw [mapM_cons_apply] at hb
      rcases List.mem_cons.1 hb with rfl | hb
      · exact h a List.mem_cons_self supply
      · exact ih (fun a ha => h a (List.mem_cons_of_mem _ ha)) _ b hb

theorem length_mapM (f : α → Minting β) (as : List α) (supply : Nat) :
    (as.mapM f supply).1.length = as.length := by
  induction as generalizing supply with
  | nil => rfl
  | cons a rest ih => simp [ih]

end Minting

@[simp] theorem newIdentity_apply (supply : Nat) : newIdentity supply = (supply, supply + 1) := rfl

namespace Atom

@[simp] theorem kind_leaf (id : Nat) (kind : Kind) (value : Option String) (glyph : Option Char) :
    (leaf id kind value glyph).kind = kind := rfl

@[simp] theorem branch_leaf (id : Nat) (kind : Kind) (value : Option String) (glyph : Option Char)
    (slot : Slot) : (leaf id kind value glyph).branch slot = none := by
  simp [leaf, branch]

@[simp] theorem newLeaf_apply (kind : Kind) (value : Option String) (glyph : Option Char)
    (supply : Nat) : newLeaf kind value glyph supply = (leaf supply kind value glyph, supply + 1) :=
  rfl

@[simp] theorem newPlaceholder_apply (supply : Nat) :
    newPlaceholder supply = (placeholder supply, supply + 1) := rfl

@[simp] theorem filled_nil_apply (supply : Nat) :
    filled [] supply = ([placeholder supply], supply + 1) := rfl

/-! ## Copies -/

mutual

/-- A copy with new identities differs in nothing but these. -/
theorem mapLabels_relabel {f : Label → Label} (hf : ∀ l n, f { l with id := n } = f l) :
    (a : Atom) → (supply : Nat) → (relabel a supply).1.mapLabels f = a.mapLabels f
  | node label ⟨body, sup, sub, numerator, denominator, index, radicand⟩, supply => by
      simp only [relabel, Minting.bind_apply, Minting.pure_apply, mapLabels, hf,
        mapLabels_relabelBranch hf]

theorem mapLabels_relabelBranch {f : Label → Label} (hf : ∀ l n, f { l with id := n } = f l) :
    (b : Option (List Atom)) → (supply : Nat) →
    mapLabelsOfBranch f (relabelBranch b supply).1 = mapLabelsOfBranch f b
  | none, _ => rfl
  | some atoms, supply => by
      simp only [relabelBranch, Minting.bind_apply, Minting.pure_apply, mapLabelsOfBranch,
        mapLabels_relabelList hf]

theorem mapLabels_relabelList {f : Label → Label} (hf : ∀ l n, f { l with id := n } = f l) :
    (atoms : List Atom) → (supply : Nat) →
    mapLabelsOfList f (relabelList atoms supply).1 = mapLabelsOfList f atoms
  | [], _ => rfl
  | a :: rest, supply => by
      have ha := mapLabels_relabel hf a supply
      have hrest := mapLabels_relabelList hf rest (relabel a supply).2
      simp only [relabelList, Minting.bind_apply, Minting.pure_apply, mapLabelsOfList, ha, hrest]

end

/-- A copy with new identities is alike. -/
theorem bare_relabelList (atoms : List Atom) (supply : Nat) :
    mapLabelsOfList Label.bare (relabelList atoms supply).1 = mapLabelsOfList Label.bare atoms :=
  mapLabels_relabelList (fun _ _ => rfl) atoms supply

theorem isWellFormed_of_bare_eq {a b : Atom} (h : a.bare = b.bare) (hb : b.isWellFormed = true) :
    a.isWellFormed = true :=
  (isWellFormed_bare a).1 (h ▸ (isWellFormed_bare b).2 hb)

theorem isWellFormed_relabelList {atoms : List Atom} (h : ∀ a ∈ atoms, a.isWellFormed = true)
    (supply : Nat) : ∀ a ∈ (relabelList atoms supply).1, a.isWellFormed = true := by
  intro a hmem
  have hbare := bare_relabelList atoms supply
  simp only [mapLabelsOfList_eq_map] at hbare
  have hmem' := List.mem_map_of_mem (f := mapLabels Label.bare) hmem
  rw [hbare] at hmem'
  obtain ⟨b, hb, he⟩ := List.mem_map.1 hmem'
  exact isWellFormed_of_bare_eq he.symm (h b hb)

/-! ## New atoms -/

theorem isWellFormed_leaf {kind : Kind} (h : kind.shape = .leaf) (id : Nat) (value : Option String)
    (glyph : Option Char) : (leaf id kind value glyph).isWellFormed = true := by
  refine (isWellFormed_iff _).2 ⟨fun slot _ => ?_, fun slot atoms hb => ?_⟩
  · cases slot <;> simp [Kind.hasSlot, h]
  · simp at hb

@[simp] theorem kind_placeholder (id : Nat) : (placeholder id).kind = .placeholder := rfl

@[simp] theorem branch_placeholder (id : Nat) (slot : Slot) :
    (placeholder id).branch slot = none :=
  branch_leaf id .placeholder none none slot

theorem isWellFormed_placeholder (id : Nat) : (placeholder id).isWellFormed = true :=
  isWellFormed_leaf rfl id none none

theorem filled_ne_nil (atoms : List Atom) (supply : Nat) : (filled atoms supply).1 ≠ [] := by
  cases atoms <;> simp [filled]

theorem isWellFormed_filled {atoms : List Atom} (h : ∀ a ∈ atoms, a.isWellFormed = true)
    (supply : Nat) : ∀ a ∈ (filled atoms supply).1, a.isWellFormed = true := by
  cases atoms with
  | nil => simpa using isWellFormed_placeholder supply
  | cons a rest => simpa [filled] using h

@[simp] theorem kind_newFraction (value : String) (n d : List Atom) (supply : Nat) :
    (newFraction value n d supply).1.kind = .fraction := rfl

theorem isWellFormed_newFraction {numerator denominator : List Atom}
    (hn : ∀ a ∈ numerator, a.isWellFormed = true) (hd : ∀ a ∈ denominator, a.isWellFormed = true)
    (value : String) (supply : Nat) :
    (newFraction value numerator denominator supply).1.isWellFormed = true := by
  refine (isWellFormed_iff _).2 ⟨fun slot hb => ?_, fun slot atoms hb => ?_⟩
  · cases slot <;> first | rfl | cases hb
  · cases slot <;> cases hb
    · exact ⟨rfl, fun _ => filled_ne_nil _ _, fun _ _ => rfl, isWellFormed_filled hn _⟩
    · exact ⟨rfl, fun _ => filled_ne_nil _ _, fun _ _ => rfl, isWellFormed_filled hd _⟩

theorem isWellFormed_newRadical {radicand : List Atom} {index : Option (List Atom)}
    (hr : ∀ a ∈ radicand, a.isWellFormed = true)
    (hi : ∀ atoms, index = some atoms → ∀ a ∈ atoms, a.isWellFormed = true) (supply : Nat) :
    (newRadical radicand index supply).1.isWellFormed = true := by
  refine (isWellFormed_iff _).2 ⟨fun slot hb => ?_, fun slot atoms hb => ?_⟩
  · cases slot <;> first | rfl | cases hb
  · cases slot with
    | index =>
        obtain ⟨h, hne⟩ := Option.filter_eq_some_iff.1 hb
        exact ⟨rfl, fun _ => by simpa using hne, fun _ _ => rfl, hi atoms h⟩
    | radicand =>
        cases hb
        exact ⟨rfl, fun _ => filled_ne_nil _ _, fun _ _ => rfl, isWellFormed_filled hr _⟩
    | _ => cases hb

@[simp] theorem kind_newWrapper (kind : Kind) (value : Option String) (body : List Atom)
    (supply : Nat) : (newWrapper kind value body supply).1.kind = kind := by
  cases kind <;> rfl

/-- The body of a new wrapper: the given sequence, filled if it may not be empty. -/
def wrapperBody (kind : Kind) (body : List Atom) : Minting (List Atom) :=
  if kind.requiresBody then filled body else pure body

theorem newWrapper_apply {kind : Kind} (h : kind.shape = .sequence) (value : Option String)
    (body : List Atom) (supply : Nat) :
    (newWrapper kind value body supply).1 =
      node ⟨(wrapperBody kind body supply).2, kind, value, none, Marks.none⟩
        { Branches.none with body := some (wrapperBody kind body supply).1 } := by
  cases kind <;> first | rfl | cases h

theorem isWellFormed_newWrapper {kind : Kind} {body : List Atom} (hs : kind.shape = .sequence)
    (hk : ∀ a ∈ body, kind.admits .body a.kind = true) (h : ∀ a ∈ body, a.isWellFormed = true)
    (value : Option String) (supply : Nat) :
    (newWrapper kind value body supply).1.isWellFormed = true := by
  rw [newWrapper_apply hs]
  refine (isWellFormed_iff _).2 ⟨fun slot hb => ?_, fun slot atoms hb => ?_⟩
  · cases slot with
    | body => cases hb
    | _ => simp [Kind.hasSlot, kind_node, hs]
  · cases slot <;> cases hb
    refine ⟨by simp [Kind.allowsSlot, Kind.hasSlot, kind_node, hs], ?_, ?_, ?_⟩
    · intro hf
      replace hf : kind.requiresBody = true := hf
      simpa [wrapperBody, hf] using filled_ne_nil body supply
    · unfold wrapperBody
      split
      · rename_i hr
        intro a _
        cases kind <;> simp_all [Kind.requiresBody, Kind.admits]
      · exact hk
    · unfold wrapperBody
      split
      · exact isWellFormed_filled h supply
      · exact h

end Atom

end FormulaEditor

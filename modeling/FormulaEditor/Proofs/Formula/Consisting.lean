import FormulaEditor.Formula.Placeholders
import FormulaEditor.Proofs.Formula.Alike
import FormulaEditor.Proofs.Formula.Location

/-!
# What a formula consists of

A property of labels that all atoms of a formula have is kept by every edit that only moves atoms
about, and so is it that no grid is empty and that rows and cells stand in grids only. An edit in a
branch that is no body of a grid is judged by the atoms that it puts there.
-/

namespace FormulaEditor

/-- Whether an atom of the kind can stand in a sequence. The top of a formula and the parts of a grid
cannot. -/
def Kind.isItem : Kind → Bool
  | root | row | cell => false
  | _ => true

/-- A property of labels that placeholders have. -/
structure Label.Lasting (P : Label → Prop) : Prop where
  placeholder : ∀ n, P (Atom.placeholder n).label

/-- A property that depends on neither identities nor marks. -/
structure Label.Unmarked (P : Label → Prop) : Prop extends Label.Lasting P where
  of_bare_eq : ∀ {l l' : Label}, l.bare = l'.bare → P l → P l'

theorem Label.Unmarked.bare_iff {P : Label → Prop} (hP : Label.Unmarked P) (l : Label) :
    P l.bare ↔ P l :=
  ⟨hP.of_bare_eq rfl, hP.of_bare_eq rfl⟩

namespace Atom

/-- Whether a sequence can be a branch of an atom of some kind: a grid has parts, and everything else
has items. -/
def fitsBranch (kind : Kind) (slot : Slot) (atoms : List Atom) : Bool :=
  if isGridBody kind slot then !atoms.isEmpty else atoms.all fun a => a.kind.isItem

/-- Every label in the formula has the property `P`, and every branch fits. -/
def ConsistsOf (P : Label → Prop) (a : Atom) : Prop :=
  ∀ b ∈ a.subatoms, P b.label ∧
    ∀ slot atoms, b.branch slot = some atoms → fitsBranch b.kind slot atoms = true

/-- Items of a sequence that consist of labels with the property `P`. -/
def Items (P : Label → Prop) (atoms : List Atom) : Prop :=
  ∀ a ∈ atoms, a.kind.isItem = true ∧ a.ConsistsOf P

variable {P : Label → Prop} {a b : Atom} {slot : Slot} {atoms bs content : List Atom}

theorem consistsOf_iff (a : Atom) :
    a.ConsistsOf P ↔ P a.label ∧ ∀ slot atoms, a.branch slot = some atoms →
      fitsBranch a.kind slot atoms = true ∧ ∀ b ∈ atoms, b.ConsistsOf P := by
  unfold ConsistsOf
  rw [subatoms_eq, subatomsOfList_eq_flatMap, List.forall_mem_cons]
  simp only [List.mem_flatMap]
  constructor
  · rintro ⟨⟨hl, hfits⟩, hbelow⟩
    exact ⟨hl, fun slot atoms hb => ⟨hfits slot atoms hb, fun b hmem c hc =>
      hbelow c ⟨b, mem_children.2 ⟨slot, atoms, hb, hmem⟩, hc⟩⟩⟩
  · rintro ⟨hl, hbranches⟩
    refine ⟨⟨hl, fun slot atoms hb => (hbranches slot atoms hb).1⟩, ?_⟩
    rintro c ⟨b, hmem, hc⟩
    obtain ⟨slot, atoms, hb, hmem⟩ := mem_children.1 hmem
    exact (hbranches slot atoms hb).2 b hmem c hc

theorem ConsistsOf.label (h : a.ConsistsOf P) : P a.label :=
  ((consistsOf_iff a).1 h).1

theorem ConsistsOf.branch (h : a.ConsistsOf P) (hb : a.branch slot = some atoms) :
    fitsBranch a.kind slot atoms = true ∧ ∀ b ∈ atoms, b.ConsistsOf P :=
  ((consistsOf_iff a).1 h).2 slot atoms hb

theorem consistsOf_of_items (hg : isGridBody a.kind slot = false)
    (hc : fitsBranch a.kind slot atoms = true ∧ ∀ b ∈ atoms, b.ConsistsOf P) : Items P atoms := by
  obtain ⟨hfits, hall⟩ := hc
  rw [fitsBranch, hg] at hfits
  exact fun b hmem => ⟨List.all_eq_true.1 hfits b hmem, hall b hmem⟩

/-- Outside of grids a branch holds items. -/
theorem ConsistsOf.items (h : a.ConsistsOf P) (hb : a.branch slot = some atoms)
    (hg : isGridBody a.kind slot = false) : Items P atoms :=
  consistsOf_of_items hg (h.branch hb)

theorem Items.fits (h : Items P atoms) {kind : Kind} (hg : isGridBody kind slot = false) :
    fitsBranch kind slot atoms = true ∧ ∀ b ∈ atoms, b.ConsistsOf P := by
  rw [fitsBranch, hg]
  exact ⟨List.all_eq_true.2 fun b hmem => (h b hmem).1, fun b hmem => (h b hmem).2⟩

/-! ## Sequences -/

theorem items_nil : Items P [] :=
  fun _ ha => nomatch ha

theorem items_append (h : Items P atoms) (h' : Items P bs) : Items P (atoms ++ bs) :=
  List.forall_mem_append.2 ⟨h, h'⟩

theorem Items.of_subset (h : Items P atoms) (hs : ∀ b ∈ bs, b ∈ atoms) : Items P bs :=
  fun b hb => h b (hs b hb)

theorem items_singleton (hk : a.kind.isItem = true) (h : a.ConsistsOf P) : Items P [a] := by
  intro b hb
  rw [List.mem_singleton.1 hb]
  exact ⟨hk, h⟩

theorem consistsOf_leaf (id : Nat) (kind : Kind) (value : Option String) (glyph : Option Char)
    (h : P (leaf id kind value glyph).label) : (leaf id kind value glyph).ConsistsOf P :=
  (consistsOf_iff _).2 ⟨h, fun _ _ hb => by simp at hb⟩

theorem items_placeholder (hP : Label.Lasting P) (n : Nat) : Items P [placeholder n] :=
  items_singleton rfl (consistsOf_leaf n .placeholder none none (hP.placeholder n))

/-! ## New atoms -/

theorem items_filled (hP : Label.Lasting P) (h : Items P atoms) (n : Nat) :
    Items P (filled atoms n).1 := by
  cases atoms with
  | nil => exact items_placeholder hP n
  | cons a rest => exact h

section

variable {kind : Kind} {value : Option String}

theorem consistsOf_newWrapper (hs : kind.shape = .sequence)
    (hl : ∀ n, P ⟨n, kind, value, none, Marks.none⟩) {n : Nat}
    (hc : fitsBranch kind .body (wrapperBody kind content n).1 = true ∧
      ∀ b ∈ (wrapperBody kind content n).1, b.ConsistsOf P) :
    (newWrapper kind value content n).1.ConsistsOf P := by
  rw [newWrapper_apply hs]
  refine (consistsOf_iff _).2 ⟨hl _, fun slot atoms hb => ?_⟩
  cases slot <;> cases hb
  exact hc

theorem consistsOf_newWrapper_items (hP : Label.Lasting P) (hs : kind.shape = .sequence)
    (hg : kind.isGrid = false) (hl : ∀ n, P ⟨n, kind, value, none, Marks.none⟩)
    (hc : Items P content) (n : Nat) : (newWrapper kind value content n).1.ConsistsOf P := by
  have hbody : Items P (wrapperBody kind content n).1 := by
    unfold wrapperBody
    split
    · exact items_filled hP hc n
    · exact hc
  exact consistsOf_newWrapper hs hl (hbody.fits (by simp [isGridBody, hg]))

/-- A grid is made from parts, of which there is at least one. -/
theorem consistsOf_newWrapper_grid (hs : kind.shape = .sequence) (hg : kind.isGrid = true)
    (hl : ∀ n, P ⟨n, kind, value, none, Marks.none⟩) (hne : content ≠ [])
    (hc : ∀ b ∈ content, b.ConsistsOf P) (n : Nat) :
    (newWrapper kind value content n).1.ConsistsOf P := by
  have hbody : (wrapperBody kind content n).1 = content := by
    cases kind <;> first | rfl | cases hg
  refine consistsOf_newWrapper hs hl (hbody.symm ▸ ⟨?_, hc⟩)
  simp [fitsBranch, isGridBody, hg, hne]

end

theorem consistsOf_newFraction (hP : Label.Lasting P) {value : String} {num den : List Atom}
    (hl : ∀ n, P ⟨n, .fraction, some value, none, Marks.none⟩) (hn : Items P num) (hd : Items P den)
    (n : Nat) : (newFraction value num den n).1.ConsistsOf P := by
  refine (consistsOf_iff _).2 ⟨hl _, fun slot atoms hb => ?_⟩
  cases slot <;> cases hb
  · exact (items_filled hP hn _).fits rfl
  · exact (items_filled hP hd _).fits rfl

theorem consistsOf_newRadical (hP : Label.Lasting P) {radicand : List Atom}
    {index : Option (List Atom)}
    (hl : ∀ n, P ⟨n, .radical, some radicalCommand, none, Marks.none⟩) (hr : Items P radicand)
    (hi : ∀ atoms, index = some atoms → Items P atoms) (n : Nat) :
    (newRadical radicand index n).1.ConsistsOf P := by
  refine (consistsOf_iff _).2 ⟨hl _, fun slot atoms hb => ?_⟩
  cases slot with
  | index => exact (hi atoms (Option.filter_eq_some_iff.1 hb).1).fits rfl
  | radicand =>
      cases hb
      exact (items_filled hP hr _).fits rfl
  | _ => cases hb

/-! ## Changed labels -/

section

variable {f : Label → Label} (hk : ∀ l : Label, (f l).kind = l.kind)

include hk

theorem fitsBranch_map_mapLabels (k : Kind) (slot : Slot) (atoms : List Atom) :
    fitsBranch k slot (atoms.map (mapLabels f)) = fitsBranch k slot atoms := by
  simp only [fitsBranch, List.isEmpty_map, List.all_map, Function.comp_def, kind_mapLabels hk]

/-- A formula with changed labels consists of the changed labels. -/
theorem consistsOf_mapLabels (a : Atom) :
    (a.mapLabels f).ConsistsOf P ↔ a.ConsistsOf fun l => P (f l) := by
  induction a using branchInduction with
  | step a ih =>
      simp only [consistsOf_iff (a.mapLabels f), consistsOf_iff a, label_mapLabels, kind_mapLabels hk,
        branch_mapLabels, Option.map_eq_some_iff]
      refine and_congr_right fun _ => forall_congr' fun slot => ?_
      constructor
      · rintro h atoms hb
        obtain ⟨hfits, hall⟩ := h _ ⟨atoms, hb, rfl⟩
        rw [fitsBranch_map_mapLabels hk] at hfits
        exact ⟨hfits, fun b hmem => (ih slot atoms hb b hmem).1 (hall _ (List.mem_map_of_mem hmem))⟩
      · rintro h _ ⟨atoms, hb, rfl⟩
        obtain ⟨hfits, hall⟩ := h atoms hb
        refine ⟨(fitsBranch_map_mapLabels hk ..).trans hfits, List.forall_mem_map.2 fun b hmem => ?_⟩
        exact (ih slot atoms hb b hmem).2 (hall b hmem)

/-- What a property does not depend on may differ. -/
theorem ConsistsOf.of_mapLabels_eq (hP : ∀ l, P (f l) ↔ P l) (h : a.ConsistsOf P)
    (heq : a.mapLabels f = b.mapLabels f) : b.ConsistsOf P := by
  have hiff (c : Atom) : (c.mapLabels f).ConsistsOf P ↔ c.ConsistsOf P := by
    rw [consistsOf_mapLabels hk]
    simp only [hP]
  rw [← hiff, ← heq, hiff]
  exact h

theorem Items.of_mapLabels_eq (hP : ∀ l, P (f l) ↔ P l) (h : Items P atoms)
    (heq : atoms.map (mapLabels f) = bs.map (mapLabels f)) : Items P bs := by
  intro b hb
  obtain ⟨a, ha, hab⟩ := List.mem_map.1 (heq ▸ List.mem_map_of_mem hb)
  refine ⟨?_, (h a ha).2.of_mapLabels_eq hk hP hab⟩
  rw [← kind_mapLabels hk b, ← hab, kind_mapLabels hk]
  exact (h a ha).1

end

/-- Alike formulas consist of the same. -/
theorem ConsistsOf.of_bare_eq (hP : Label.Unmarked P) (h : a.ConsistsOf P) (heq : a.bare = b.bare) :
    b.ConsistsOf P :=
  h.of_mapLabels_eq (f := Label.bare) (fun _ => rfl) hP.bare_iff heq

theorem Items.of_map_bare_eq (hP : Label.Unmarked P) (h : Items P atoms)
    (heq : atoms.map bare = bs.map bare) : Items P bs :=
  h.of_mapLabels_eq (f := Label.bare) (fun _ => rfl) hP.bare_iff heq

/-! ## Changed branches -/

theorem ConsistsOf.putBranch (h : a.ConsistsOf P)
    (hc : fitsBranch a.kind slot content = true ∧ ∀ b ∈ content, b.ConsistsOf P) :
    (a.putBranch slot (some content)).ConsistsOf P := by
  refine (consistsOf_iff _).2 ⟨h.label, fun other atoms hb => ?_⟩
  by_cases heq : other = slot
  · subst heq
    rw [branch_putBranch_self, Option.some.injEq] at hb
    exact hb ▸ hc
  · rw [branch_putBranch_of_ne a heq] at hb
    exact h.branch hb

theorem ConsistsOf.putBranch_none (h : a.ConsistsOf P) (slot : Slot) :
    (a.putBranch slot none).ConsistsOf P := by
  refine (consistsOf_iff _).2 ⟨h.label, fun other atoms hb => ?_⟩
  by_cases heq : other = slot
  · rw [heq, branch_putBranch_self] at hb
    cases hb
  · rw [branch_putBranch_of_ne a heq] at hb
    exact h.branch hb

theorem forall_mem_set {Q : Atom → Prop} {i : Nat} {c : Atom} (h : ∀ b ∈ atoms, Q b) (hc : Q c) :
    ∀ b ∈ atoms.set i c, Q b := fun b hb =>
  (List.mem_or_eq_of_mem_set hb).elim (h b) fun heq => heq ▸ hc

theorem fitsBranch_set {kind : Kind} {i : Nat} {child c : Atom} (h : fitsBranch kind slot atoms = true)
    (hc : atoms[i]? = some child) (hk : c.kind = child.kind) :
    fitsBranch kind slot (atoms.set i c) = true := by
  have hmem := List.mem_of_getElem? hc
  unfold fitsBranch at h ⊢
  by_cases hg : isGridBody kind slot = true
  · simp_all
  · rw [if_neg hg] at h ⊢
    have hall := List.all_eq_true.1 h
    exact List.all_eq_true.2 (forall_mem_set hall (hk ▸ hall child hmem))

theorem ConsistsOf.descend? {steps : List Step} (h : a.ConsistsOf P)
    (hd : a.descend? steps = some b) : b.ConsistsOf P :=
  of_descend? (fun h hb => (h.branch hb).2) h hd

theorem ConsistsOf.modifyAt? {a' : Atom} {steps : List Step} {f : Atom → Atom} (h : a.ConsistsOf P)
    (hd : a.descend? steps = some b) (hk : (f b).kind = b.kind) (hf : (f b).ConsistsOf P)
    (hm : a.modifyAt? f steps = some a') : a'.ConsistsOf P ∧ a'.kind = a.kind := by
  refine of_modifyAt? (fun h hb => (h.branch hb).2) (fun h hb hc hk hchild => ?_) h hd hk hf hm
  obtain ⟨hfits, hall⟩ := h.branch hb
  exact h.putBranch ⟨fitsBranch_set hfits hc hk, forall_mem_set hall hchild⟩

end Atom

open Atom (ConsistsOf Items)

variable {P : Label → Prop} {root owner : Atom} {q : Path} {slot : Slot} {atoms content : List Atom}

theorem IsBranch.items (hb : IsBranch root q slot owner atoms) (h : root.ConsistsOf P) :
    Items P atoms :=
  (h.descend? hb.atom?_eq).items hb.branch_eq hb.not_grid

/-- Filling a branch that is no body of a grid keeps what a formula consists of. -/
theorem IsBranch.consistsOf_fill (hb : IsBranch root q slot owner atoms) (h : root.ConsistsOf P)
    (hc : Items P content) : (q.fill slot content root).ConsistsOf P :=
  (h.modifyAt? hb.atom?_eq rfl ((h.descend? hb.atom?_eq).putBranch (hc.fits hb.not_grid))
    (Path.modifyAtom?_eq_some hb.atom?_eq _)).1

end FormulaEditor

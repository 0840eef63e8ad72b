import FormulaEditor.Editor.Insertion
import FormulaEditor.Proofs.Editor.Deleting
import FormulaEditor.Proofs.Editor.Selecting
import FormulaEditor.Proofs.Latex.WellFormed

/-!
# Insertion keeps an editor sound

An insertion opens the branch of the caret: the selection or what stands before the caret is taken
out, and what was read takes its place. The branch is settled if there is nothing to insert.
-/

namespace FormulaEditor

/-! ## Placeholders among inserted atoms -/

mutual

theorem atom?_of_mem_positions {root : Atom} : (a : Atom) → {p : Path} → p.atom? root = some a →
    ∀ x ∈ a.positions p, x.1.atom? root = some x.2
  | .node label ⟨body, sup, sub, numerator, denominator, index, radicand⟩, p, ha, x, hx => by
      simp only [Atom.positions, List.mem_cons, List.mem_append] at hx
      rcases hx with rfl | ((((((hx | hx) | hx) | hx) | hx) | hx) | hx)
      · exact ha
      · exact atom?_of_mem_branchPositions body ha rfl x hx
      · exact atom?_of_mem_branchPositions sup ha rfl x hx
      · exact atom?_of_mem_branchPositions sub ha rfl x hx
      · exact atom?_of_mem_branchPositions numerator ha rfl x hx
      · exact atom?_of_mem_branchPositions denominator ha rfl x hx
      · exact atom?_of_mem_branchPositions index ha rfl x hx
      · exact atom?_of_mem_branchPositions radicand ha rfl x hx

theorem atom?_of_mem_branchPositions {root : Atom} : (b : Option (List Atom)) → {p : Path} →
    {owner : Atom} → {slot : Slot} → p.atom? root = some owner → owner.branch slot = b →
    ∀ x ∈ branchPositions p slot b, x.1.atom? root = some x.2
  | none, _, _, _, _, _, x, hx => by simp [branchPositions] at hx
  | some atoms, p, owner, slot, ha, hb, x, hx => by
      simp only [branchPositions] at hx
      exact atom?_of_mem_itemPositions atoms [] ha hb x hx

theorem atom?_of_mem_itemPositions {root : Atom} : (rest : List Atom) → {p : Path} →
    {owner : Atom} → {slot : Slot} → (before : List Atom) → p.atom? root = some owner →
    owner.branch slot = some (before ++ rest) →
    ∀ x ∈ itemPositions p slot before.length rest, x.1.atom? root = some x.2
  | [], _, _, _, _, _, _, x, hx => by simp [itemPositions] at hx
  | a :: rest, p, owner, slot, before, ho, hb, x, hx => by
      have ha : (p.child slot before.length).atom? root = some a := by
        simp [Path.atom?_child, ho, hb]
      simp only [itemPositions, List.mem_append] at hx
      rcases hx with hx | hx
      · exact atom?_of_mem_positions a ha x hx
      · exact atom?_of_mem_itemPositions rest (before ++ [a]) ho (by simpa using hb) x
          (by simpa using hx)

end

theorem atom?_firstPlaceholder? {root a : Atom} {p q : Path} (ha : p.atom? root = some a)
    (h : a.firstPlaceholder? p = some q) :
    ∃ b, q.atom? root = some b ∧ b.kind = .placeholder := by
  obtain ⟨x, hx, rfl⟩ := Option.map_eq_some_iff.1 h
  refine ⟨x.2, atom?_of_mem_positions a ha x (List.mem_of_find?_eq_some hx), ?_⟩
  simpa [Atom.isPlaceholder] using List.find?_some hx

namespace Editor

theorem exists_of_mem_itemPositionsFrom {p : Path} {i : Nat} {atoms : List Atom} {x : Path × Atom}
    (h : x ∈ placeholderAmong?.itemPositionsFrom p i atoms) :
    ∃ j, x.1 = p.withOffset ((i + j : Nat) : Int) ∧ atoms[j]? = some x.2 := by
  induction atoms generalizing i with
  | nil => simp [placeholderAmong?.itemPositionsFrom] at h
  | cons a rest ih =>
      simp only [placeholderAmong?.itemPositionsFrom, List.mem_cons] at h
      rcases h with rfl | h
      · exact ⟨0, rfl, rfl⟩
      · obtain ⟨j, hj, ha⟩ := ih h
        exact ⟨j + 1, by rw [hj, Nat.add_assoc, Nat.add_comm 1 j], ha⟩

theorem atom?_placeholderAmong? {root : Atom} {q p : Path} {slot : Slot} {owner : Atom}
    {atoms : List Atom} (hb : IsBranch root q slot owner atoms) {offset : Int} {first last : Nat}
    (h : placeholderAmong? root (q.child slot offset) first last = some p) :
    ∃ b, p.atom? root = some b ∧ b.kind = .placeholder := by
  simp only [placeholderAmong?, hb.branch?, Option.bind_eq_bind, Option.bind_some] at h
  obtain ⟨x, hx, hp⟩ := List.exists_of_findSome?_eq_some h
  obtain ⟨j, hx, ha⟩ := exists_of_mem_itemPositionsFrom hx
  refine atom?_firstPlaceholder? ?_ hp
  rw [hx, Path.withOffset_child, hb.atom?]
  simp only [slice, List.getElem?_drop, List.getElem?_take] at ha
  split at ha
  · exact ha
  · cases ha

theorem isAtomPosition_placeholder {root : Atom} (h : IsFormula root) {p : Path} {b : Atom}
    (hb : p.atom? root = some b) (hp : b.kind = .placeholder) : IsAtomPosition root p := by
  obtain ⟨q, slot, i, owner, atoms, rfl, hbr, hi⟩ := exists_isBranch h.regular
    (h.isRoot_eq_false hb (by simp [hp])) hb (by simp [hp]) (by simp [hp])
  exact hbr.isAtomPosition (Atom.lt_length_of_getElem?_eq_some hi)

variable {e : Editor}

/-! ## Opening the branch of the caret -/

/-- The branch of the caret is opened, and the caret is in it. -/
structure OpenedAtCaret (e : Editor) (root : Atom) (q : Path) (slot : Slot) (owner : Atom)
    (atoms content : List Atom) (offset : Int) : Prop extends
    e.Opened root q slot owner atoms content where
  selection_eq : e.selection = Selection.caret (q.child slot offset)
  isOffset : IsOffset content offset

theorem OpenedAtCaret.of_eq {root : Atom} {q : Path} {slot : Slot} {owner : Atom}
    {atoms content : List Atom} {offset : Int}
    (h : e.OpenedAtCaret root q slot owner atoms content offset) {e' : Editor}
    (hr : e'.root = e.root) (hs : e'.selection = e.selection) :
    e'.OpenedAtCaret root q slot owner atoms content offset :=
  ⟨h.toOpened.of_root_eq hr, hs.trans h.selection_eq, h.isOffset⟩

theorem OpenedAtCaret.caret_eq {root : Atom} {q : Path} {slot : Slot} {owner : Atom}
    {atoms content : List Atom} {offset : Int}
    (h : e.OpenedAtCaret root q slot owner atoms content offset) : e.caret = q.child slot offset := by
  rw [caret, h.selection_eq]
  rfl

theorem OpenedAtCaret.isCollapsed {root : Atom} {q : Path} {slot : Slot} {owner : Atom}
    {atoms content : List Atom} {offset : Int}
    (h : e.OpenedAtCaret root q slot owner atoms content offset) :
    e.selection.isCollapsed = true := by
  rw [h.selection_eq]
  exact beq_self_eq_true _

theorem mem_of_mem_slice {α : Type} {xs : List α} {start stop : Nat} {x : α}
    (h : x ∈ slice xs start stop) : x ∈ xs :=
  List.mem_of_mem_take (List.mem_of_mem_drop h)

/-- Taking a run of atoms out leaves none that were not there. -/
theorem mem_of_mem_splice_nil {α : Type} {xs : List α} {start stop : Nat} {x : α}
    (h : x ∈ splice xs start stop []) : x ∈ xs :=
  (mem_of_mem_splice h).elim id nofun

theorem isWellFormed_slice {atoms : List Atom} (h : ∀ a ∈ atoms, a.isWellFormed = true)
    (start stop : Nat) : ∀ a ∈ slice atoms start stop, a.isWellFormed = true := fun a ha =>
  h a (mem_of_mem_slice ha)

/-- Atoms were taken out of the branch `atoms` at the caret, and `content` is left. -/
structure TakesOut (e : Editor) (root : Atom) (q : Path) (slot : Slot) (owner : Atom)
    (atoms content taken : List Atom) (offset : Int) : Prop extends
    e.OpenedAtCaret root q slot owner atoms content offset where
  left : ∀ a ∈ content, a ∈ atoms
  taken : ∀ a ∈ taken, a ∈ atoms

theorem TakesOut.wellFormed_taken {root : Atom} {q : Path} {slot : Slot} {owner : Atom}
    {atoms content taken : List Atom} {offset : Int}
    (h : e.TakesOut root q slot owner atoms content taken offset) :
    ∀ a ∈ taken, a.isWellFormed = true := fun a ha =>
  (h.branch.wellFormed h.isWellFormed).wellFormed a (h.taken a ha)

/-- Taking the selection out leaves the caret in its branch. -/
theorem SelectsIn.takeSelection {q : Path} {slot : Slot} {owner : Atom} {atoms : List Atom}
    {anchor focus : Int} (hsel : e.SelectsIn q slot owner atoms anchor focus) (h : e.Sound) :
    ∃ content offset,
      e.takeSelection.2.TakesOut e.root q slot owner atoms content e.takeSelection.1 offset := by
  unfold Editor.takeSelection
  simp only
  split
  · rename_i hcollapsed
    have heq : q.child slot anchor = q.child slot focus := by
      simpa [Selection.isCollapsed, hsel.selection_eq] using hcollapsed
    refine ⟨atoms, focus, ⟨h.opened hsel.branch, ?_, hsel.focus⟩, fun _ ha => ha, nofun⟩
    rw [hsel.selection_eq, heq]
    rfl
  · obtain ⟨hstart, -, hmin, -⟩ := hsel.start_stop
    obtain ⟨hle, hlen⟩ := hsel.startIndex_le
    obtain ⟨hindex, -⟩ := hsel.indices
    have hbranch : ((q.child slot (min anchor focus)).branch? e.root).getD [] = atoms := by
      rw [hsel.branch.branch?, Option.getD_some]
    have hroot : (e.setCaret (q.child slot (min anchor focus))).root = e.root := rfl
    simp only [hstart, hroot, hbranch, Nat.not_lt.2 hlen, if_false]
    have hopened := ((h.opened hsel.branch).setCaret (q.child slot (min anchor focus))).remove
      (min anchor focus) e.selection.startIndex e.selection.stopIndex
    refine ⟨_, min anchor focus, ⟨hopened, rfl, ?_⟩, fun _ => mem_of_mem_splice_nil, ?_⟩
    · have ho : IsOffset (splice atoms e.selection.startIndex e.selection.stopIndex [])
          ((e.selection.startIndex : Int) - 1) := isOffset_splice (Nat.le_trans hle hlen)
      rwa [hindex, Int.add_sub_cancel] at ho
    · split
      · exact nofun
      · exact fun _ => mem_of_mem_slice

theorem TakesOut.takeImplicitArgument {root : Atom} {q : Path} {slot : Slot} {owner : Atom}
    {atoms content taken : List Atom} {offset : Int}
    (h : e.TakesOut root q slot owner atoms content taken offset) :
    ∃ content' offset', e.takeImplicitArgument.2.TakesOut root q slot owner atoms content'
      e.takeImplicitArgument.1 offset' := by
  unfold Editor.takeImplicitArgument
  simp only [h.caret_eq, h.branch?]
  split
  · exact ⟨content, offset, h.toOpenedAtCaret, h.left, nofun⟩
  · simp only [Path.offset_child, Path.withOffset_child]
    have hlt := Nat.min_le_right (offset + 1).toNat content.length
    refine ⟨_, _, ⟨(h.remove offset _ _).setCaret _, rfl,
      isOffset_splice (Nat.le_trans (Nat.sub_le _ _) hlt)⟩, ?_, ?_⟩
    · exact fun a ha => h.left a (mem_of_mem_splice_nil ha)
    · exact fun a ha => h.left a (mem_of_mem_slice ha)

/-- Taking the arguments of a fragment out leaves the caret in its branch. -/
theorem Sound.takeArgument (h : e.Sound) (text : String) :
    ∃ q slot owner atoms content offset, (e.takeArgument text).2.TakesOut e.root q slot owner atoms
      content (e.takeArgument text).1 offset := by
  obtain ⟨q, slot, owner, atoms, anchor, focus, hsel⟩ := h.exists_selectsIn
  obtain ⟨content, offset, htaken⟩ := hsel.takeSelection h
  unfold Editor.takeArgument
  simp only
  split
  · exact ⟨q, slot, owner, atoms, htaken.takeImplicitArgument⟩
  · exact ⟨q, slot, owner, atoms, content, offset, htaken⟩

/-! ## Reading what is inserted -/

theorem foldl_note (diagnostics : List Latex.Diagnostic) (e : Editor) :
    (diagnostics.foldl (fun e d => e.note (.repaired d)) e).root = e.root ∧
      (diagnostics.foldl (fun e d => e.note (.repaired d)) e).selection = e.selection := by
  induction diagnostics generalizing e with
  | nil => exact ⟨rfl, rfl⟩
  | cons d rest ih => exact ih (e.note (.repaired d))

/-- Reading leaves formula and selection alone and makes atoms with the property `P`. -/
structure ReadsInto (P : Atom → Prop) (e : Editor) (r : List Atom × Editor) : Prop where
  root_eq : r.2.root = e.root
  selection_eq : r.2.selection = e.selection
  forall_mem : ∀ a ∈ r.1, P a

section

variable {P : Atom → Prop} {args : List (List Atom)}
  (hparse : ∀ source mode supply, ∀ a ∈ (Latex.parseFragment source mode args supply).1.atoms, P a)
  (hchar : ∀ a : Atom, a.isWellFormed = true → P a)

include hparse

theorem readsInto_readFragment (source : String) (mode : Latex.ReadingMode) :
    e.ReadsInto P (e.readFragment source mode args) :=
  ⟨(foldl_note _ _).1, (foldl_note _ _).2, hparse source mode e.supply⟩

include hchar

theorem readsInto_charAtoms (c : Char) (mode : Latex.ReadingMode) :
    e.ReadsInto P (e.charAtoms c mode args) := by
  unfold charAtoms
  split
  · exact readsInto_readFragment hparse _ mode
  split
  · exact readsInto_readFragment hparse _ mode
  split
  · refine ⟨rfl, rfl, fun a ha => hchar a ?_⟩
    rw [List.mem_singleton.1 ha]
    exact Atom.isWellFormed_leaf rfl _ _ _
  split
  · exact ⟨rfl, rfl, by simp⟩
  · refine ⟨rfl, rfl, fun a ha => hchar a ?_⟩
    rw [List.mem_singleton.1 ha]
    exact Latex.isWellFormed_newMathChar c e.supply

theorem readsInto_textAtoms (text : String) (format : InsertFormat) (mode : Latex.ReadingMode) :
    e.ReadsInto P (e.textAtoms text format mode args) := by
  unfold textAtoms
  split
  · exact readsInto_charAtoms hparse hchar _ mode
  · exact readsInto_readFragment hparse text mode

end

/-! ## Inserting -/

/-- An operation that was carried out and left the editor sound. -/
def CarriedOut (o : Outcome Editor Unit) : Prop :=
  o.answer = .ok () ∧ o.state.Sound

theorem carriedOut_done (h : e.Sound) : CarriedOut (.done e) :=
  ⟨rfl, h⟩

theorem isWellFormed_insertionPoint {content : List Atom}
    (h : ∀ a ∈ content, a.isWellFormed = true) (p : Path) :
    ∀ a ∈ (insertionPoint p content).2, a.isWellFormed = true := by
  unfold insertionPoint
  split
  · simp
  · exact h

theorem insertionPoint_le {content : List Atom} {offset : Int} (h : IsOffset content offset)
    (q : Path) (slot : Slot) :
    (insertionPoint (q.child slot offset) content).1 ≤
      (insertionPoint (q.child slot offset) content).2.length := by
  have hlt := h.2
  unfold insertionPoint
  split
  · simp
  · simp only [Path.offset_child]
    omega

theorem Placed.selectInserted (h : e.Placed) {q : Path} {slot : Slot} {owner : Atom}
    {atoms : List Atom} (hb : IsBranch e.root q slot owner atoms) (offset : Int) {first last : Nat}
    (hf : first ≤ atoms.length) (hl : last < atoms.length) (mode : SelectionMode) :
    (e.selectInserted (q.child slot offset) first last mode).Placed := by
  have hafter : (e.setCaret ((q.child slot offset).withOffset last)).Placed := by
    rw [Path.withOffset_child]
    exact h.setCaret (hb.isPosition (isOffset_natCast hl))
  cases mode with
  | placeholder =>
      unfold Editor.selectInserted
      simp only
      split
      · rename_i p hp
        obtain ⟨b, hpb, hk⟩ := atom?_placeholderAmong? hb hp
        exact h.selectAtom (isAtomPosition_placeholder h.formula hpb hk)
      · exact hafter
  | after => exact hafter
  | before =>
      have hoffset : IsOffset atoms ((first : Int) - 1) := by
        refine ⟨?_, by omega⟩
        simp only [leadingGap]
        omega
      simp only [Editor.selectInserted, Path.withOffset_child]
      exact h.setCaret (hb.isPosition hoffset)
  | item => exact h.selectRun hb offset hf hl

theorem onlySelects_selectInserted (e : Editor) (p : Path) (first last : Nat)
    (mode : SelectionMode) : e.OnlySelects (e.selectInserted p first last mode) := by
  cases mode with
  | placeholder =>
      simp only [selectInserted]
      split <;> exact ⟨rfl, rfl⟩
  | _ => exact ⟨rfl, rfl⟩

theorem Sound.selectInserted (h : e.Sound) {q : Path} {slot : Slot} {owner : Atom}
    {atoms : List Atom} (hb : IsBranch e.root q slot owner atoms) (offset : Int) {first last : Nat}
    (hf : first ≤ atoms.length) (hl : last < atoms.length) (mode : SelectionMode) :
    (e.selectInserted (q.child slot offset) first last mode).Sound :=
  h.onlySelects (onlySelects_selectInserted ..) (h.placed.selectInserted hb offset hf hl mode)

/-- An opened branch with atoms inserted at the caret. -/
def withInserted (content : List Atom) (p : Path) (inserted : List Atom) : List Atom :=
  splice (insertionPoint p content).2 (insertionPoint p content).1 (insertionPoint p content).1
    inserted

theorem length_withInserted {content : List Atom} {offset : Int} (h : IsOffset content offset)
    (q : Path) (slot : Slot) (inserted : List Atom) :
    (insertionPoint (q.child slot offset) content).1 + inserted.length ≤
      (withInserted content (q.child slot offset) inserted).length := by
  have hpoint := insertionPoint_le h q slot
  rw [withInserted, length_splice _ _ _ hpoint]
  omega

theorem isOffset_withInserted {content : List Atom} {offset : Int} (h : IsOffset content offset)
    (q : Path) (slot : Slot) {inserted : List Atom} (hne : inserted ≠ []) :
    IsOffset (withInserted content (q.child slot offset) inserted) offset := by
  have hpos := List.length_pos_iff.2 hne
  have hpoint := insertionPoint_le h q slot
  refine ⟨h.1, ?_⟩
  have hlt := h.2
  rw [withInserted, length_splice _ _ _ hpoint]
  unfold insertionPoint at hpoint ⊢
  split
  · rename_i hp
    obtain ⟨a, rfl, -, -⟩ := isPlaceholderOnly_iff.1 hp
    simp only [List.length_nil]
    rw [List.length_singleton] at hlt
    omega
  · simp only [Path.offset_child]
    omega

theorem Opened.isWellFormed_withInserted {root : Atom} {q : Path} {slot : Slot} {owner : Atom}
    {atoms content : List Atom} (h : e.Opened root q slot owner atoms content) (offset : Int)
    {inserted : List Atom} (hi : ∀ a ∈ inserted, a.isWellFormed = true) :
    ∀ a ∈ withInserted content (q.child slot offset) inserted, a.isWellFormed = true :=
  isWellFormed_splice (isWellFormed_insertionPoint h.wellFormed (q.child slot offset)) hi

/-- Inserting atoms makes the editor sound again. -/
theorem OpenedAtCaret.sound_withInserted {root : Atom} {q : Path} {slot : Slot} {owner : Atom}
    {atoms content : List Atom} {offset : Int}
    (h : e.OpenedAtCaret root q slot owner atoms content offset) {inserted : List Atom}
    (hi : ∀ a ∈ inserted, a.isWellFormed = true) (hne : inserted ≠ []) :
    (e.putBranch (q.child slot offset) (withInserted content (q.child slot offset) inserted)).Sound ∧
      ∃ owner', IsBranch (e.putBranch (q.child slot offset)
        (withInserted content (q.child slot offset) inserted)).root q slot owner'
        (withInserted content (q.child slot offset) inserted) := by
  have hopened := h.putBranch offset (h.toOpened.isWellFormed_withInserted offset hi)
  have hoffset := isOffset_withInserted h.isOffset q slot hne
  have hne' : withInserted content (q.child slot offset) inserted ≠ [] := by
    have hlength := length_withInserted h.isOffset q slot inserted
    have hpos := List.length_pos_iff.2 hne
    exact List.ne_nil_of_length_pos (by omega)
  exact ⟨hopened.sound_of_ne_nil hne' h.selection_eq hoffset hoffset, _, hopened.isBranch⟩

theorem OpenedAtCaret.insertAtoms {root : Atom} {q : Path} {slot : Slot} {owner : Atom}
    {atoms content : List Atom} {offset : Int}
    (h : e.OpenedAtCaret root q slot owner atoms content offset) {inserted : List Atom}
    (hi : ∀ a ∈ inserted, a.isWellFormed = true) (mode : SelectionMode) :
    CarriedOut (e.insertAtoms inserted mode) := by
  unfold Editor.insertAtoms
  simp only [h.caret_eq, h.branch?]
  split
  · rw [Path.offset_child]
    exact carriedOut_done (h.sound_settleCaret _ fun _ => h.isOffset)
  · rename_i hne
    replace hne : inserted ≠ [] := by simpa using hne
    obtain ⟨hsound, owner', hbranch⟩ := h.sound_withInserted hi hne
    have hlength := length_withInserted h.isOffset q slot inserted
    have hpos := List.length_pos_iff.2 hne
    exact carriedOut_done (hsound.selectInserted hbranch offset (by omega) (by omega) mode)

theorem Sound.insert (h : e.Sound) (text : String) (options : InsertOptions) :
    CarriedOut (e.insert text options) := by
  obtain ⟨q, slot, owner, atoms, content, offset, htaken⟩ := h.takeArgument text
  have hargs : ∀ atoms ∈ [(e.takeArgument text).1], ∀ a ∈ atoms, a.isWellFormed = true := by
    simpa using htaken.wellFormed_taken
  have hreads := readsInto_textAtoms (e := (e.takeArgument text).2)
    (Latex.isWellFormed_parseFragment hargs) (fun _ => id) text options.format
    (if (e.takeArgument text).2.inText then .text else .math)
  unfold Editor.insert
  rw [h.whenValid]
  exact (htaken.toOpenedAtCaret.of_eq hreads.root_eq hreads.selection_eq).insertAtoms
    hreads.forall_mem options.selectionMode

end Editor

end FormulaEditor

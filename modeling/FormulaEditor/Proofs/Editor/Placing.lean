import FormulaEditor.Proofs.Editor.Inserting
import FormulaEditor.Proofs.Formula.Resemblance
import FormulaEditor.Proofs.Latex.Identities

/-!
# Where an insertion goes

What an insertion leaves is told by the branch of the caret: the atoms around the gap and what the
fragment stands for. Two editors that have alike branches opened in one formula are alike after
inserting one fragment, whatever identities they have given so far.
-/

namespace FormulaEditor

namespace Editor

/-- Two editors that show alike formulas with the same selection. -/
structure Alike (e e' : Editor) : Prop where
  root : e.root.bare = e'.root.bare
  selection : e.selection = e'.selection

variable {e e' : Editor}

/-! ## Selecting what was inserted -/

theorem map_bare_slice (atoms : List Atom) (start stop : Nat) :
    (slice atoms start stop).map Atom.bare = slice (atoms.map Atom.bare) start stop := by
  simp only [slice, List.map_drop, List.map_take]

theorem itemPositionsFrom_bare (p : Path) (i : Nat) (atoms : List Atom) :
    placeholderAmong?.itemPositionsFrom p i (atoms.map Atom.bare) =
      (placeholderAmong?.itemPositionsFrom p i atoms).map fun x => (x.1, x.2.bare) := by
  induction atoms generalizing i with
  | nil => rfl
  | cons a rest ih => simp only [List.map_cons, placeholderAmong?.itemPositionsFrom, ih]

/-- Placeholders are found at the same places in alike formulas. -/
theorem placeholderAmong?_bare (root : Atom) (q : Path) (slot : Slot) (offset : Int)
    (first last : Nat) :
    placeholderAmong? root.bare (q.child slot offset) first last =
      placeholderAmong? root (q.child slot offset) first last := by
  simp only [placeholderAmong?, Path.branch?_child, Path.atom?_bare]
  cases q.atom? root with
  | none => rfl
  | some owner =>
      simp only [Option.map_some, Option.bind_some, Atom.branch_bare]
      cases owner.branch slot with
      | none => rfl
      | some atoms =>
          simp only [Option.map_some, Option.bind_eq_bind, Option.bind_some, ← map_bare_slice,
            itemPositionsFrom_bare, List.findSome?_map]
          congr 1
          funext x
          exact Atom.firstPlaceholder?_bare x.2 x.1

theorem itemPositionsFrom_child (q : Path) (slot : Slot) (offset offset' : Int) (i : Nat)
    (atoms : List Atom) :
    placeholderAmong?.itemPositionsFrom (q.child slot offset) i atoms =
      placeholderAmong?.itemPositionsFrom (q.child slot offset') i atoms := by
  induction atoms generalizing i with
  | nil => rfl
  | cons a rest ih =>
      simp only [placeholderAmong?.itemPositionsFrom, Path.withOffset_child, ih]

/-- Where in the branch the caret was does not matter for what is selected. -/
theorem placeholderAmong?_child (root : Atom) (q : Path) (slot : Slot) (offset offset' : Int)
    (first last : Nat) :
    placeholderAmong? root (q.child slot offset) first last =
      placeholderAmong? root (q.child slot offset') first last := by
  simp only [placeholderAmong?, Path.branch?_child, itemPositionsFrom_child q slot offset offset']

/-- In alike formulas the same is selected after an insertion. -/
theorem alike_selectInserted (h : e.root.bare = e'.root.bare) (q : Path) (slot : Slot)
    (offset offset' : Int) (first last : Nat) (mode : SelectionMode) :
    (e.selectInserted (q.child slot offset) first last mode).Alike
      (e'.selectInserted (q.child slot offset') first last mode) := by
  refine ⟨by rw [(onlySelects_selectInserted ..).root_eq, (onlySelects_selectInserted ..).root_eq, h], ?_⟩
  have hfound : placeholderAmong? e.root (q.child slot offset) first last =
      placeholderAmong? e'.root (q.child slot offset') first last := by
    rw [← placeholderAmong?_bare, h, placeholderAmong?_bare,
      placeholderAmong?_child e'.root q slot offset offset']
  cases mode with
  | placeholder =>
      simp only [selectInserted, hfound, Path.withOffset_child]
      split <;> rfl
  | after | before | item =>
      simp only [selectInserted, setCaret, selectRun, Path.withOffset_child]

/-! ## Inserting at the caret -/

section

variable {root owner : Atom} {q : Path} {slot : Slot} {atoms content content' : List Atom}
  {offset offset' : Int} {inserted inserted' : List Atom}

/-- Atoms that are inserted at the caret are in its branch then. -/
theorem OpenedAtCaret.insertAtoms_eq (h : e.OpenedAtCaret root q slot owner atoms content offset)
    (hne : inserted ≠ []) (mode : SelectionMode) :
    e.insertAtoms inserted mode =
      .done ((e.putBranch (q.child slot offset)
        (withInserted content (q.child slot offset) inserted)).selectInserted (q.child slot offset)
          (insertionPoint (q.child slot offset) content).1
          ((insertionPoint (q.child slot offset) content).1 + inserted.length - 1) mode) := by
  have hempty : inserted.isEmpty = false := by simpa using hne
  simp only [Editor.insertAtoms, h.caret_eq, h.branch?, hempty, Bool.false_eq_true, if_false]
  rfl

theorem OpenedAtCaret.root_insertAtoms (h : e.OpenedAtCaret root q slot owner atoms content offset)
    (hwf : ∀ a ∈ inserted, a.isWellFormed = true) (hne : inserted ≠ []) (mode : SelectionMode) :
    (e.insertAtoms inserted mode).state.root =
      q.fill slot (withInserted content (q.child slot offset) inserted) root := by
  rw [h.insertAtoms_eq hne]
  exact (onlySelects_selectInserted ..).root_eq.trans
    (h.putBranch offset (h.toOpened.isWellFormed_withInserted offset hwf)).root_eq

/-- The gap of the caret is between alike atoms. -/
structure SameGap (q : Path) (slot : Slot) (content : List Atom) (offset : Int)
    (content' : List Atom) (offset' : Int) : Prop where
  index : (insertionPoint (q.child slot offset) content).1 =
    (insertionPoint (q.child slot offset') content').1
  around : (insertionPoint (q.child slot offset) content).2.map Atom.bare =
    (insertionPoint (q.child slot offset') content').2.map Atom.bare

theorem SameGap.refl (q : Path) (slot : Slot) (content : List Atom) (offset : Int) :
    SameGap q slot content offset content offset :=
  ⟨rfl, rfl⟩

theorem SameGap.withInserted (h : SameGap q slot content offset content' offset')
    (hi : inserted.map Atom.bare = inserted'.map Atom.bare) :
    (withInserted content (q.child slot offset) inserted).map Atom.bare =
      (Editor.withInserted content' (q.child slot offset') inserted').map Atom.bare := by
  simp only [Editor.withInserted, splice, List.map_append, List.map_take, List.map_drop, h.index,
    h.around, hi]

/-- Inserting alike atoms between alike ones makes the editors alike. -/
theorem OpenedAtCaret.alike_insertAtoms
    (h : e.OpenedAtCaret root q slot owner atoms content offset)
    (h' : e'.OpenedAtCaret root q slot owner atoms content' offset')
    (hgap : SameGap q slot content offset content' offset')
    (hi : inserted.map Atom.bare = inserted'.map Atom.bare)
    (hwf : ∀ a ∈ inserted, a.isWellFormed = true) (hwf' : ∀ a ∈ inserted', a.isWellFormed = true)
    (hne : inserted ≠ []) (mode : SelectionMode) :
    (e.insertAtoms inserted mode).state.Alike (e'.insertAtoms inserted' mode).state := by
  have hne' : inserted' ≠ [] := fun hnil => hne ((Atom.nil_of_map_bare_eq hi).2 hnil)
  have hlength : inserted.length = inserted'.length := by
    simpa using congrArg List.length hi
  have hroot := (h.putBranch offset (h.toOpened.isWellFormed_withInserted offset hwf)).root_eq
  have hroot' := (h'.putBranch offset' (h'.toOpened.isWellFormed_withInserted offset' hwf')).root_eq
  rw [h.insertAtoms_eq hne, h'.insertAtoms_eq hne', hgap.index, hlength]
  refine alike_selectInserted ?_ q slot offset offset' _ _ mode
  rw [hroot, hroot']
  exact Path.bare_fill_congr (hgap.withInserted hi)

end

/-! ## What a fragment stands for -/

/-- What a fragment without arguments stands for at the caret. -/
def reading (e : Editor) (fragment : String) : List Atom :=
  (Latex.parseFragment fragment (if e.inText then .text else .math) [[]] e.supply).1.atoms

theorem isWellFormed_reading (e : Editor) (fragment : String) :
    ∀ a ∈ e.reading fragment, a.isWellFormed = true :=
  Latex.isWellFormed_parseFragment (by simp) fragment _ e.supply

theorem map_bare_reading (h : e.inText = e'.inText) (fragment : String) :
    (e.reading fragment).map Atom.bare = (e'.reading fragment).map Atom.bare := by
  unfold reading
  rw [h]
  exact (Latex.bares_parseFragment (fun _ => rfl) fragment _ e.supply e'.supply).1

/-- Whether the caret is in text depends on the atoms above its branch only. -/
theorem inText_child {q : Path} {slot : Slot} {offset : Int} (h : e.caret = q.child slot offset) :
    e.inText = (List.range q.depth).any fun d =>
      ((q.take (d + 1)).atom? e.root).any fun a => a.kind == .text := by
  unfold inText isInside
  rw [h, Path.depth_child, Nat.add_sub_cancel, Bool.eq_iff_iff, List.any_eq_true, List.any_eq_true]
  refine exists_congr fun d => and_congr_right fun hd => ?_
  have htake : (q.child slot offset).take (d + 1) = q.take (d + 1) := by
    have hlt := List.mem_range.1 hd
    unfold Path.take Path.child
    rw [List.take_append_of_le_length (by unfold Path.depth at hlt; omega)]
  rw [htake]

section

variable {root owner : Atom} {q : Path} {slot : Slot} {atoms content content' : List Atom}
  {offset offset' : Int}

/-- What a branch holds does not matter for whether a caret in it is in text. -/
theorem inText_of_root_eq_fill (hr : e.root = q.fill slot content root)
    (hp : e.caret = q.child slot offset) :
    e.inText = (List.range q.depth).any fun d =>
      ((q.take (d + 1)).atom? root).any fun a => a.kind == .text := by
  have hkind (d : Nat) :
      (((q.take (d + 1)).atom? (q.fill slot content root)).any fun a => a.kind == .text) =
        ((q.take (d + 1)).atom? root).any fun a => a.kind == .text := by
    have hmapped := congrArg (fun k => k.any (· == Kind.text))
      (Path.kind_atom?_take_fill q slot content root (d + 1))
    simpa only [Option.any_map, Function.comp_def] using hmapped
  rw [inText_child hp, hr]
  simp only [hkind]

/-- What was put into the branch of the caret does not change whether it is in text. -/
theorem Opened.inText_eq (h : e.Opened root q slot owner atoms content)
    (h' : e'.Opened root q slot owner atoms content') (hp : e.caret = q.child slot offset)
    (hp' : e'.caret = q.child slot offset') : e.inText = e'.inText := by
  rw [inText_of_root_eq_fill h.root_eq hp, inText_of_root_eq_fill h'.root_eq hp']

theorem OpenedAtCaret.inText_eq (h : e.OpenedAtCaret root q slot owner atoms content offset)
    (h' : e'.OpenedAtCaret root q slot owner atoms content' offset') : e.inText = e'.inText :=
  h.toOpened.inText_eq h'.toOpened h.caret_eq h'.caret_eq

/-- Without a selection, and if it refers to nothing before the caret, a fragment is read as it is
and inserted. -/
theorem OpenedAtCaret.insert_eq (h : e.OpenedAtCaret root q slot owner atoms content offset)
    (hs : e.Sound) {fragment : String} (hf : takesImplicitArgument fragment.toList = false)
    (mode : SelectionMode) :
    ∃ e₁ : Editor, e₁.root = e.root ∧ e₁.selection = e.selection ∧
      e.insert fragment (InsertOptions.latex mode) = e₁.insertAtoms (e.reading fragment) mode := by
  have hargument : e.takeArgument fragment = ([], e) := by
    simp only [takeArgument, takeSelection, h.isCollapsed, if_true, hf, Bool.and_false,
      Bool.false_eq_true, if_false]
  let parsed := Latex.parseFragment fragment (if e.inText then .text else .math) [[]] e.supply
  let minted : Editor := { e with supply := parsed.2 }
  refine ⟨parsed.1.diagnostics.foldl (fun e d => e.note (.repaired d)) minted,
    (foldl_note _ minted).1, (foldl_note _ minted).2, ?_⟩
  unfold Editor.insert
  rw [hs.whenValid, hargument]
  rfl

/-- Inserting a fragment that stands for something makes editors alike that are alike around the
caret. -/
theorem OpenedAtCaret.alike_insert (h : e.OpenedAtCaret root q slot owner atoms content offset)
    (h' : e'.OpenedAtCaret root q slot owner atoms content' offset') (hs : e.Sound) (hs' : e'.Sound)
    (hgap : SameGap q slot content offset content' offset') {fragment : String}
    (hf : takesImplicitArgument fragment.toList = false) (hne : e.reading fragment ≠ [])
    (mode : SelectionMode) :
    (e.insert fragment (InsertOptions.latex mode)).state.Alike
      (e'.insert fragment (InsertOptions.latex mode)).state := by
  obtain ⟨e₁, hr₁, hs₁, he₁⟩ := h.insert_eq hs hf mode
  obtain ⟨e₂, hr₂, hs₂, he₂⟩ := h'.insert_eq hs' hf mode
  rw [he₁, he₂]
  exact (h.of_eq hr₁ hs₁).alike_insertAtoms (h'.of_eq hr₂ hs₂) hgap
    (map_bare_reading (h.inText_eq h') fragment) (e.isWellFormed_reading fragment)
    (e'.isWellFormed_reading fragment) hne mode

/-! ## Settling before an insertion -/

/-- What a branch that stays holds after it was settled. -/
def settled (owner : Atom) (slot : Slot) (filler : Nat) (content : List Atom) : List Atom :=
  if content.isEmpty then
    if owner.requiresContent slot then [Atom.placeholder filler] else []
  else content

theorem settled_of_ne_nil (owner : Atom) (slot : Slot) (filler : Nat) (h : content ≠ []) :
    settled owner slot filler content = content := by
  simp [settled, h]

theorem map_bare_settled (owner : Atom) (slot : Slot) (filler filler' : Nat)
    (h : content.map Atom.bare = content'.map Atom.bare) :
    (settled owner slot filler content).map Atom.bare =
      (settled owner slot filler' content').map Atom.bare := by
  unfold settled
  by_cases hc : content = []
  · rw [hc, (Atom.nil_of_map_bare_eq h).1 hc]
    split
    · split <;> rfl
    · rfl
  · have hc' : content' ≠ [] := fun hnil => hc ((Atom.nil_of_map_bare_eq h).2 hnil)
    simpa [hc, hc'] using h

theorem eq_nil_of_settled_eq_nil {filler : Nat} (h : settled owner slot filler content = []) :
    content = [] := by
  by_cases hc : content = []
  · exact hc
  · rwa [settled_of_ne_nil owner slot filler hc] at h

/-- Settling a settled branch again changes nothing. -/
theorem map_bare_settled_settled (owner : Atom) (slot : Slot) (filler filler' : Nat)
    (content : List Atom) :
    (settled owner slot filler (settled owner slot filler' content)).map Atom.bare =
      (settled owner slot 0 content).map Atom.bare := by
  by_cases hc : content = []
  · simp only [hc, settled, List.isEmpty_nil, if_true]
    cases owner.requiresContent slot <;> rfl
  · simp only [settled_of_ne_nil owner slot _ hc]

/-- Settling leaves the caret in a branch that stays. -/
theorem Opened.openedAtCaret_settleCaret (h : e.Opened root q slot owner atoms content)
    (at' : Int) (ho : IsOffset content offset) (hkeep : content = [] → slot.isOptional = false) :
    (e.settleCaret (q.child slot at') offset).OpenedAtCaret root q slot owner atoms
      (settled owner slot e.supply content) offset := by
  cases content with
  | cons a rest =>
      rw [settleCaret_of_ne_nil h.isBranch (List.cons_ne_nil a rest),
        settled_of_ne_nil owner slot _ (List.cons_ne_nil a rest)]
      exact ⟨h.setCaret _, rfl, ho⟩
  | nil =>
      have hroot := h.refill_eq (hkeep rfl) e.supply
      rw [settleCaret_of_not_isOptional h.isBranch (hkeep rfl), ho.eq_leadingGap]
      refine ⟨⟨h.kind_root, h.isWellFormed, h.branch, hroot, ?_⟩, rfl, isOffset_leadingGap _⟩
      simp only [settled, List.isEmpty_nil, if_true]
      split <;> simp [Atom.isWellFormed_placeholder]

/-- Where nothing is inserted the branch is settled. -/
theorem OpenedAtCaret.insertAtoms_nil (h : e.OpenedAtCaret root q slot owner atoms content offset)
    (hkeep : content = [] → slot.isOptional = false) (mode : SelectionMode) :
    (e.insertAtoms [] mode).state.OpenedAtCaret root q slot owner atoms
      (settled owner slot e.supply content) offset := by
  simp only [Editor.insertAtoms, h.caret_eq, h.branch?, List.isEmpty_nil, if_true, Outcome.done,
    Path.offset_child]
  exact h.toOpened.openedAtCaret_settleCaret offset h.isOffset hkeep

/-- Two editors with one branch opened are alike if its content is and the caret is in one place. -/
theorem OpenedAtCaret.alike_iff (h : e.OpenedAtCaret root q slot owner atoms content offset)
    (h' : e'.OpenedAtCaret root q slot owner atoms content' offset') :
    e.Alike e' ↔ content.map Atom.bare = content'.map Atom.bare ∧ offset = offset' := by
  have hroot : e.root.bare = e'.root.bare ↔ content.map Atom.bare = content'.map Atom.bare := by
    rw [h.root_eq, h'.root_eq, Path.bare_fill_iff h.branch]
  constructor
  · rintro ⟨hr, hs⟩
    rw [h.selection_eq, h'.selection_eq] at hs
    exact ⟨hroot.1 hr, (Path.child_injective (congrArg Selection.focus hs)).2.2⟩
  · rintro ⟨hc, rfl⟩
    exact ⟨hroot.2 hc, h.selection_eq.trans h'.selection_eq.symm⟩

/-- Inserting alike atoms, if any, makes editors alike that have the caret at one place of one branch. -/
theorem OpenedAtCaret.alike_insertAtoms_self
    (h : e.OpenedAtCaret root q slot owner atoms content offset)
    (h' : e'.OpenedAtCaret root q slot owner atoms content offset)
    (hkeep : content = [] → slot.isOptional = false)
    (hi : inserted.map Atom.bare = inserted'.map Atom.bare)
    (hwf : ∀ a ∈ inserted, a.isWellFormed = true) (hwf' : ∀ a ∈ inserted', a.isWellFormed = true)
    (mode : SelectionMode) :
    (e.insertAtoms inserted mode).state.Alike (e'.insertAtoms inserted' mode).state := by
  by_cases hne : inserted = []
  · rw [hne, (Atom.nil_of_map_bare_eq hi).1 hne]
    exact ((h.insertAtoms_nil hkeep mode).alike_iff (h'.insertAtoms_nil hkeep mode)).2
      ⟨map_bare_settled owner slot _ _ rfl, rfl⟩
  · exact h.alike_insertAtoms h' (SameGap.refl q slot content offset) hi hwf hwf' hne mode

/-- Inserting a fragment makes editors alike that have the caret at one place of one branch. -/
theorem OpenedAtCaret.alike_insert_self
    (h : e.OpenedAtCaret root q slot owner atoms content offset)
    (h' : e'.OpenedAtCaret root q slot owner atoms content offset) (hs : e.Sound) (hs' : e'.Sound)
    (hkeep : content = [] → slot.isOptional = false) {fragment : String}
    (hf : takesImplicitArgument fragment.toList = false) (mode : SelectionMode) :
    (e.insert fragment (InsertOptions.latex mode)).state.Alike
      (e'.insert fragment (InsertOptions.latex mode)).state := by
  obtain ⟨e₁, hr₁, hs₁, he₁⟩ := h.insert_eq hs hf mode
  obtain ⟨e₂, hr₂, hs₂, he₂⟩ := h'.insert_eq hs' hf mode
  rw [he₁, he₂]
  exact (h.of_eq hr₁ hs₁).alike_insertAtoms_self (h'.of_eq hr₂ hs₂) hkeep
    (map_bare_reading (h.inText_eq h') fragment) (e.isWellFormed_reading fragment)
    (e'.isWellFormed_reading fragment) mode

/-- In an empty branch there is nothing that a fragment could take as its argument. -/
theorem OpenedAtCaret.takeArgument_nil (h : e.OpenedAtCaret root q slot owner atoms [] offset)
    (fragment : String) :
    ∃ e₁ : Editor, e₁.OpenedAtCaret root q slot owner atoms [] offset ∧ e₁.supply = e.supply ∧
      e.takeArgument fragment = ([], e₁) := by
  cases h.isOffset.eq_leadingGap
  have hselection : e.takeSelection = ([], e) := by
    simp only [takeSelection, h.isCollapsed, if_true]
  cases himplicit : takesImplicitArgument fragment.toList with
  | false =>
      refine ⟨e, h, rfl, ?_⟩
      simp only [takeArgument, hselection, himplicit, Bool.and_false, Bool.false_eq_true, if_false]
  | true =>
      have hnone : ∀ a ∈ ([] : List Atom), a.isWellFormed = true := List.forall_mem_nil _
      have hput := (h.putBranch leadingGap hnone).setCaret (q.child slot leadingGap)
      refine ⟨_, ⟨hput, rfl, h.isOffset⟩, rfl, ?_⟩
      have hlone : isPlaceholderOnly [] = false := rfl
      simp only [takeArgument, hselection, himplicit, List.isEmpty_nil, Bool.and_self, if_true,
        takeImplicitArgument, h.caret_eq, h.branch?, hlone, Bool.false_eq_true, if_false, slice, splice,
        List.take_nil, List.drop_nil, List.append_nil, List.length_nil, Nat.min_zero, Nat.zero_sub,
        Path.withOffset_child]
      rfl

theorem OpenedAtCaret.insert_eq_of_nil (h : e.OpenedAtCaret root q slot owner atoms [] offset)
    (hs : e.Sound) (fragment : String) (mode : SelectionMode) :
    ∃ e₁ : Editor, e₁.OpenedAtCaret root q slot owner atoms [] offset ∧
      e.insert fragment (InsertOptions.latex mode) = e₁.insertAtoms (e.reading fragment) mode := by
  obtain ⟨e₁, h₁, hsupply, hargument⟩ := h.takeArgument_nil fragment
  let parsed := Latex.parseFragment fragment (if e₁.inText then .text else .math) [[]] e₁.supply
  let minted : Editor := { e₁ with supply := parsed.2 }
  have hnoted := foldl_note parsed.1.diagnostics minted
  have hreading : e₁.reading fragment = e.reading fragment := by
    unfold reading
    rw [h₁.inText_eq h, hsupply]
  refine ⟨_, h₁.of_eq hnoted.1 hnoted.2, ?_⟩
  unfold Editor.insert
  rw [hs.whenValid, hargument, ← hreading]
  rfl

/-- Inserting any fragment makes editors alike that have the caret in one empty branch. -/
theorem OpenedAtCaret.alike_insert_nil (h : e.OpenedAtCaret root q slot owner atoms [] offset)
    (h' : e'.OpenedAtCaret root q slot owner atoms [] offset) (hs : e.Sound) (hs' : e'.Sound)
    (hkeep : slot.isOptional = false) (fragment : String) (mode : SelectionMode) :
    (e.insert fragment (InsertOptions.latex mode)).state.Alike
      (e'.insert fragment (InsertOptions.latex mode)).state := by
  obtain ⟨e₁, h₁, he₁⟩ := h.insert_eq_of_nil hs fragment mode
  obtain ⟨e₂, h₂, he₂⟩ := h'.insert_eq_of_nil hs' fragment mode
  rw [he₁, he₂]
  exact h₁.alike_insertAtoms_self h₂ (fun _ => hkeep) (map_bare_reading (h.inText_eq h') fragment)
    (e.isWellFormed_reading fragment) (e'.isWellFormed_reading fragment) mode

/-- In a branch that counts as empty there is one place for an insertion. -/
theorem insertionPoint_settled_nil (p : Path) (hp : p.offset = leadingGap) (owner : Atom)
    (slot : Slot) (filler : Nat) : insertionPoint p (settled owner slot filler []) = (0, []) := by
  have hpos : (p.offset + 1).toNat = 0 := by rw [hp]; rfl
  unfold settled insertionPoint
  cases owner.requiresContent slot with
  | true => rfl
  | false => simp [isPlaceholderOnly, hpos]

end

end Editor

end FormulaEditor

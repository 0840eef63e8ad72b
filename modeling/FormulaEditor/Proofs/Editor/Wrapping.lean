import FormulaEditor.Proofs.Editor.InsertionFrame
import FormulaEditor.Proofs.Editor.Promoting
import FormulaEditor.Proofs.Editor.Spanning
import FormulaEditor.Proofs.Latex.Braced

/-!
# A selection that is wrapped

A fragment that wraps its argument puts one atom in the place of the selected atoms, and that atom
holds them as they are. Deleting at the start of what it holds puts them back in its place. What was
beside them stays, but a lone placeholder gives way to what is inserted and is not brought back. The
main statement is `Sound.wrap_then_delete`.
-/

namespace FormulaEditor

open Latex (Wraps IsWrapper)

variable {source : String} {kind : Kind} {root owner w : Atom} {q : Path} {slot inner : Slot}
  {atoms content before selected after front back : List Atom} {text : String}

/-! ## Wrappers -/

namespace Latex

/-- A wrapper is a radical, or it keeps the argument in its body. -/
theorem Action.kind_slot_of_wrapper? {action : Action} (h : action.wrapper? = some (kind, inner)) :
    kind = .radical ∧ inner = .radicand ∨
      kind ∈ [Kind.group, .accent, .font, .text] ∧ inner = .body := by
  cases action <;> cases h
  case radical => exact .inl ⟨rfl, rfl⟩
  all_goals exact .inr ⟨by simp, rfl⟩

theorem Wraps.kind_slot (h : Wraps source kind inner) :
    kind = .radical ∧ inner = .radicand ∨
      kind ∈ [Kind.group, .accent, .font, .text] ∧ inner = .body := by
  cases h with
  | group => exact .inr ⟨List.mem_cons_self, rfl⟩
  | command _ haction => exact Action.kind_slot_of_wrapper? haction

theorem Wraps.isScript_eq_false (h : Wraps source kind inner) : inner.isScript = false := by
  rcases h.kind_slot with ⟨-, rfl⟩ | ⟨-, rfl⟩ <;> rfl

theorem Wraps.isGridBody_eq_false (h : Wraps source kind inner) : isGridBody kind inner = false := by
  rcases h.kind_slot with ⟨rfl, rfl⟩ | ⟨hk, rfl⟩
  · rfl
  · have hall : ∀ kind ∈ [Kind.group, .accent, .font, .text], isGridBody kind .body = false := by
      decide
    exact hall kind hk

namespace IsWrapper

variable (hw : IsWrapper kind inner content w)

include hw

theorem hasScripts_eq_false (hs : inner.isScript = false) : w.hasScripts = false := by
  apply Atom.hasScripts_eq_false.2
  intro other hother
  apply hw.branch_eq_none
  rintro rfl
  rw [hs] at hother
  cases hother

/-- A wrapper has no atoms below it but what it holds. -/
theorem children_eq : w.children = content := by
  have hbranch (other : Slot) :
      (w.branches.get other).getD [] = if other = inner then content else [] := by
    show (w.branch other).getD [] = _
    by_cases hother : other = inner
    · rw [hother, hw.branch_eq, if_pos rfl, Option.getD_some]
    · rw [hw.branch_eq_none hother, if_neg hother, Option.getD_none]
  rw [Atom.children, Branches.toList]
  simp only [hbranch]
  cases inner <;> exact List.append_nil content

end IsWrapper

/-- Deleting at the start of what a wrapper holds unwraps it. -/
theorem Wraps.isUnwrappedAt (h : Wraps source kind inner) (hw : IsWrapper kind inner content w) :
    isUnwrappedAt w inner = true := by
  unfold FormulaEditor.isUnwrappedAt
  rw [hw.hasScripts_eq_false h.isScript_eq_false, hw.kind_eq]
  rcases h.kind_slot with ⟨-, rfl⟩ | ⟨hk, rfl⟩
  · rfl
  · have hall : ∀ kind ∈ [Kind.group, .accent, .font, .text],
        (kind == .accent || kind == .font || kind == .text || kind == .group) = true := by decide
    exact hall kind hk

/-- A fragment that wraps its argument has more than one character. -/
theorem Wraps.exists_toList (h : Wraps source kind inner) :
    ∃ c d rest, source.toList = c :: d :: rest := by
  cases h with
  | group => exact ⟨'{', '#', ['0', '}'], by decide⟩
  | @command name _ _ _ _ _ =>
      rw [String.toList_append, Writer.toList_command]
      cases name.toList with
      | nil => exact ⟨_, _, _, rfl⟩
      | cons c letters => exact ⟨_, _, _, rfl⟩

end Latex

/-! ## Parts of a branch -/

/-- An insertion takes the selected atoms, and its implicit argument from what is before them. -/
theorem InsertionParts.Divides.parts_eq {parts : InsertionParts}
    (h : parts.Divides (before ++ selected ++ after) before.length (before.length + selected.length)
      text) :
    parts.before ++ parts.implicit = before ∧ parts.selected = selected ∧ parts.after = after := by
  have hlength : (before ++ selected).length =
      (parts.before ++ parts.implicit ++ parts.selected).length := by
    rw [List.length_append, h.stop_eq]
  obtain ⟨hfront, hafter⟩ := List.append_inj h.atoms_eq hlength
  obtain ⟨hbefore, hselected⟩ := List.append_inj hfront h.start_eq
  exact ⟨hbefore.symm, hselected.symm, hafter.symm⟩

/-- What stays on both sides of inserted atoms: a lone placeholder gives way to them. -/
def besideInserted (before after : List Atom) : List Atom × List Atom :=
  if isPlaceholderOnly (before ++ after) then ([], []) else (before, after)

theorem besideInserted_eq (parts : InsertionParts) {made : List Atom} (hne : made ≠ []) :
    besideInserted parts.before parts.after = (parts.front made, parts.back made) := by
  have hempty : made.isEmpty = false := by simpa using hne
  have hgives : parts.givesWay made = isPlaceholderOnly (parts.before ++ parts.after) := by
    rw [InsertionParts.givesWay, hempty, Bool.not_false, Bool.true_and]
    rfl
  rw [besideInserted, InsertionParts.front, InsertionParts.back, hgives]
  split <;> rfl

/-- The rest of a branch is back around its atoms, unless it was a lone placeholder. -/
theorem append_besideInserted_eq_iff (h : besideInserted before after = (front, back)) :
    front ++ content ++ back = before ++ content ++ after ↔
      isPlaceholderOnly (before ++ after) = false := by
  unfold besideInserted at h
  cases hlone : isPlaceholderOnly (before ++ after) with
  | false =>
      rw [hlone, if_neg Bool.false_ne_true] at h
      cases h
      exact iff_of_true rfl rfl
  | true =>
      rw [hlone, if_pos rfl] at h
      cases h
      -- The lone placeholder is missing in `front ++ back`, so the lengths differ.
      refine iff_of_false (fun heq => ?_) Bool.noConfusion
      have hlength := congrArg List.length heq
      have hnil : (before ++ after).length = 0 := by
        simp only [List.length_append, List.length_nil] at hlength ⊢
        omega
      rw [List.length_eq_zero_iff.1 hnil] at hlone
      cases hlone

theorem IsBranch.fill_eq_self_iff (h : IsBranch root q slot owner atoms) :
    q.fill slot content root = root ↔ content = atoms := by
  constructor
  · intro heq
    have hfilled := (h.fill content).branch? 0
    rw [heq, h.branch? 0] at hfilled
    exact (Option.some.inj hfilled).symm
  · rintro rfl
    exact h.fill_self

namespace Editor

variable {e : Editor} {anchor focus : Int}

/-- The atoms beside the selected ones in their branch. -/
def unselectedAtoms (e : Editor) : List Atom :=
  splice ((e.selection.startPath.branch? e.root).getD []) e.selection.startIndex
    e.selection.stopIndex []

theorem SelectsBetween.unselectedAtoms_eq (h : e.SelectsBetween q slot owner before after) :
    e.unselectedAtoms = before ++ after := by
  rw [unselectedAtoms, h.startPath_eq, h.branch.branch?, Option.getD_some, h.startIndex_eq,
    h.stopIndex_eq, splice_append_append, List.append_nil]

/-! ## Wrapping -/

/-- A wrapper took the place of the selected atoms between what stays in their branch, and the caret is
behind it. -/
structure WrapsSelection (e wrapped : Editor) (kind : Kind) (inner : Slot) (q : Path) (slot : Slot)
    (front : List Atom) (w : Atom) (back : List Atom) : Prop where
  isWrapper : IsWrapper kind inner e.selectedAtoms w
  root_eq : wrapped.root = q.fill slot (front ++ [w] ++ back) e.root
  selection_eq : wrapped.selection = Selection.caret (q.child slot front.length)
  sound : wrapped.Sound

/-- What a fragment that wraps its argument stands for. -/
theorem exists_standsFor_wraps (hw : Wraps source kind inner) (ht : e.inText = false)
    (hne : content ≠ []) (format : InsertFormat) :
    ∃ w, (e.standsFor source format content).1 = [w] ∧ IsWrapper kind inner content w := by
  obtain ⟨c, d, rest, hsource⟩ := hw.exists_toList
  obtain ⟨w, hmade, hwrapper⟩ := hw.exists_wrapper hne e.supply
  have htext : e.textAtoms source format .math [content] = e.readFragment source .math [content] := by
    unfold textAtoms
    rw [hsource]
    cases format <;> rfl
  refine ⟨w, ?_, hwrapper⟩
  unfold standsFor
  simp only [ht, Bool.false_eq_true, if_false, htext]
  exact hmade

theorem Sound.selectedAtoms_ne_nil (h : e.Sound) (hc : e.selection.isCollapsed = false) :
    e.selectedAtoms ≠ [] := by
  intro hnil
  obtain ⟨q, slot, owner, atoms, anchor, focus, hsel⟩ := h.exists_selectsIn
  obtain ⟨before, after, -, hbetween⟩ := hsel.exists_selectsBetween
  have hstart := hbetween.startIndex_eq
  have hstop := hbetween.stopIndex_eq
  obtain ⟨hmin, hmax⟩ := hsel.indices
  rw [hnil, List.length_nil] at hstop
  have heq : anchor = focus := by omega
  rw [hsel.selection_eq, heq] at hc
  exact absurd hc (by simp [Selection.isCollapsed])

/-- A fragment that wraps its argument puts a wrapper in the place of the selected atoms, and the caret
behind it. -/
theorem Sound.insert_wrapper (h : e.Sound) (ht : e.inText = false)
    (hc : e.selection.isCollapsed = false)
    (hselected : ∀ a ∈ e.selectedAtoms, a.isPlaceholder = false)
    (hw : Wraps source kind inner) (format : InsertFormat) :
    ∃ q slot owner before after front back w wrapped,
      e.SelectsBetween q slot owner before after ∧
      besideInserted before after = (front, back) ∧
      e.insert source ⟨.after, format⟩ = .done wrapped ∧
      e.WrapsSelection wrapped kind inner q slot front w back := by
  obtain ⟨q, slot, owner, atoms, anchor, focus, hsel⟩ := h.exists_selectsIn
  obtain ⟨before, after, rfl, hbetween⟩ := hsel.exists_selectsBetween
  obtain ⟨parts, hdivides, hwf, e', hopened, -, hinsert⟩ :=
    hsel.insert_eq h source ⟨.after, format⟩
  rw [hbetween.startIndex_eq, hbetween.stopIndex_eq] at hdivides
  obtain ⟨hbefore, hparts, rfl⟩ := hdivides.parts_eq
  have hne := h.selectedAtoms_ne_nil hc
  have hsome : parts.selected.all Atom.isPlaceholder = false := by
    rw [hparts, List.all_eq_false]
    obtain ⟨a, ha⟩ := List.exists_mem_of_ne_nil _ hne
    exact ⟨a, ha, by simp [hselected a ha]⟩
  -- What is selected is the argument, so the text takes nothing else.
  have himplicit : parts.implicit = [] :=
    hdivides.implicit_eq_nil (by simp [InsertionParts.takesImplicit, hsome])
  have hargument : parts.argument = e.selectedAtoms := by
    rw [InsertionParts.argument, hsome, if_neg Bool.false_ne_true, hparts]
  rw [himplicit, List.append_nil] at hbefore
  subst hbefore
  obtain ⟨w, hmade, hwrapper⟩ := exists_standsFor_wraps hw ht hne format
  rw [hargument, hmade] at hwf hinsert
  obtain ⟨hanswer, hroot, hselection⟩ := hopened.insertAtoms_made hwf (List.cons_ne_nil w []) .after
  have hsound := (h.insert source ⟨.after, format⟩).2
  rw [hinsert] at hsound
  refine ⟨q, slot, owner, parts.before, parts.after, parts.front [w], parts.back [w], w,
    (e'.insertAtoms [w] .after).state, hbetween, besideInserted_eq parts (List.cons_ne_nil w []), ?_,
    hwrapper, hroot, ?_, hsound⟩
  · rw [hinsert]
    exact congrArg (Outcome.mk _) hanswer
  · rw [hselection]
    simp [insertedSelection]

/-! ## Unwrapping -/

/-- At the start of what is unwrapped, deleting replaces the atom by what it holds. -/
theorem deleteAtBranchStart_unwrapped (hb : IsBranch root q slot owner atoms)
    (hr : e.root = q.fill slot (front ++ [w] ++ back) root) (hs : inner.isScript = false)
    (hu : isUnwrappedAt w inner = true) :
    e.deleteAtBranchStart ((q.child slot front.length).child inner leadingGap) =
      e.unwrapAtom (q.child slot front.length) inner := by
  have hat := hb.atom?_of_eq_fill hr
  unfold deleteAtBranchStart
  simp only [Path.parent_child, Path.isRoot_child, Path.slot?_child, hat, hs, hu, Bool.false_eq_true,
    if_false, if_true]

/-- An atom that is unwrapped leaves what it holds in its place, apart from placeholders. -/
theorem root_unwrapAtom (hb : IsBranch root q slot owner atoms)
    (hr : e.root = q.fill slot (front ++ [w] ++ back) root) (hs : w.hasScripts = false)
    (hne : withoutPlaceholders w.children ≠ []) (inner : Slot) :
    (e.unwrapAtom (q.child slot front.length) inner).root =
      q.fill slot (front ++ withoutPlaceholders w.children ++ back) root := by
  have hat := hb.atom?_of_eq_fill hr
  have hunwrapped : (q.child slot front.length).modifyBranch
      (fun b => splice b front.length (front.length + 1) (contentOf w (unwrappedSlots w))) e.root =
        q.fill slot (front ++ withoutPlaceholders w.children ++ back) root := by
    have hsplice := splice_append_append front [w] back (withoutPlaceholders w.children)
    rw [List.length_singleton] at hsplice
    rw [hr, Path.modifyBranch_child (hb.fill _), hb.fill_fill, contentOf_unwrappedSlots hs, hsplice]
  have hfilled := hb.fill (front ++ withoutPlaceholders w.children ++ back)
  rw [← hunwrapped] at hfilled ⊢
  have hcontent : front ++ withoutPlaceholders w.children ++ back ≠ [] := fun hnil =>
    hne (List.append_eq_nil_iff.1 (List.append_eq_nil_iff.1 hnil).1).2
  rw [unwrapAtom_child hat]
  exact congrArg Editor.root (settleCaret_of_ne_nil (e := e.withRoot _) hfilled hcontent _ _)

/-- Deleting at the start of what a wrapper holds puts that in the place of the wrapper. -/
theorem root_deleteAtBranchStart_wrapper (hb : IsBranch root q slot owner atoms)
    (hr : e.root = q.fill slot (front ++ [w] ++ back) root) (hw : Wraps source kind inner)
    (hwrapper : IsWrapper kind inner content w) (hne : content ≠ [])
    (hcontent : ∀ a ∈ content, a.isPlaceholder = false) :
    (e.deleteAtBranchStart ((q.child slot front.length).child inner leadingGap)).root =
      q.fill slot (front ++ content ++ back) root := by
  have hscript := hw.isScript_eq_false
  have hkept : withoutPlaceholders w.children = content := by
    rw [hwrapper.children_eq, withoutPlaceholders_eq_self hcontent]
  rw [deleteAtBranchStart_unwrapped hb hr hscript (hw.isUnwrappedAt hwrapper),
    root_unwrapAtom hb hr (hwrapper.hasScripts_eq_false hscript) (hkept ▸ hne), hkept]

/-- The caret goes to the start of what the wrapper holds, and from there one deletion puts that in the
place of the wrapper. -/
theorem WrapsSelection.unwrap {wrapped : Editor}
    (h : e.WrapsSelection wrapped kind inner q slot front w back)
    (hbetween : e.SelectsBetween q slot owner before after) (hw : Wraps source kind inner)
    (hne : e.selectedAtoms ≠ []) (hselected : ∀ a ∈ e.selectedAtoms, a.isPlaceholder = false) :
    ∃ atStart unwrapped,
      wrapped.select ((q.child slot front.length).child inner leadingGap)
        ((q.child slot front.length).child inner leadingGap) = .done atStart ∧
      atStart.selection =
        Selection.caret ((q.child slot front.length).child inner leadingGap) ∧
      atStart.delete .backward 1 = .done unwrapped ∧
      unwrapped.root = q.fill slot (front ++ e.selectedAtoms ++ back) e.root := by
  have hinside : IsBranch wrapped.root (q.child slot front.length) inner w e.selectedAtoms := by
    refine ⟨hbetween.branch.atom?_of_eq_fill h.root_eq, h.isWrapper.branch_eq, ?_⟩
    rw [h.isWrapper.kind_eq]
    exact hw.isGridBody_eq_false
  have hstart := hinside.isPosition (isOffset_leadingGap e.selectedAtoms)
  have hselect := select_self hstart
  rw [Path.withOffset_child, ite_self] at hselect
  have hdelete := (h.sound.setCaret hstart).delete_branchStart hinside rfl
  refine ⟨_, _, hselect, rfl, hdelete, ?_⟩
  rw [root_leaveEmptyCommand]
  apply root_deleteAtBranchStart_wrapper hbetween.branch _ hw h.isWrapper hne hselected
  exact h.root_eq

/-- The formula is given back, identities included, exactly if the rest of the branch was not a lone
placeholder. -/
theorem SelectsBetween.fill_eq_root_iff (h : e.SelectsBetween q slot owner before after)
    (hbeside : besideInserted before after = (front, back)) :
    q.fill slot (front ++ e.selectedAtoms ++ back) e.root = e.root ↔
      isPlaceholderOnly e.unselectedAtoms = false := by
  rw [h.branch.fill_eq_self_iff, h.unselectedAtoms_eq]
  exact append_besideInserted_eq_iff hbeside

/-- A fragment that wraps its argument makes one atom of the selected ones, which holds them with their
identities and in their order. Going to the start of what it holds and deleting once puts them back in
its place. That gives the formula back, identities included, exactly if the rest of the branch was not
a lone placeholder, which gives way to what is inserted. -/
theorem Sound.wrap_then_delete (h : e.Sound) (ht : e.inText = false)
    (hc : e.selection.isCollapsed = false)
    (hselected : ∀ a ∈ e.selectedAtoms, a.isPlaceholder = false)
    (hw : Wraps source kind inner) (format : InsertFormat) :
    ∃ q slot owner before after front back w wrapped atStart unwrapped,
      e.SelectsBetween q slot owner before after ∧
      besideInserted before after = (front, back) ∧
      e.insert source ⟨.after, format⟩ = .done wrapped ∧
      e.WrapsSelection wrapped kind inner q slot front w back ∧
      wrapped.select ((q.child slot front.length).child inner leadingGap)
        ((q.child slot front.length).child inner leadingGap) = .done atStart ∧
      atStart.selection =
        Selection.caret ((q.child slot front.length).child inner leadingGap) ∧
      atStart.delete .backward 1 = .done unwrapped ∧
      unwrapped.root = q.fill slot (front ++ e.selectedAtoms ++ back) e.root ∧
      (unwrapped.root = e.root ↔ isPlaceholderOnly e.unselectedAtoms = false) := by
  obtain ⟨q, slot, owner, before, after, front, back, w, wrapped, hbetween, hbeside, hinsert, hwraps⟩ :=
    h.insert_wrapper ht hc hselected hw format
  obtain ⟨atStart, unwrapped, hselect, hstart, hdelete, hroot⟩ :=
    hwraps.unwrap hbetween hw (h.selectedAtoms_ne_nil hc) hselected
  refine ⟨q, slot, owner, before, after, front, back, w, wrapped, atStart, unwrapped, hbetween,
    hbeside, hinsert, hwraps, hselect, hstart, hdelete, hroot, ?_⟩
  rw [hroot]
  exact hbetween.fill_eq_root_iff hbeside

theorem wrap_then_delete_secondLetterSelected :
    secondLetterSelected.Sound ∧ Wraps "\\sqrt\x7b#0\x7d" .radical .radicand ∧
    ∃ p wrapped atStart unwrapped,
      secondLetterSelected.insert "\\sqrt\x7b#0\x7d" ⟨.after, .auto⟩ = .done wrapped ∧
      wrapped.select p p = .done atStart ∧ atStart.delete .backward 1 = .done unwrapped ∧
      unwrapped.root = secondLetterSelected.root := by
  have hsound : secondLetterSelected.Sound := ⟨rfl, by decide, rfl⟩
  have hfind : Latex.Vocabulary.find? "sqrt" = some _ := rfl
  have hw : Wraps "\\sqrt\x7b#0\x7d" .radical .radicand := .command hfind rfl
  obtain ⟨_, _, _, _, _, _, _, _, wrapped, atStart, unwrapped, -, -, hinsert, -, hselect, -, hdelete, -,
      hroot⟩ := hsound.wrap_then_delete (by decide) (by decide) (by decide) hw .auto
  exact ⟨hsound, hw, _, wrapped, atStart, unwrapped, hinsert, hselect, hdelete, hroot.2 (by decide)⟩

/-- A selected letter before a placeholder. -/
def letterBeforePlaceholder : Editor :=
  let atoms := [Atom.leaf 1 .ordinary (some "x") (some 'x'), .placeholder 2]
  (ofRoot (.node ⟨0, .root, none, none, Marks.none⟩ { Branches.none with body := some atoms })
    3).selectAtom (Path.inRoot 0)

/-- The placeholder that gave way to a wrapper is not brought back. -/
theorem unwrapped_ne_letterBeforePlaceholder :
    letterBeforePlaceholder.Sound ∧ letterBeforePlaceholder.inText = false ∧
    letterBeforePlaceholder.selection.isCollapsed = false ∧
    (∀ a ∈ letterBeforePlaceholder.selectedAtoms, a.isPlaceholder = false) ∧
    ∃ wrapped atStart unwrapped,
      letterBeforePlaceholder.insert Latex.bracedArgument ⟨.after, .latex⟩ = .done wrapped ∧
      wrapped.select ((Path.inRoot 0).child .body leadingGap)
        ((Path.inRoot 0).child .body leadingGap) = .done atStart ∧
      atStart.delete .backward 1 = .done unwrapped ∧
      unwrapped.root ≠ letterBeforePlaceholder.root := by
  have hsound : letterBeforePlaceholder.Sound := ⟨rfl, by decide, rfl⟩
  have hselected : ∀ a ∈ letterBeforePlaceholder.selectedAtoms, a.isPlaceholder = false := by decide
  obtain ⟨q, slot, owner, before, after, front, back, w, wrapped, hbetween, hbeside, hinsert, hwraps⟩ :=
    hsound.insert_wrapper (by decide) (by decide) hselected .group .latex
  obtain ⟨atStart, unwrapped, hselect, -, hdelete, hroot⟩ :=
    hwraps.unwrap hbetween .group (by decide) hselected
  have hlone : isPlaceholderOnly letterBeforePlaceholder.unselectedAtoms = true := by decide
  obtain ⟨rfl, rfl, -⟩ : Path.root = q ∧ Slot.body = slot ∧ _ :=
    Path.child_injective hbetween.startPath_eq
  obtain ⟨rfl, rfl⟩ : [] = front ∧ [] = back := by
    rw [besideInserted, ← hbetween.unselectedAtoms_eq, hlone, if_pos rfl] at hbeside
    exact Prod.mk.inj hbeside
  refine ⟨hsound, by decide, by decide, hselected, wrapped, atStart, unwrapped, hinsert, hselect,
    hdelete, ?_⟩
  rw [hroot]
  intro heq
  rw [(hbetween.fill_eq_root_iff hbeside).1 heq] at hlone
  cases hlone

end Editor

end FormulaEditor

import FormulaEditor.Proofs.Editor.Losing
import FormulaEditor.Proofs.Editor.Operations
import FormulaEditor.Proofs.Editor.Replacing

/-!
# A selection that becomes a script

Promoting a selection moves the selected atoms into a script of the atom before them. The script is
made with a placeholder, which gives way to what is moved. Deleting at the start of the script brings
the atoms back behind their base. The main statement is `Sound.promote_then_delete`.
-/

namespace FormulaEditor

variable {root owner base a : Atom} {q : Path} {slot inner : Slot}
  {atoms before selected after script content : List Atom}

theorem withoutPlaceholders_eq_self (h : ∀ a ∈ atoms, a.isPlaceholder = false) :
    withoutPlaceholders atoms = atoms :=
  List.filter_eq_self.2 fun a ha => by rw [h a ha, Bool.not_false]

theorem IsBranch.atom?_leadingGap (h : IsBranch root q slot owner atoms) :
    (q.child slot leadingGap).atom? root = none := by
  rw [Path.atom?_child, h.atom?_eq, Option.bind_some, h.branch_eq, Option.bind_some,
    Step.index?_leadingGap, Option.bind_none]

theorem getElem?_append_cons (before : List Atom) (a : Atom) (after : List Atom) :
    (before ++ [a] ++ after)[before.length]? = some a := by
  rw [List.append_assoc, List.getElem?_append_right (Nat.le_refl _), Nat.sub_self]
  rfl

theorem set_append_cons (before : List Atom) (a b : Atom) (after : List Atom) :
    (before ++ [a] ++ after).set before.length b = before ++ [b] ++ after := by
  rw [List.append_assoc, List.append_assoc, List.set_append_right _ _ (Nat.le_refl _), Nat.sub_self]
  rfl

/-- Changing an atom of a branch that was filled. -/
theorem IsBranch.modifyAtom_fill (h : IsBranch root q slot owner atoms) (before : List Atom)
    (a : Atom) (after : List Atom) (f : Atom → Atom) :
    (q.child slot before.length).modifyAtom f (q.fill slot (before ++ [a] ++ after) root) =
      q.fill slot (before ++ [f a] ++ after) root := by
  rw [Path.modifyAtom_child (h.fill _) (getElem?_append_cons before a after), set_append_cons,
    h.fill_fill]

theorem IsBranch.atom?_fill (h : IsBranch root q slot owner atoms) :
    (q.child slot before.length).atom? (q.fill slot (before ++ [a] ++ after) root) = some a := by
  rw [(h.fill _).atom?, getElem?_append_cons]

theorem IsBranch.atom?_of_eq_fill (h : IsBranch root q slot owner atoms) {root' : Atom}
    (hr : root' = q.fill slot (before ++ [a] ++ after) root) :
    (q.child slot before.length).atom? root' = some a :=
  hr ▸ h.atom?_fill

namespace Editor

variable {e : Editor} {anchor focus : Int}

/-! ## Deleting at the start of a branch -/

/-- At the start of a branch, one deletion backward does what is done there. -/
theorem Sound.delete_branchStart (h : e.Sound) (hb : IsBranch e.root q slot owner atoms)
    (hc : e.selection = Selection.caret (q.child slot leadingGap)) :
    e.delete .backward 1 =
      .done (e.deleteAtBranchStart (q.child slot leadingGap)).leaveEmptyCommand := by
  have hcaret : e.caret = q.child slot leadingGap := congrArg Selection.focus hc
  have hcollapsed : e.selection.isCollapsed = true := by
    rw [hc]
    exact beq_self_eq_true _
  have honce : e.deleteOnce .backward = e.deleteAtBranchStart (q.child slot leadingGap) := by
    show e.deleteBackward = _
    unfold Editor.deleteBackward
    simp only [hcollapsed, hcaret, hb.atom?_leadingGap, Bool.not_true, Bool.false_eq_true, if_false]
  unfold Editor.delete
  rw [h.whenValid]
  exact congrArg (fun e : Editor => Outcome.done e.leaveEmptyCommand) honce

/-- At the start of a script, deleting dissolves the script. -/
theorem deleteAtBranchStart_script (hb : IsBranch root q inner owner atoms)
    (hr : e.root = q.fill inner (before ++ [a] ++ after) root) (hs : slot.isScript = true) :
    e.deleteAtBranchStart ((q.child inner before.length).child slot leadingGap) =
      e.hoistScript (q.child inner before.length) slot := by
  have hat := hb.atom?_of_eq_fill hr
  unfold deleteAtBranchStart
  simp only [Path.parent_child, Path.isRoot_child, Path.slot?_child, hat, hs, Bool.false_eq_true,
    if_false, if_true]

/-- A script that is dissolved comes behind its base. -/
theorem root_hoistScript (hb : IsBranch root q inner owner atoms)
    (hr : e.root = q.fill inner (before ++ [a] ++ after) root) (hs : slot.isScript = true)
    (hscript : a.branch slot = some script) :
    (e.hoistScript (q.child inner before.length) slot).root =
      q.fill inner (before ++ [a.putBranch slot none] ++ withoutPlaceholders script ++ after)
        root := by
  have hopt := Slot.isOptional_of_isScript hs
  have hat := hb.atom?_of_eq_fill hr
  have hdetached : (q.child inner before.length).modifyAtom (fun a => (a.removeBranch slot).2)
      e.root = q.fill inner (before ++ [a.putBranch slot none] ++ after) root := by
    simp only [hr, hb.modifyAtom_fill, Atom.removeBranch_of_isOptional a hopt]
  have hgap : splice (before ++ [a.putBranch slot none] ++ after) (before.length + 1)
      (before.length + 1) (withoutPlaceholders script) =
        before ++ [a.putBranch slot none] ++ withoutPlaceholders script ++ after := by
    have h := splice_append_append (before ++ [a.putBranch slot none]) [] after
      (withoutPlaceholders script)
    simpa only [List.length_append, List.length_cons, List.length_nil, Nat.add_zero,
      List.append_nil] using h
  unfold hoistScript
  simp only [Path.index?_child, Step.index?_natCast, hat, Option.bind_some,
    Atom.removeBranch_of_isOptional a hopt, hscript, Option.getD_some, setCaret, withRoot, hdetached]
  rw [Path.modifyBranch_child (hb.fill _), hb.fill_fill, hgap]

/-! ## Promoting -/

/-- The operations that move a selection into a script, with the slot of that script. -/
def scriptPromotions : List (Slot × (Editor → Outcome Editor Unit)) :=
  [(.superscript, promoteToSuperscript), (.subscript, promoteToSubscript)]

theorem eq_promote_of_mem {promotion : Editor → Outcome Editor Unit}
    (h : (slot, promotion) ∈ scriptPromotions) :
    slot.isScript = true ∧ promotion = fun e => e.whenValid fun e => e.promote slot := by
  simp only [scriptPromotions, List.mem_cons, List.not_mem_nil, or_false, Prod.mk.injEq] at h
  rcases h with ⟨rfl, rfl⟩ | ⟨rfl, rfl⟩ <;> exact ⟨rfl, rfl⟩

/-- The selected atoms in their branch, between those that are not selected. -/
structure SelectsBetween (e : Editor) (q : Path) (inner : Slot) (owner : Atom)
    (before after : List Atom) : Prop where
  branch : IsBranch e.root q inner owner (before ++ e.selectedAtoms ++ after)
  startPath_eq : e.selection.startPath = q.child inner ((before.length : Int) - 1)
  startIndex_eq : e.selection.startIndex = before.length
  stopIndex_eq : e.selection.stopIndex = before.length + e.selectedAtoms.length

theorem SelectsIn.exists_selectsBetween (hsel : e.SelectsIn q inner owner atoms anchor focus) :
    ∃ before after, atoms = before ++ e.selectedAtoms ++ after ∧
      e.SelectsBetween q inner owner before after := by
  obtain ⟨hstart, -, -, -⟩ := hsel.start_stop
  obtain ⟨hle, hlen⟩ := hsel.startIndex_le
  obtain ⟨hindex, -⟩ := hsel.indices
  have hselected := hsel.selectedAtoms_eq
  have hlength : (atoms.take e.selection.startIndex).length = e.selection.startIndex :=
    List.length_take_of_le (Nat.le_trans hle hlen)
  have hcount : e.selectedAtoms.length = e.selection.stopIndex - e.selection.startIndex := by
    rw [hselected, length_slice hlen]
  have hatoms : atoms.take e.selection.startIndex ++ e.selectedAtoms ++
      atoms.drop e.selection.stopIndex = atoms := by
    rw [hselected]
    exact splice_slice atoms hle
  refine ⟨_, _, hatoms.symm, ?_, ?_, hlength.symm, ?_⟩
  · rw [hatoms]
    exact hsel.branch
  · rw [hstart, hlength, hindex, Int.add_sub_cancel]
  · omega

/-- The atom that a selection starts behind is the last one before it. -/
theorem Sound.exists_selectsBehind (h : e.Sound)
    (hbase : e.selection.startPath.atom? e.root = some base) :
    ∃ q inner owner before after, e.SelectsBetween q inner owner (before ++ [base]) after := by
  obtain ⟨q, inner, owner, atoms, anchor, focus, hsel⟩ := h.exists_selectsIn
  obtain ⟨before, after, -, hbetween⟩ := hsel.exists_selectsBetween
  rw [hbetween.startPath_eq] at hbase
  -- At the start of a branch there is no atom for the selection to start behind.
  rcases List.eq_nil_or_concat before with rfl | ⟨front, last, rfl⟩
  · have hnone : (q.child inner (((([] : List Atom).length : Nat) : Int) - 1)).atom? e.root = none :=
      hbetween.branch.atom?_leadingGap
    rw [hnone] at hbase
    cases hbase
  · rw [List.concat_eq_append] at hbetween hbase
    have hlast : (((front ++ [last]).length : Nat) : Int) - 1 = front.length := by simp
    rw [hlast, hbetween.branch.atom?, List.append_assoc, getElem?_append_cons] at hbase
    cases hbase
    exact ⟨q, inner, owner, front, after, hbetween⟩

namespace SelectsBetween

variable (h : e.SelectsBetween q inner owner (before ++ [base]) after)

include h

theorem startPath_concat : e.selection.startPath = q.child inner before.length := by
  rw [h.startPath_eq, List.length_append, List.length_singleton, Int.natCast_add, Int.natCast_one,
    Int.add_sub_cancel]

/-- The selected atoms are taken out, and go into a script of the atom before them. -/
theorem takeForScript_eq (hk : base.kind.allowsScripts = true) :
    e.takeForScript (before ++ [base] ++ e.selectedAtoms ++ after) =
      (q.child inner before.length,
        e.withRoot (q.fill inner (before ++ [base] ++ after) e.root)) := by
  have hat : (q.child inner before.length).atom? e.root = some base := by
    rw [h.branch.atom?, List.append_assoc, getElem?_append_cons]
  unfold takeForScript
  simp only [h.startPath_concat, hat, Option.any_some, hk, if_true, h.startIndex_eq, h.stopIndex_eq,
    splice_append_append, List.append_nil, putBranch, Path.putBranch_child h.branch]

/-- The script of the base gets what was selected in place of its first placeholder. -/
theorem promote_eq (hc : e.selection.isCollapsed = false) (hk : base.kind.allowsScripts = true)
    (hs : slot.isScript = true) (hn : base.branch slot = none) :
    ∃ e', e.promote slot = .done e' ∧
      e'.root = q.fill inner (before ++ [base.putBranch slot (some e.selectedAtoms)] ++ after)
        e.root ∧
      e'.selection = Selection.caret
        ((q.child inner before.length).child slot (lastOffset e.selectedAtoms)) := by
  have hbranch := h.branch.branch? before.length
  have hensured : base.ensureBranch slot e.supply =
      base.putBranch slot (some [Atom.placeholder e.supply]) := by
    rw [Atom.ensureBranch_of_isScript hs hk, if_pos hn]
  have hplaceholder : isPlaceholderOnly [Atom.placeholder e.supply] = true := rfl
  have hinside : IsBranch (q.fill inner
      (before ++ [base.putBranch slot (some [Atom.placeholder e.supply])] ++ after) e.root)
      (q.child inner before.length) slot
      (base.putBranch slot (some [Atom.placeholder e.supply])) [Atom.placeholder e.supply] :=
    ⟨h.branch.atom?_fill, Atom.branch_putBranch_self _ _ _, Atom.isGridBody_of_isScript _ hs⟩
  have hfilled := h.branch.modifyAtom_fill before
    (base.putBranch slot (some [Atom.placeholder e.supply])) after
    fun a => a.putBranch slot (some e.selectedAtoms)
  rw [Atom.putBranch_putBranch] at hfilled
  unfold Editor.promote
  simp only [hc, Bool.false_eq_true, if_false, h.startPath_concat, hbranch, h.startIndex_eq,
    h.stopIndex_eq, slice_append_append, h.takeForScript_eq hk, ensureScript, mint, newIdentity_apply, withRoot,
    h.branch.modifyAtom_fill, hensured, hinside.atom?_eq, hinside.branch_eq, Option.bind_some,
    hplaceholder, if_true]
  refine ⟨_, rfl, ?_, rfl⟩
  exact (Path.putBranch_child hinside _ _).trans hfilled

end SelectsBetween

/-- A promotion makes the selected atoms the script of the atom before them, with their identities,
and changes nothing else, if that atom may have the script and has none. Going to the start of the
script and deleting once gives the formula back, identities included, if no placeholder was
selected. -/
theorem Sound.promote_then_delete (h : e.Sound) (hc : e.selection.isCollapsed = false)
    (hselected : ∀ a ∈ e.selectedAtoms, a.isPlaceholder = false)
    (hbase : e.selection.startPath.atom? e.root = some base)
    (hk : base.kind.allowsScripts = true) (hn : base.branch slot = none)
    {promotion : Editor → Outcome Editor Unit} (hp : (slot, promotion) ∈ scriptPromotions) :
    ∃ q inner owner before after promoted atStart restored,
      e.SelectsBetween q inner owner (before ++ [base]) after ∧
      promotion e = .done promoted ∧
      promoted.root =
        q.fill inner (before ++ [base.putBranch slot (some e.selectedAtoms)] ++ after) e.root ∧
      promoted.moveToGroupStart = .done atStart ∧
      atStart.selection =
        Selection.caret ((q.child inner before.length).child slot leadingGap) ∧
      atStart.delete .backward 1 = .done restored ∧
      restored.root = e.root := by
  obtain ⟨hs, rfl⟩ := eq_promote_of_mem hp
  obtain ⟨q, inner, owner, before, after, hbehind⟩ := h.exists_selectsBehind hbase
  obtain ⟨promoted, hpromoted, hroot, hselection⟩ := hbehind.promote_eq hc hk hs hn
  have hsound : promoted.Sound := by
    have hcarried := (h.promote hs).2
    rwa [hpromoted] at hcarried
  have hscript : IsBranch promoted.root (q.child inner before.length) slot
      (base.putBranch slot (some e.selectedAtoms)) e.selectedAtoms := by
    exact ⟨hbehind.branch.atom?_of_eq_fill hroot, Atom.branch_putBranch_self _ _ _,
      Atom.isGridBody_of_isScript _ hs⟩
  have hcaret : promoted.caret.withOffset leadingGap =
      (q.child inner before.length).child slot leadingGap := by
    rw [Editor.caret, hselection]
    exact Path.withOffset_child _ _ _ _
  have hmoved : promoted.moveToGroupStart =
      .done (promoted.setCaret ((q.child inner before.length).child slot leadingGap)) := by
    unfold Editor.moveToGroupStart
    rw [hsound.whenValid, hcaret]
  have hatStart := hsound.setCaret (hscript.isPosition (isOffset_leadingGap _))
  have hdeleted := hatStart.delete_branchStart hscript rfl
  have hroot' : (promoted.setCaret ((q.child inner before.length).child slot leadingGap)).root =
      q.fill inner (before ++ [base.putBranch slot (some e.selectedAtoms)] ++ after) e.root := hroot
  refine ⟨q, inner, owner, before, after, promoted, _, _, hbehind, ?_, hroot, hmoved, rfl, hdeleted,
    ?_⟩
  · exact (h.whenValid _).trans hpromoted
  · rw [root_leaveEmptyCommand, deleteAtBranchStart_script hbehind.branch hroot' hs,
      root_hoistScript hbehind.branch hroot' hs (Atom.branch_putBranch_self _ _ _),
      Atom.putBranch_putBranch, ← hn, Atom.putBranch_branch,
      withoutPlaceholders_eq_self hselected]
    exact hbehind.branch.fill_self

/-- Two letters with the second one selected. -/
def secondLetterSelected : Editor :=
  let letters := [Atom.leaf 1 .ordinary (some "a") (some 'a'), .leaf 2 .ordinary (some "b") (some 'b')]
  (ofRoot (.node ⟨0, .root, none, none, Marks.none⟩ { Branches.none with body := some letters })
    3).selectAtom (Path.inRoot 1)

theorem promote_then_delete_secondLetterSelected :
    secondLetterSelected.Sound ∧ ∃ promoted atStart restored,
      secondLetterSelected.promoteToSuperscript = .done promoted ∧
      promoted.moveToGroupStart = .done atStart ∧ atStart.delete .backward 1 = .done restored ∧
      restored.root = secondLetterSelected.root := by
  have hsound : secondLetterSelected.Sound := ⟨rfl, by decide, rfl⟩
  have hbase : secondLetterSelected.selection.startPath.atom? secondLetterSelected.root =
      some (.leaf 1 .ordinary (some "a") (some 'a')) := rfl
  obtain ⟨q, inner, owner, before, after, promoted, atStart, restored, -, hpromoted, -, hmoved, -,
      hdeleted, hroot⟩ :=
    hsound.promote_then_delete (by decide) (by decide) hbase rfl rfl List.mem_cons_self
  exact ⟨hsound, promoted, atStart, restored, hpromoted, hmoved, hdeleted, hroot⟩

end Editor

end FormulaEditor

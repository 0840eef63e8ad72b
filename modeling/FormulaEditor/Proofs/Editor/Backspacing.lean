import Mathlib.Data.Nat.Find
import Mathlib.Data.Prod.Lex
import Mathlib.Logic.Function.Iterate
import Mathlib.Order.WellFounded
import FormulaEditor.Proofs.Editor.Growing
import FormulaEditor.Proofs.Editor.InsertingText
import FormulaEditor.Proofs.Editor.Promoting
import FormulaEditor.Proofs.Editor.Resting
import FormulaEditor.Proofs.Editor.Scripting
import FormulaEditor.Proofs.Editor.Stepping
import FormulaEditor.Proofs.Formula.Bulk

/-!
# Backspacing to the start

Deleting backward takes atoms out, dissolves an atom or a script into the branch around it, or only
moves the caret. It never runs in circles: the bulk of the formula shrinks, or the formula stays alike
and fewer stops are before the caret, where all stops count as before a selection and before a caret
that is at no stop. At the start of the formula nothing happens any more, so that is where
backspacing ends.
-/

namespace FormulaEditor

namespace Editor

open Atom (bulk)

/-- The editor after one atom was deleted backward a number of times. -/
def backspaced (times : Nat) : Editor → Editor :=
  (fun e => (e.delete .backward 1).state)^[times]

/-- There is no selection, and the caret is at the start of the formula. -/
def AtStart (e : Editor) : Prop :=
  e.selection = Selection.caret (Path.inRoot leadingGap)

instance (e : Editor) : Decidable e.AtStart :=
  inferInstanceAs (Decidable (_ = _))

/-- How many stops are before the caret: all of them if there is a selection, or if the caret is at no
stop. -/
def stopsBefore (e : Editor) : Nat :=
  if e.selection.isCollapsed then e.root.caretStops.idxOf e.caret else e.root.caretStops.length

/-- What is left to delete, and then how far the caret is from the start. -/
def remaining (e : Editor) : Nat ×ₗ Nat :=
  toLex (bulk [e.root], e.stopsBefore)

variable {e e' : Editor} {q : Path} {slot : Slot} {owner a : Atom} {atoms content : List Atom} {i : Nat}

/-! ## What is left to delete -/

theorem Alike.remaining_eq (h : e.Alike e') : e.remaining = e'.remaining := by
  unfold remaining stopsBefore caret
  rw [Atom.bulk_of_bare_eq h.root, Atom.caretStops_of_bare_eq h.root, h.selection]

theorem remaining_lt_of_bulk (h : bulk [e'.root] < bulk [e.root]) : e'.remaining < e.remaining :=
  Prod.Lex.toLex_lt_toLex.2 (.inl h)

theorem remaining_lt_of_stopsBefore (hr : e'.root.bare = e.root.bare)
    (h : e'.stopsBefore < e.stopsBefore) : e'.remaining < e.remaining :=
  Prod.Lex.toLex_lt_toLex.2 (.inr ⟨Atom.bulk_of_bare_eq hr, h⟩)

theorem AtStop.stopsBefore_lt (h : e.AtStop) : e.stopsBefore < e.root.caretStops.length := by
  rw [stopsBefore, if_pos h.isCollapsed]
  exact List.idxOf_lt_length_of_mem h.mem_caretStops

/-- A caret at a stop is closer to the start than where all stops count as before it. -/
theorem AtStop.remaining_lt (h : e'.AtStop) (hr : e'.root.bare = e.root.bare)
    (hall : e.stopsBefore = e.root.caretStops.length) : e'.remaining < e.remaining := by
  apply remaining_lt_of_stopsBefore hr
  rw [hall, ← Atom.caretStops_of_bare_eq hr]
  exact h.stopsBefore_lt

theorem stopsBefore_of_not_collapsed (hc : e.selection.isCollapsed = false) :
    e.stopsBefore = e.root.caretStops.length := by
  rw [stopsBefore, hc]
  rfl

theorem stopsBefore_of_not_mem (h : e.caret ∉ e.root.caretStops) :
    e.stopsBefore = e.root.caretStops.length := by
  unfold stopsBefore
  rw [List.idxOf_eq_length h, ite_self]

/-! ## Settling -/

theorem Opened.remaining_lt (h : e'.Opened e.root q slot owner atoms content)
    (hbulk : bulk content < bulk atoms) : e'.remaining < e.remaining := by
  have hroot := Atom.bulk_fill h.branch content
  apply remaining_lt_of_bulk
  rw [h.root_eq]
  omega

/-- A placeholder that comes back makes no difference, but the caret is before it. -/
theorem OpenedAtCaret.remaining_lt
    (h : e'.OpenedAtCaret e.root q slot owner atoms content leadingGap)
    (hback : content.map Atom.bare = atoms.map Atom.bare)
    (hall : e.stopsBefore = e.root.caretStops.length) : e'.remaining < e.remaining := by
  have hbare : e'.root.bare = e.root.bare := by
    rw [h.root_eq, Path.bare_fill_congr hback, h.branch.fill_self]
  have hstop : e'.AtStop := by
    refine ⟨h.isCollapsed, ?_⟩
    rw [h.caret_eq, Atom.caretStops_of_bare_eq hbare]
    exact h.branch.leadingGap_mem_caretStops h.isWellFormed
  exact hstop.remaining_lt hbare hall

theorem bulk_settled_nil_le (owner : Atom) (slot : Slot) (filler : Nat) :
    bulk (settled owner slot filler []) ≤ 1 := by
  unfold settled
  simp only [List.isEmpty_nil, if_true]
  split
  · exact Nat.le_of_eq (Atom.bulk_placeholder filler)
  · exact Nat.zero_le 1

/-- Where a branch has less bulk than before, less is left to delete once it is settled. A lone
placeholder may come back in place of another one: then the caret must have been behind all stops. -/
theorem Opened.remaining_settleCaret_lt (h : e'.Opened e.root q slot owner atoms content)
    {at' offset : Int} (ho : IsOffset content offset) (hbulk : bulk content < bulk atoms)
    (hlone : isPlaceholderOnly atoms = true → e.stopsBefore = e.root.caretStops.length) :
    (e'.settleCaret (q.child slot at') offset).remaining < e.remaining := by
  by_cases hne : content = []
  · subst hne
    cases ho.eq_leadingGap
    cases hopt : slot.isOptional with
    | true =>
        obtain ⟨q', slot', i, owner', atoms', -, hi, hb, hsettled⟩ :=
          h.openedAtCaret_dissolved hopt at' leadingGap
        have hset := Atom.bulk_set hi (owner.putBranch slot none)
        have howner := Atom.bulk_putBranch_none h.branch.branch_eq
        exact hsettled.toOpened.remaining_lt (by omega)
    | false =>
        have hsettled := h.openedAtCaret_settleCaret at' ho fun _ => hopt
        have hle := bulk_settled_nil_le owner slot e'.supply
        by_cases hlt : bulk (settled owner slot e'.supply []) < bulk atoms
        · exact hsettled.toOpened.remaining_lt hlt
        · have hback := Atom.map_bare_of_bulk_le_one
            (fun hnil => hlt (by rwa [hnil])) hle
          have hatoms : atoms.map Atom.bare = [Atom.placeholder 0] := by
            refine Atom.map_bare_of_bulk_le_one ?_ (by omega)
            rintro rfl
            exact Nat.not_lt_zero _ hbulk
          refine hsettled.remaining_lt (hback.trans hatoms.symm) (hlone ?_)
          rw [← isPlaceholderOnly_map_bare, hatoms]
          rfl
  · have hsettled := h.openedAtCaret_settleCaret at' ho fun hnil => absurd hnil hne
    rw [settled_of_ne_nil owner slot _ hne] at hsettled
    exact hsettled.toOpened.remaining_lt hbulk

/-! ## Taking atoms out -/

theorem Sound.remaining_removeSelection_lt (h : e.Sound)
    (hc : ¬e.selection.isCollapsed = true) : e.removeSelection.remaining < e.remaining := by
  obtain ⟨q, slot, owner, atoms, anchor, focus, hsel⟩ := h.exists_selectsIn
  obtain ⟨hle, hlen⟩ := hsel.startIndex_le
  have hlt := hsel.startIndex_lt hc
  have htaken : slice atoms e.selection.startIndex e.selection.stopIndex ≠ [] :=
    List.ne_nil_of_length_pos (by rw [length_slice hlen]; omega)
  have hcut := Atom.bulk_splice atoms [] hle
  have hpos := Atom.bulk_pos htaken
  rw [Atom.bulk_nil] at hcut
  rw [hsel.removeSelection_eq hc]
  exact ((h.opened hsel.branch).remove _ _ _).remaining_settleCaret_lt hsel.isOffset_removed
    (by omega) fun _ => stopsBefore_of_not_collapsed (Bool.eq_false_iff.2 hc)

theorem Sound.remaining_removeAtom_lt (h : e.Sound) (hp : e.caret = q.child slot i)
    (hb : IsBranch e.root q slot owner atoms) (hi : atoms[i]? = some a) :
    (e.removeAtom (q.child slot i)).remaining < e.remaining := by
  have herased := Atom.bulk_eraseIdx hi
  have hpos := Atom.bulk_pos (List.cons_ne_nil a [])
  rw [removeAtom_child]
  refine ((h.opened hb).removeAtom i).remaining_settleCaret_lt
    (isOffset_eraseIdx (Atom.lt_length_of_getElem?_eq_some hi)) (by omega) fun hlone => ?_
  -- Behind a lone placeholder the caret is at no stop.
  have hbehind : isBehindLonePlaceholder e.root e.caret = true := by
    rw [hp, hb.isBehindLonePlaceholder_iff]
    refine ⟨?_, hlone⟩
    simp only [leadingGap]
    omega
  apply stopsBefore_of_not_mem
  rw [h.caret_mem_caretStops_iff, hbehind]
  exact Bool.noConfusion

/-! ## Dissolving atoms -/

theorem bulk_withoutPlaceholders_le (atoms : List Atom) :
    bulk (withoutPlaceholders atoms) ≤ bulk atoms :=
  Atom.bulk_le_of_sublist List.filter_sublist

/-- An atom without scripts has more bulk than what it holds. -/
theorem bulk_contentOf_lt (hs : a.hasScripts = false) :
    bulk (contentOf a (unwrappedSlots a)) < bulk [a] := by
  have hcontent := bulk_withoutPlaceholders_le a.children
  have hown := Atom.one_le_ownBulk a
  rw [contentOf_unwrappedSlots hs, Atom.bulk_singleton]
  omega

/-- What has a branch does not stand as a lone placeholder. -/
theorem isPlaceholderOnly_eq_false_of_branch (hw : a.isWellFormed = true)
    (hi : atoms[i]? = some a) (hb : a.branch slot = some content) :
    isPlaceholderOnly atoms = false := by
  rw [Bool.eq_false_iff, Ne, isPlaceholderOnly_iff]
  rintro ⟨c, rfl, -, hleaf⟩
  cases List.mem_singleton.1 (List.mem_of_getElem? hi)
  cases (a.branch_eq_none_of_isLeaf hleaf hw slot).symm.trans hb

theorem Sound.remaining_unwrapAtom_lt (h : e.Sound) (hb : IsBranch e.root q slot owner atoms)
    (hi : atoms[i]? = some a) {inner : Slot} (hinner : a.branch inner = some content)
    (hs : a.hasScripts = false) :
    (e.unwrapAtom (q.child slot i) inner).remaining < e.remaining := by
  have hlt := Atom.lt_length_of_getElem?_eq_some hi
  have hw := (hb.wellFormed h.isWellFormed).wellFormed a (List.mem_of_getElem? hi)
  have hcut := Atom.bulk_splice atoms (contentOf a (unwrappedSlots a)) (Nat.le_add_right i 1)
  have hcontent := bulk_contentOf_lt hs
  rw [slice_singleton hi] at hcut
  rw [unwrapAtom_child (by rw [hb.atom?, hi])]
  refine ((h.opened hb).unwrap hi).remaining_settleCaret_lt (isOffset_unwrapped hlt a inner)
    (by omega) fun hlone => ?_
  rw [isPlaceholderOnly_eq_false_of_branch hw hi hinner] at hlone
  cases hlone

theorem Sound.remaining_hoistScript_lt (h : e.Sound) (hb : IsBranch e.root q slot owner atoms)
    (hs : slot.isScript = true) : (e.hoistScript q slot).remaining < e.remaining := by
  obtain ⟨q', slot', i, owner', atoms', rfl, hb', hi, hopened, -⟩ := h.opened_hoistScript hb hs
  have hset := Atom.bulk_set hi (owner.putBranch slot none)
  have howner := Atom.bulk_putBranch_none hb.branch_eq
  have hscript := bulk_withoutPlaceholders_le atoms
  apply hopened.remaining_lt
  rw [Atom.bulk_splice_gap]
  omega

/-! ## Moving the caret -/

/-- A caret at a stop has as many stops before it as the index of the stop says. -/
theorem AtNthStop.stopsBefore_eq (h : e.AtNthStop i) : e.stopsBefore = i := by
  obtain ⟨hlt, hget⟩ := List.getElem?_eq_some_iff.1 h.getElem?
  rw [stopsBefore, if_pos h.isCollapsed, ← hget]
  exact e.root.nodup_caretStops.idxOf_getElem i hlt

theorem AtStop.exists_atNthStop (h : e.AtStop) : ∃ i, e.AtNthStop i := by
  obtain ⟨i, hlt, hget⟩ := List.getElem_of_mem h.mem_caretStops
  refine ⟨i, hlt, ?_⟩
  rw [hget]
  exact Selection.eq_caret_of_isCollapsed h.isCollapsed

theorem Sound.atStart_of_atNthStop_zero (h : e.Sound) (hat : e.AtNthStop 0) : e.AtStart := by
  have hfirst := h.head?_caretStops
  rw [List.head?_eq_getElem?, List.getElem?_eq_getElem hat.lt, Option.some.injEq] at hfirst
  rw [AtStart, hat.selection_eq, hfirst]

/-- A caret that moves back by one stop gets closer to the start, unless it is there. -/
theorem Sound.remaining_stepCaret_lt (h : e.Sound) (hc : e.selection.isCollapsed = true)
    (hstart : ¬e.AtStart) : (e.stepCaret .backward false).remaining < e.remaining := by
  by_cases hmem : e.caret ∈ e.root.caretStops
  · obtain ⟨i, hat⟩ := AtStop.exists_atNthStop ⟨hc, hmem⟩
    have hi : i ≠ 0 := by
      rintro rfl
      exact hstart (h.atStart_of_atNthStop_zero hat)
    have hlt : i - 1 < e.root.caretStops.length := Nat.lt_of_le_of_lt (Nat.sub_le i 1) hat.lt
    have hprevious : (e.setCaret e.root.caretStops[i - 1]).AtNthStop (i - 1) := ⟨hlt, rfl⟩
    have hstep : e.stepCaret .backward false = e.setCaret e.root.caretStops[i - 1] := by
      simp only [Editor.stepCaret, hat.findIdx?, neighbour?, if_neg hi, List.getElem?_eq_getElem hlt]
    have hless : (e.setCaret e.root.caretStops[i - 1]).stopsBefore < e.stopsBefore := by
      rw [hprevious.stopsBefore_eq, hat.stopsBefore_eq]
      omega
    rw [hstep]
    exact remaining_lt_of_stopsBefore rfl hless
  · have hfirst := List.mem_of_head? h.head?_caretStops
    rw [stepCaret_of_not_mem hmem, h.head?_caretStops]
    exact (atStop_setCaret hfirst).remaining_lt rfl (stopsBefore_of_not_mem hmem)

/-! ## One deletion -/

theorem Sound.remaining_deleteAtBranchStart_lt (h : e.Sound)
    (hc : e.selection = Selection.caret (q.child slot leadingGap))
    (hb : IsBranch e.root q slot owner atoms) (hstart : ¬e.AtStart) :
    (e.deleteAtBranchStart (q.child slot leadingGap)).remaining < e.remaining := by
  have hq : q.isRoot = false := Bool.eq_false_iff.2 fun hroot => by
    cases Path.eq_root_of_isRoot hroot
    cases hb.atom?_eq
    have hform := isFormula_of_isWellFormed h.kind_root h.isWellFormed
    cases hform.slot_eq_body hb.branch_eq
    exact hstart hc
  unfold Editor.deleteAtBranchStart
  simp only [Path.parent_child, Path.slot?_child, hb.atom?_eq, hq, Bool.false_eq_true, if_false]
  split
  · next hs => exact h.remaining_hoistScript_lt hb hs
  · split
    · next hu =>
        obtain ⟨hrow, hcell⟩ := ne_of_isUnwrappedAt (hb.wellFormed h.isWellFormed).allowed hu
        obtain ⟨q', slot', i, owner', atoms', rfl, hb', hi⟩ := exists_isBranch
          (Atom.regular_of_isWellFormed h.isWellFormed) hq hb.atom?_eq hrow hcell
        exact h.remaining_unwrapAtom_lt hb' hi hb.branch_eq
          (hasScripts_eq_false_of_isUnwrappedAt hu)
    · refine h.remaining_stepCaret_lt ?_ hstart
      rw [hc]
      exact beq_self_eq_true _

/-- Away from the start, every deletion leaves less to delete or fewer stops before the caret. -/
theorem Sound.remaining_deleteBackward_lt (h : e.Sound) (hstart : ¬e.AtStart) :
    e.deleteBackward.remaining < e.remaining := by
  by_cases hc : e.selection.isCollapsed = true
  · obtain ⟨q, slot, owner, atoms, offset, hat⟩ := h.exists_openedAtCaret hc
    unfold Editor.deleteBackward
    simp only [hc, Bool.not_true, Bool.false_eq_true, if_false, hat.caret_eq]
    by_cases hgap : offset = leadingGap
    · subst hgap
      simp only [hat.branch.atom?_leadingGap]
      exact h.remaining_deleteAtBranchStart_lt hat.selection_eq hat.branch hstart
    · obtain ⟨i, rfl, hi⟩ := hat.isOffset.exists_natCast hgap
      simp only [hat.branch.atom?, List.getElem?_eq_getElem hi]
      split
      · exact h.remaining_removeAtom_lt hat.caret_eq hat.branch (List.getElem?_eq_getElem hi)
      · exact h.remaining_stepCaret_lt hc hstart
  · rw [Editor.deleteBackward, if_pos (by simpa using hc)]
    exact h.remaining_removeSelection_lt hc

/-- At the start there is nothing before the caret. -/
theorem Sound.deleteBackward_of_atStart (h : e.Sound) (hstart : e.AtStart) :
    e.deleteBackward = e := by
  have hc : e.selection.isCollapsed = true := by
    rw [hstart]
    exact beq_self_eq_true _
  have hcaret : e.caret = Path.root.child .body leadingGap := congrArg Selection.focus hstart
  unfold Editor.deleteBackward Editor.deleteAtBranchStart
  simp only [hc, hcaret, h.rootBranch.atom?_leadingGap, Path.parent_child, Path.isRoot_root,
    Bool.not_true, Bool.false_eq_true, if_false, if_true]

/-! ## Modes -/

/-- The editor in another mode. -/
def withMode (e : Editor) (m : Mode) : Editor :=
  { e with mode := m }

section

variable (e : Editor) (m : Mode)

theorem root_withMode : (e.withMode m).root = e.root := rfl

theorem selection_withMode : (e.withMode m).selection = e.selection := rfl

theorem caret_withMode : (e.withMode m).caret = e.caret := rfl

theorem withRoot_withMode (root : Atom) :
    (e.withMode m).withRoot root = (e.withRoot root).withMode m := rfl

theorem settleCaret_withMode (p : Path) (offset : Int) :
    (e.withMode m).settleCaret p offset = (e.settleCaret p offset).withMode m := by
  unfold settleCaret settle
  simp only [root_withMode]
  split
  · split
    · split <;> rfl
    · rfl
  · rfl

theorem removeAtom_withMode (p : Path) :
    (e.withMode m).removeAtom p = (e.removeAtom p).withMode m := by
  unfold removeAtom
  split
  · rfl
  · simp only [root_withMode, withRoot_withMode, settleCaret_withMode]

theorem hoistScript_withMode (base : Path) (slot : Slot) :
    (e.withMode m).hoistScript base slot = (e.hoistScript base slot).withMode m := by
  unfold hoistScript
  split <;> rfl

theorem unwrapAtom_withMode (p : Path) (slot : Slot) :
    (e.withMode m).unwrapAtom p slot = (e.unwrapAtom p slot).withMode m := by
  unfold unwrapAtom
  simp only [root_withMode, withRoot_withMode]
  split
  · exact settleCaret_withMode ..
  · rfl

theorem stepBack_withMode :
    (e.withMode m).stepCaret .backward false = (e.stepCaret .backward false).withMode m := by
  unfold stepCaret moveTo?
  simp only [root_withMode, caret_withMode]
  split
  · split <;> rfl
  · split <;> rfl

theorem deleteAtBranchStart_withMode (p : Path) :
    (e.withMode m).deleteAtBranchStart p = (e.deleteAtBranchStart p).withMode m := by
  unfold deleteAtBranchStart
  simp only [root_withMode, hoistScript_withMode, unwrapAtom_withMode, stepBack_withMode]
  split
  · rfl
  · split
    · split
      · rfl
      · split <;> rfl
    · rfl

end

theorem Sound.removeSelection_withMode (h : e.Sound) (m : Mode) :
    (e.withMode m).removeSelection = e.removeSelection.withMode m := by
  by_cases hc : e.selection.isCollapsed = true
  · exact (if_pos hc).trans (congrArg (withMode · m) (if_pos hc).symm)
  · obtain ⟨q, slot, owner, atoms, anchor, focus, hsel⟩ := h.exists_selectsIn
    have hsel' : (e.withMode m).SelectsIn q slot owner atoms anchor focus :=
      ⟨hsel.branch, hsel.selection_eq, hsel.anchor, hsel.focus⟩
    rw [hsel.removeSelection_eq hc, hsel'.removeSelection_eq hc]
    exact settleCaret_withMode (e.putBranch (q.child slot (min anchor focus))
      (splice atoms e.selection.startIndex e.selection.stopIndex [])) m _ _

/-- Deleting backward does the same in every mode. -/
theorem Sound.deleteBackward_withMode (h : e.Sound) (m : Mode) :
    (e.withMode m).deleteBackward = e.deleteBackward.withMode m := by
  unfold Editor.deleteBackward
  simp only [root_withMode, selection_withMode, caret_withMode, h.removeSelection_withMode,
    removeAtom_withMode, stepBack_withMode, deleteAtBranchStart_withMode]
  split
  · rfl
  · split
    · split <;> rfl
    · rfl

theorem leaveEmptyCommand_eq_withMode (e : Editor) : ∃ m, e.leaveEmptyCommand = e.withMode m := by
  unfold leaveEmptyCommand
  split
  · exact ⟨.math, rfl⟩
  · exact ⟨e.mode, rfl⟩

/-! ## Many deletions -/

theorem selection_leaveEmptyCommand (e : Editor) : e.leaveEmptyCommand.selection = e.selection := by
  unfold leaveEmptyCommand
  split <;> rfl

/-- Deleting one atom backward is carried out. -/
theorem Sound.delete_backward_one (h : e.Sound) :
    e.delete .backward 1 = .done e.deleteBackward.leaveEmptyCommand :=
  h.whenValid _

theorem backspaced_succ (times : Nat) (e : Editor) :
    backspaced (times + 1) e = ((backspaced times e).delete .backward 1).state :=
  Function.iterate_succ_apply' _ times e

theorem Sound.backspaced (h : e.Sound) (times : Nat) : (backspaced times e).Sound := by
  induction times with
  | zero => exact h
  | succ times ih =>
      rw [backspaced_succ, ih.delete_backward_one]
      exact ih.deleteBackward.leaveEmptyCommand

theorem Sound.remaining_backspaced_succ_lt (h : e.Sound) {times : Nat}
    (hstart : ¬(Editor.backspaced times e).AtStart) :
    (Editor.backspaced (times + 1) e).remaining < (Editor.backspaced times e).remaining := by
  have hs := h.backspaced times
  have hleft : (Editor.backspaced (times + 1) e).Alike (Editor.backspaced times e).deleteBackward := by
    rw [backspaced_succ, hs.delete_backward_one]
    exact ⟨congrArg Atom.bare (root_leaveEmptyCommand _), selection_leaveEmptyCommand _⟩
  rw [hleft.remaining_eq]
  exact hs.remaining_deleteBackward_lt hstart

/-- There are no endless descents, so the start is reached. -/
theorem Sound.exists_atStart_backspaced (h : e.Sound) :
    ∃ times, (Editor.backspaced times e).AtStart := by
  obtain ⟨times, hlast⟩ := WellFounded.not_rel_apply_succ (r := (· < ·))
    fun times => (Editor.backspaced times e).remaining
  exact ⟨times, not_imp_comm.1 h.remaining_backspaced_succ_lt hlast⟩

/-- Away from the start no state is like an earlier one. -/
theorem Sound.remaining_backspaced_lt (h : e.Sound) {i j : Nat} (hij : i < j)
    (hstart : ∀ k, k < j → ¬(Editor.backspaced k e).AtStart) :
    (Editor.backspaced j e).remaining < (Editor.backspaced i e).remaining := by
  induction hij with
  | refl => exact h.remaining_backspaced_succ_lt (hstart i (Nat.lt_succ_self i))
  | step hij ih =>
      exact (h.remaining_backspaced_succ_lt (hstart _ (Nat.lt_succ_self _))).trans
        (ih fun k hk => hstart k (Nat.lt_succ_of_lt hk))

theorem Sound.backspaced_of_atStart (h : e.Sound) (hstart : e.AtStart) (times : Nat) :
    (Editor.backspaced times e).root = e.root ∧ (Editor.backspaced times e).AtStart := by
  induction times with
  | zero => exact ⟨rfl, hstart⟩
  | succ times ih =>
      obtain ⟨hroot, hat⟩ := ih
      have hs := h.backspaced times
      rw [backspaced_succ, hs.delete_backward_one, hs.deleteBackward_of_atStart hat]
      exact ⟨(root_leaveEmptyCommand _).trans hroot, (selection_leaveEmptyCommand _).trans hat⟩

theorem Sound.deleteTimes_withMode (h : e.Sound) (m : Mode) (times : Nat) :
    Editor.deleteTimes .backward times (e.withMode m) =
      (Editor.deleteTimes .backward times e).withMode m := by
  induction times generalizing e with
  | zero => rfl
  | succ times ih =>
      show Editor.deleteTimes .backward times (e.withMode m).deleteBackward = _
      rw [h.deleteBackward_withMode, ih h.deleteBackward]
      rfl

/-- Deleting several atoms at once leaves the same formula and selection as deleting them one by one. -/
theorem Sound.deleteTimes_backward (h : e.Sound) (times : Nat) :
    ∃ m, Editor.backspaced times e = (Editor.deleteTimes .backward times e).withMode m := by
  induction times generalizing e with
  | zero => exact ⟨e.mode, rfl⟩
  | succ times ih =>
      obtain ⟨m, hm⟩ := leaveEmptyCommand_eq_withMode e.deleteBackward
      have hfirst : (e.delete .backward 1).state = e.deleteBackward.withMode m := by
        rw [h.delete_backward_one, ← hm]
        rfl
      have hs : (e.deleteBackward.withMode m).Sound := hm ▸ h.deleteBackward.leaveEmptyCommand
      obtain ⟨m', hm'⟩ := ih hs
      refine ⟨m', ?_⟩
      rw [Editor.backspaced, Function.iterate_succ_apply, hfirst]
      rw [h.deleteBackward.deleteTimes_withMode] at hm'
      exact hm'

/-- Backspacing arrives at the start of the formula, where nothing happens any more, and comes by no
state twice on its way there, be it only with other identities and marks. Deleting as many atoms at
once leaves the same. -/
theorem Sound.backspaced_reaches_start (h : e.Sound) :
    (∀ times, ((Editor.backspaced times e).delete .backward 1).answer = .ok ()) ∧
      (∀ times, (e.delete .backward times).answer = .ok () ∧
        (e.delete .backward times).state.root = (Editor.backspaced times e).root ∧
        (e.delete .backward times).state.selection = (Editor.backspaced times e).selection) ∧
      ∃ n, (Editor.backspaced n e).selection = Selection.caret (Path.inRoot leadingGap) ∧
        (∀ times, n ≤ times → (Editor.backspaced times e).root = (Editor.backspaced n e).root ∧
          (Editor.backspaced times e).selection = (Editor.backspaced n e).selection) ∧
        ∀ i j, i < j → j ≤ n → ¬(Editor.backspaced i e).Alike (Editor.backspaced j e) := by
  refine ⟨fun times => ?_, fun times => ?_, ?_⟩
  · rw [(h.backspaced times).delete_backward_one]
    rfl
  · obtain ⟨m, hm⟩ := h.deleteTimes_backward times
    have hdone : e.delete .backward times =
      .done (Editor.deleteTimes .backward times e).leaveEmptyCommand := h.whenValid _
    rw [hdone, hm]
    exact ⟨rfl, root_leaveEmptyCommand _, selection_leaveEmptyCommand _⟩
  · have hreached := h.exists_atStart_backspaced
    have hstart := Nat.find_spec hreached
    refine ⟨Nat.find hreached, hstart, fun times hle => ?_, fun i j hij hj halike => ?_⟩
    · obtain ⟨further, rfl⟩ := Nat.exists_eq_add_of_le hle
      have hsplit : Editor.backspaced (Nat.find hreached + further) e =
          Editor.backspaced further (Editor.backspaced (Nat.find hreached) e) := by
        unfold Editor.backspaced
        rw [Nat.add_comm, Function.iterate_add_apply]
      obtain ⟨hroot, hat⟩ := (h.backspaced (Nat.find hreached)).backspaced_of_atStart hstart further
      rw [hsplit]
      exact ⟨hroot, hat.trans hstart.symm⟩
    · have hlt := h.remaining_backspaced_lt hij fun k hk =>
        Nat.find_min hreached (Nat.lt_of_lt_of_le hk hj)
      rw [halike.remaining_eq] at hlt
      exact lt_irrefl _ hlt

/-- The square of a fraction, the denominator of which is to be filled in, and the caret at the end of
the exponent. -/
def squaredFraction : Editor :=
  let fraction : Atom := .node ⟨1, .fraction, some "\\frac", none, Marks.none⟩
    { Branches.none with
      superscript := some [.leaf 2 .ordinary (some "2") (some '2')]
      numerator := some [.leaf 3 .ordinary (some "x") (some 'x')]
      denominator := some [.placeholder 4] }
  (ofRoot (.node ⟨0, .root, none, none, Marks.none⟩
    { Branches.none with body := some [fraction] }) 5).setCaret ⟨[⟨.body, 0⟩, ⟨.superscript, 0⟩]⟩

theorem backspaced_reaches_start_squaredFraction :
    squaredFraction.Sound ∧
      ∃ n, (Editor.backspaced n squaredFraction).selection = Selection.caret (Path.inRoot leadingGap) ∧
        ¬(Editor.backspaced 0 squaredFraction).Alike (Editor.backspaced n squaredFraction) := by
  have hsound : squaredFraction.Sound := ⟨rfl, by decide, rfl⟩
  obtain ⟨-, -, n, hstart, -, hdistinct⟩ := hsound.backspaced_reaches_start
  refine ⟨hsound, n, hstart, hdistinct 0 n (Nat.pos_of_ne_zero ?_) (Nat.le_refl n)⟩
  rintro rfl
  revert hstart
  decide

end Editor

end FormulaEditor

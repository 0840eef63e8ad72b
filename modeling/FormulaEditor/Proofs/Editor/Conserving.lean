import Mathlib.Data.List.Flatten
import FormulaEditor.Editor.Deletion
import FormulaEditor.Editor.Selecting
import FormulaEditor.Proofs.Editor.CommandTyping
import FormulaEditor.Proofs.Formula.Ledger

/-!
# Editing doubles no identity

An operation may take atoms out of the formula, hold them for a while, and put them back elsewhere.
Whatever it does, it never has an identity more often than before, in the formula and in hand,
except for identities that it has taken from the supply, which it has once.
-/

namespace FormulaEditor

open Atom Scale

namespace Editor

/-- The editor `e` became `e'`, while what was held went from `held` to `held'`: no identity is
there more often than before, or more often than once if it was given out meanwhile. -/
structure Conserves (e : Editor) (held : List Atom) (e' : Editor) (held' : List Atom) : Prop where
  supply : e.supply ≤ e'.supply
  count : ∀ i, weight (only i).label [e'.root] + weight (only i).label held' +
      (only i).given e.supply ≤
    weight (only i).label [e.root] + weight (only i).label held + (only i).given e'.supply

variable {e e' e'' : Editor} {held held' held'' content : List Atom} {p : Path}

namespace Conserves

theorem refl (e : Editor) (held : List Atom) : e.Conserves held e held :=
  ⟨Nat.le_refl _, fun _ => Nat.le_refl _⟩

theorem trans (h : e.Conserves held e' held') (h' : e'.Conserves held' e'' held'') :
    e.Conserves held e'' held'' := by
  refine ⟨Nat.le_trans h.supply h'.supply, fun i => ?_⟩
  have hw := h.count i
  have hw' := h'.count i
  omega

/-- Only the formula and the supply count. -/
theorem of_eq (h : e.Conserves held e' held') (hr : e''.root = e'.root)
    (hs : e''.supply = e'.supply) : e.Conserves held e'' held' := by
  refine ⟨hs ▸ h.supply, fun i => ?_⟩
  rw [hr, hs]
  exact h.count i

theorem setCaret (h : e.Conserves held e' held') (p : Path) :
    e.Conserves held (e'.setCaret p) held' :=
  h.of_eq rfl rfl

/-- Some of what is held may be dropped. -/
theorem keep (h : e.Conserves held e' held') (hs : held''.Sublist held') :
    e.Conserves held e' held'' := by
  refine ⟨h.supply, fun i => ?_⟩
  have hw := h.count i
  have hkept := weight_le_of_sublist (only i).label hs
  omega

theorem withRoot (h : e.Conserves held e' held') {root : Atom}
    (hw : ∀ i, weight (only i).label [root] + weight (only i).label held'' ≤
      weight (only i).label [e'.root] + weight (only i).label held') :
    e.Conserves held (e'.withRoot root) held'' := by
  refine ⟨h.supply, fun i => ?_⟩
  have hbefore := h.count i
  have hroot : (e'.withRoot root).root = root := rfl
  have hsupply : (e'.withRoot root).supply = e'.supply := rfl
  have hafter := hw i
  rw [hroot, hsupply]
  omega

theorem withLighterRoot (h : e.Conserves held e' held') {root : Atom}
    (hw : ∀ i, weight (only i).label [root] ≤ weight (only i).label [e'.root]) :
    e.Conserves held (e'.withRoot root) held' :=
  h.withRoot fun i => Nat.add_le_add_right (hw i) _

/-- A branch is replaced, and what becomes of its content is held. -/
theorem putBranch (h : e.Conserves held e' held')
    (hw : ∀ i, weight (only i).label content + weight (only i).label held'' ≤
      weight (only i).label ((p.branch? e'.root).getD []) + weight (only i).label held') :
    e.Conserves held (e'.putBranch p content) held'' := by
  refine h.withRoot fun i => ?_
  have hchange := hw i
  cases hb : p.branch? e'.root with
  | none =>
      rw [hb, Option.getD_none, weight_nil] at hchange
      rw [Path.putBranch, modifyBranch_of_none hb]
      omega
  | some atoms =>
      rw [hb, Option.getD_some] at hchange
      have hput := weight_modifyBranch hb (fun _ => content) (only i).label
      rw [Path.putBranch]
      omega

/-- A run of a branch is replaced, and what becomes of it is held. -/
theorem putSplice (h : e.Conserves held e' held') {start stop : Nat} (hle : start ≤ stop)
    {branch middle : List Atom} (hb : (p.branch? e'.root).getD [] = branch)
    (hw : ∀ i, weight (only i).label middle + weight (only i).label held'' ≤
      weight (only i).label (slice branch start stop) + weight (only i).label held') :
    e.Conserves held (e'.putBranch p (splice branch start stop middle)) held'' := by
  refine h.putBranch fun i => ?_
  have hsplice := weight_splice (only i).label branch middle hle
  have hrun := hw i
  rw [hb]
  omega

/-- A run of a branch is taken out and held. -/
theorem takeRun (h : e.Conserves held e' []) {start stop : Nat} (hle : start ≤ stop)
    {branch : List Atom} (hb : (p.branch? e'.root).getD [] = branch) :
    e.Conserves held (e'.putBranch p (splice branch start stop [])) (slice branch start stop) := by
  refine h.putSplice hle hb fun i => ?_
  rw [weight_nil]
  omega

/-- Atoms that are made may use what is held, and new identities. -/
theorem mint {α : Type} {m : Minting α} (h : e.Conserves held e' held')
    (hs : e'.supply ≤ (m e'.supply).2)
    (hw : ∀ i, weight (only i).label held'' + (only i).given e'.supply ≤
      weight (only i).label held' + (only i).given (m e'.supply).2) :
    e.Conserves held (e'.mint m).2 held'' := by
  refine ⟨Nat.le_trans h.supply hs, fun i => ?_⟩
  have hbefore := h.count i
  have hmade := hw i
  have hroot : (e'.mint m).2.root = e'.root := rfl
  have hsupply : (e'.mint m).2.supply = (m e'.supply).2 := rfl
  rw [hroot, hsupply]
  omega

/-- Atoms that are made from nothing else are held as well. -/
theorem mintNew {α : Type} {m : Minting α} {made : List Atom} (h : e.Conserves held e' held')
    (hm : ∀ i, (only i).Makes 0 e'.supply (weight (only i).label made) (m e'.supply).2) :
    e.Conserves held (e'.mint m).2 (made ++ held') := by
  refine h.mint (hm 0).le fun i => ?_
  have hmade := (hm i).weight
  rw [weight_append]
  omega

/-- An identity that is given out may be used once. -/
theorem mintIdentity (h : e.Conserves held e' held') {root : Atom}
    (hw : ∀ i, weight (only i).label [root] ≤
      weight (only i).label [e'.root] + (only i).identity e'.supply) :
    e.Conserves held ((e'.mint newIdentity).2.withRoot root) held' := by
  refine ⟨Nat.le_succ_of_le h.supply, fun i => ?_⟩
  have hbefore := h.count i
  have hafter := hw i
  have hroot : ((e'.mint newIdentity).2.withRoot root).root = root := rfl
  have hsupply : ((e'.mint newIdentity).2.withRoot root).supply = e'.supply + 1 := rfl
  rw [hroot, hsupply, given_succ]
  omega

end Conserves

/-! ## Movements -/

theorem conserves_moveTo? (h : e.Conserves held e' held') (p : Option Path) :
    e.Conserves held (e'.moveTo? p) held' := by
  cases p with
  | none => exact h
  | some p => exact h.setCaret p

theorem conserves_stepCaret (h : e.Conserves held e' held') (d : Direction) (wrap : Bool) :
    e.Conserves held (e'.stepCaret d wrap) held' := by
  have hasked : e.Conserves held (e'.ask d).2 held' := h.of_eq rfl rfl
  unfold stepCaret
  simp only
  split
  · exact conserves_moveTo? h _
  split
  · exact h.setCaret _
  split
  · split
    · exact conserves_moveTo? hasked _
    · exact hasked
  · exact h

theorem conserves_collapse (h : e.Conserves held e' held') (d : Direction) :
    e.Conserves held (e'.collapse d) held' := by
  unfold collapse
  split
  · exact h
  · exact h.setCaret _

theorem conserves_move (h : e.Conserves held e' held') (d : Direction) :
    e.Conserves held (e'.move d) held' := by
  unfold move
  split
  · exact conserves_stepCaret h d true
  · exact conserves_collapse h d

theorem conserves_stepPlaceholder (h : e.Conserves held e' held') (d : Direction) :
    e.Conserves held (e'.stepPlaceholder d) held' := by
  have hasked : e.Conserves held (e'.ask d).2 held' := h.of_eq rfl rfl
  unfold stepPlaceholder
  simp only
  split
  · exact h.of_eq rfl rfl
  · split
    · cases outermostPlaceholder? d e'.root.stops with
      | none => exact hasked
      | some p => exact hasked.of_eq rfl rfl
    · exact hasked

theorem conserves_selectContent (h : e.Conserves held e' held') :
    e.Conserves held e'.selectContent held' := by
  unfold selectContent
  split
  · exact h
  · exact h.of_eq rfl rfl

theorem conserves_selectOwner (h : e.Conserves held e' held') (p : Path) (d : Direction) :
    e.Conserves held (e'.selectOwner p d) held' := by
  unfold selectOwner
  simp only
  split
  · exact conserves_selectContent h
  · cases d with
    | forward => exact h.of_eq rfl rfl
    | backward => exact h.of_eq rfl rfl

theorem conserves_growSelection (h : e.Conserves held e' held') (branch : List Atom) :
    e.Conserves held (e'.growSelection branch) held' := by
  unfold growSelection
  simp only
  split
  · exact h.of_eq rfl rfl
  · split
    · exact h.of_eq rfl rfl
    · exact conserves_selectOwner h _ _

theorem conserves_extend (h : e.Conserves held e' held') (d : Direction) :
    e.Conserves held (e'.extend d) held' := by
  unfold extend
  cases d with
  | forward =>
      simp only
      split
      · exact h.of_eq rfl rfl
      · exact conserves_selectOwner h _ _
  | backward =>
      simp only
      split
      · exact h.of_eq rfl rfl
      · exact conserves_selectOwner h _ _

theorem conserves_select (h : e.Conserves held e' held') (anchor focus : Path) :
    e.Conserves held (e'.select anchor focus).state held' := by
  unfold select
  split
  · exact h
  split
  · exact h
  split
  · exact h.setCaret _
  split
  · exact h.of_eq rfl rfl
  · simp only
    split
    · exact h
    · exact h.of_eq rfl rfl

/-! ## Deletion -/

theorem startIndex_le_stopIndex (s : Selection) : s.startIndex ≤ s.stopIndex := by
  have h : s.start ≤ s.stop := Int.le_trans (Int.min_le_left _ _) (Int.le_max_left _ _)
  simp only [Selection.startIndex, Selection.stopIndex]
  omega

theorem conserves_settle (h : e.Conserves held e' held') (p : Path) (offset : Int) :
    e.Conserves held (e'.settle p offset).2 held' := by
  unfold settle
  split
  · rename_i slot owner hslot howner
    split
    · split
      · refine h.withLighterRoot fun i => weight_modifyOwner_le (k := 0) (fun a => ?_) p e'.root
        have hremoved := weight_removeBranch (only i).label a slot
        omega
      · refine h.mintIdentity fun i => weight_modifyOwner_le (fun a => ?_) p e'.root
        rw [← weight_placeholder (only i) e'.supply]
        exact weight_setBranch_nil_le _ a slot e'.supply
    · exact h
  · exact h

theorem conserves_settleCaret (h : e.Conserves held e' held') (p : Path) (offset : Int) :
    e.Conserves held (e'.settleCaret p offset) held' :=
  (conserves_settle h p offset).setCaret _

theorem conserves_removeSelection (h : e.Conserves held e' held') :
    e.Conserves held e'.removeSelection held' := by
  unfold removeSelection
  simp only
  split
  · exact h
  · refine conserves_settleCaret ?_ _ _
    split
    · exact h.putSplice (startIndex_le_stopIndex _) rfl fun i => by simp
    · exact h

theorem conserves_removeAtom (h : e.Conserves held e' held') (p : Path) :
    e.Conserves held (e'.removeAtom p) held' := by
  unfold removeAtom
  split
  · exact h
  · refine conserves_settleCaret (h.withLighterRoot fun i => ?_) _ _
    exact weight_modifyBranch_le (k := 0)
      (fun atoms => weight_le_of_sublist _ (List.eraseIdx_sublist atoms _)) p e'.root

theorem withoutPlaceholders_sublist (atoms : List Atom) :
    (withoutPlaceholders atoms).Sublist atoms :=
  List.filter_sublist

/-- What a script holds goes behind its base. -/
theorem conserves_hoistScript (h : e.Conserves held e' held') (base : Path) (slot : Slot) :
    e.Conserves held (e'.hoistScript base slot) held' := by
  unfold hoistScript
  split
  · exact h
  · rename_i j hj
    simp only
    cases ha : base.atom? e'.root with
    | none =>
        refine (h.withLighterRoot fun i => ?_).setCaret _
        rw [modifyAtom_of_none ha]
        refine weight_modifyBranch_le (k := 0) (fun atoms => ?_) base e'.root
        rw [weight_splice_gap]
        exact Nat.le_refl _
    | some a =>
        refine (h.withLighterRoot fun i => ?_).setCaret _
        have hdetached := weight_modifyAtom ha (fun a => (a.removeBranch slot).2) (only i).label
        have hremoved := weight_removeBranch (only i).label a slot
        have hkept := weight_le_of_sublist (only i).label
          (withoutPlaceholders_sublist ((a.removeBranch slot).1.getD []))
        have hhoisted := weight_modifyBranch_le (w := (only i).label)
          (fun atoms => Nat.le_of_eq (weight_splice_gap (only i).label atoms
            (withoutPlaceholders ((a.removeBranch slot).1.getD [])) (j + 1))) base
          (base.modifyAtom (fun a => (a.removeBranch slot).2) e'.root)
        rw [Option.bind_some]
        omega

theorem contentOf_sublist (a : Atom) : (contentOf a (unwrappedSlots a)).Sublist a.children := by
  have hslots : (unwrappedSlots a).Sublist Slot.all :=
    List.filter_sublist.trans List.filter_sublist
  have hcontent (slot : Slot) : (withoutPlaceholders ((a.branch slot).getD [])).Sublist
      ((a.branch slot).getD []) := withoutPlaceholders_sublist _
  exact (List.Sublist.flatMap_right _ fun slot _ => hcontent slot).trans (hslots.flatMap _)

/-- What an atom holds takes its place. -/
theorem conserves_unwrapAtom (h : e.Conserves held e' held') (p : Path) (slot : Slot) :
    e.Conserves held (e'.unwrapAtom p slot) held' := by
  unfold unwrapAtom
  split
  · rename_i i a hi ha
    refine conserves_settleCaret (h.withLighterRoot fun j => ?_) _ _
    have hreplaced := weight_modifyBranch_replace hi ha (contentOf a (unwrappedSlots a))
      (only j).label
    have hcontent := weight_le_of_sublist (only j).label (contentOf_sublist a)
    have hatom := weight_singleton (only j).label a
    omega
  · exact h

theorem conserves_deleteAtBranchStart (h : e.Conserves held e' held') (caret : Path) :
    e.Conserves held (e'.deleteAtBranchStart caret) held' := by
  unfold deleteAtBranchStart
  simp only
  split
  · exact h
  split
  · split
    · exact conserves_hoistScript h _ _
    split
    · exact conserves_unwrapAtom h _ _
    · exact conserves_stepCaret h _ _
  · exact h

theorem conserves_deleteBackward (h : e.Conserves held e' held') :
    e.Conserves held e'.deleteBackward held' := by
  unfold deleteBackward
  split
  · exact conserves_removeSelection h
  split
  · split
    · exact conserves_removeAtom h _
    · exact conserves_stepCaret h _ _
  · exact conserves_deleteAtBranchStart h _

theorem conserves_keepCaret (h : e.Conserves held e' held') (caret : Path) :
    e.Conserves held (e'.keepCaret caret) held' := by
  unfold keepCaret
  split
  · split
    · exact h
    · exact h.setCaret _
  · exact h

theorem conserves_deleteForward (h : e.Conserves held e' held') :
    e.Conserves held e'.deleteForward held' := by
  unfold deleteForward
  simp only
  split
  · exact conserves_removeSelection h
  split
  · split
    · exact conserves_keepCaret (conserves_removeAtom h _) _
    · exact conserves_stepCaret h _ _
  · split
    · exact conserves_stepCaret h _ _
    · exact h

/-- Deletions double no identity, however many there are. -/
theorem conserves_deleteTimes (h : e.Conserves held e' held') (d : Direction) (count : Nat) :
    e.Conserves held (deleteTimes d count e') held' := by
  induction count generalizing e' with
  | zero => exact h
  | succ count ih =>
      refine ih ?_
      cases d with
      | backward => exact conserves_deleteBackward h
      | forward => exact conserves_deleteForward h

theorem conserves_leaveEmptyCommand (h : e.Conserves held e' held') :
    e.Conserves held e'.leaveEmptyCommand held' := by
  unfold leaveEmptyCommand
  split
  · exact h.of_eq rfl rfl
  · exact h

end Editor

end FormulaEditor

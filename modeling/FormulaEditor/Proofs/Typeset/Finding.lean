import FormulaEditor.Proofs.Typeset.Shown

/-!
# Finding boxes in a layout

What neither a frame nor a caret has is found in the layout of an atom only where it is found in the
boxes of the atoms below. If all of those but one lack it, what is found is what is found in the box
of that one.
-/

namespace FormulaEditor

namespace Typeset

/-- The boxes with a property, outermost first. -/
def MathBox.having (b : MathBox) (p : MathBox → Bool) : List MathBox :=
  b.subboxes.filter p

/-- A property that carets do not have. -/
def IgnoresCarets (p : MathBox → Bool) : Prop :=
  ∀ style, p (caretIn style) = false

/-- An atom with no caret beside it. -/
structure BesideNoCaret (a : Atom) : Prop where
  before : a.marks.caretBefore = false
  after : a.marks.caretAfter = false

/-- A branch with no caret in it. -/
structure NoCaretIn (a : Atom) (slot : Slot) : Prop where
  lead : leadsWithCaret a slot = false
  beside : ∀ s ∈ (a.branch slot).getD [], BesideNoCaret s

/-- A property that is not found in what the layout of an atom adds to its box and the boxes of the
atoms below. -/
structure Overlooks (p : MathBox → Bool) (a : Atom) : Prop where
  frame : ∀ b, IsFrame a.id b → p b = false
  caret : IgnoresCarets p ∨ ∀ slot, NoCaretIn a slot

/-- A property that neither a box of an atom has nor any box in it. -/
def Lacks (p : MathBox → Bool) (a : Atom) : Prop :=
  ∀ b, LaidOut a b → b.having p = []

variable {p : MathBox → Bool} {a c : Atom} {b : MathBox} {slot : Slot} {slots : List Slot}
  {atoms before after : List Atom} {style : Style} {parts : List MathBox}

theorem MathBox.having_eq (b : MathBox) (p : MathBox → Bool) :
    b.having p = (if p b then [b] else []) ++ b.inner.filter p := by
  rw [having, subboxes_eq, List.filter_cons]
  split <;> rfl

theorem having_caretIn (style : Style) (p : MathBox → Bool) :
    (caretIn style).having p = if p (caretIn style) then [caretIn style] else [] := by
  rw [MathBox.having_eq]
  exact List.append_nil _

/-! ## Siblings -/

theorem flatMap_having_caretIf {present : Bool} (h : IgnoresCarets p ∨ present = false) :
    (caretIf style present).flatMap (·.having p) = [] := by
  rcases h with h | rfl
  · cases present with
    | false => rfl
    | true => simp [caretIf, having_caretIn, h style]
  · rfl

theorem ShowsItems.exists_append (h : ShowsItems style (before ++ after) parts) :
    ∃ left right, parts = left ++ right ∧ ShowsItems style before left ∧
      ShowsItems style after right := by
  induction before generalizing parts with
  | nil => exact ⟨[], parts, rfl, .nil, h⟩
  | cons a rest ih =>
      cases h with
      | cons cls h =>
          obtain ⟨left, right, rfl, hleft, hright⟩ := ih h
          exact ⟨_, right, (List.append_assoc ..).symm, .cons cls hleft, hright⟩

/-- The box of the first of several siblings, where no caret beside it is seen. -/
theorem flatMap_having_cons (hc : IgnoresCarets p ∨ BesideNoCaret a) (cls : Option SpacingClass)
    (parts : List MathBox) :
    (caretIf style a.marks.caretBefore ++ [layoutAtom style cls a] ++
        caretIf style a.marks.caretAfter ++ parts).flatMap (·.having p) =
      (layoutAtom style cls a).having p ++ parts.flatMap (·.having p) := by
  simp only [List.flatMap_append, List.flatMap_singleton,
    flatMap_having_caretIf (hc.imp_right BesideNoCaret.before),
    flatMap_having_caretIf (hc.imp_right BesideNoCaret.after), List.nil_append, List.append_nil]

theorem ShowsItems.flatMap_having_eq_nil (h : ShowsItems style atoms parts)
    (hc : IgnoresCarets p ∨ ∀ s ∈ atoms, BesideNoCaret s) (hl : ∀ s ∈ atoms, Lacks p s) :
    parts.flatMap (·.having p) = [] := by
  induction h with
  | nil => rfl
  | @cons a cls rest parts hrest ih =>
      obtain ⟨hown, hlacks⟩ := List.forall_mem_cons.1 hl
      have hparts := ih (hc.imp_right fun h => (List.forall_mem_cons.1 h).2) hlacks
      rw [flatMap_having_cons (hc.imp_right fun h => h a List.mem_cons_self), hparts,
        hown _ (.atom style cls a), List.append_nil]

/-- What is found among siblings that lack it, but for one. -/
theorem ShowsItems.exists_flatMap_having (h : ShowsItems style (before ++ c :: after) parts) :
    ∃ cls, layoutAtom style cls c ∈ parts ∧ ∀ p : MathBox → Bool,
      (IgnoresCarets p ∨ ∀ s ∈ before ++ c :: after, BesideNoCaret s) →
      (∀ s ∈ before ++ after, Lacks p s) →
      parts.flatMap (·.having p) = (layoutAtom style cls c).having p := by
  obtain ⟨left, right, rfl, hleft, hright⟩ := h.exists_append
  cases hright with
  | @cons _ cls _ rest hrest =>
      refine ⟨cls, by simp, fun p hc hl => ?_⟩
      obtain ⟨hlacksBefore, hlacksAfter⟩ := List.forall_mem_append.1 hl
      have hbefore := hleft.flatMap_having_eq_nil
        (hc.imp_right fun h s hs => h s (List.mem_append_left _ hs)) hlacksBefore
      have hafter := hrest.flatMap_having_eq_nil
        (hc.imp_right fun h s hs => h s (List.mem_append_right _ (List.mem_cons_of_mem c hs)))
        hlacksAfter
      have hown := hc.imp_right fun h => h c (List.mem_append_right _ List.mem_cons_self)
      rw [List.flatMap_append, hbefore, flatMap_having_cons hown, hafter, List.nil_append,
        List.append_nil]

/-! ## The parts of a grid -/

theorem flatMap_having_eq_nil_of_forall₂ (h : List.Forall₂ LaidOut atoms parts)
    (hl : ∀ s ∈ atoms, Lacks p s) : parts.flatMap (·.having p) = [] := by
  induction h with
  | nil => rfl
  | cons hbox _ ih =>
      obtain ⟨hown, hlacks⟩ := List.forall_mem_cons.1 hl
      rw [List.flatMap_cons, hown _ hbox, ih hlacks, List.append_nil]

theorem exists_flatMap_having_of_forall₂ (h : List.Forall₂ LaidOut (before ++ c :: after) parts) :
    ∃ b ∈ parts, LaidOut c b ∧ ∀ p : MathBox → Bool, (∀ s ∈ before ++ after, Lacks p s) →
      parts.flatMap (·.having p) = b.having p := by
  have hleft := (List.forall₂_take_append _ before (c :: after) h.flip).flip
  have hright := (List.forall₂_drop_append _ before (c :: after) h.flip).flip
  obtain ⟨b, rest, hb, hrest, hdrop⟩ := List.forall₂_cons_left_iff.1 hright
  refine ⟨b, List.mem_of_mem_drop (hdrop ▸ List.mem_cons_self), hb, fun p hl => ?_⟩
  obtain ⟨hlacksBefore, hlacksAfter⟩ := List.forall_mem_append.1 hl
  rw [← List.take_append_drop before.length parts, List.flatMap_append,
    flatMap_having_eq_nil_of_forall₂ hleft hlacksBefore, hdrop, List.flatMap_cons,
    flatMap_having_eq_nil_of_forall₂ hrest hlacksAfter, List.nil_append, List.append_nil]

/-! ## Branches -/

theorem flatMap_having_lead (hc : IgnoresCarets p ∨ NoCaretIn a slot) (style : Style) :
    (caretIf style (leadsWithCaret a slot)).flatMap (·.having p) = [] :=
  flatMap_having_caretIf (hc.imp_right NoCaretIn.lead)

theorem NoCaretIn.beside_branch (h : NoCaretIn a slot) (hb : a.branch slot = some atoms) :
    ∀ s ∈ atoms, BesideNoCaret s := by
  have hbeside := h.beside
  rwa [hb] at hbeside

theorem ShowsBranch.flatMap_having_eq_nil (h : ShowsBranch a slot parts)
    (hc : IgnoresCarets p ∨ NoCaretIn a slot) (hl : ∀ s ∈ (a.branch slot).getD [], Lacks p s) :
    parts.flatMap (·.having p) = [] := by
  cases h with
  | absent hb => rfl
  | items hb hitems =>
      rw [hb] at hl
      rw [List.flatMap_append, flatMap_having_lead hc, List.nil_append]
      exact hitems.flatMap_having_eq_nil (hc.imp_right fun h => h.beside_branch hb) hl
  | grid hb _ hboxes =>
      rw [hb] at hl
      exact flatMap_having_eq_nil_of_forall₂ hboxes hl

/-- What is found in a branch whose atoms lack it, but for one. -/
theorem ShowsBranch.exists_flatMap_having (h : ShowsBranch a slot parts)
    (hb : a.branch slot = some (before ++ c :: after)) :
    ∃ b ∈ parts, LaidOut c b ∧ ∀ p : MathBox → Bool, IgnoresCarets p ∨ NoCaretIn a slot →
      (∀ s ∈ before ++ after, Lacks p s) → parts.flatMap (·.having p) = b.having p := by
  cases h with
  | absent hnone =>
      rw [hnone] at hb
      cases hb
  | items hitems hshown =>
      rw [hb] at hitems
      cases hitems
      obtain ⟨cls, hmem, hfound⟩ := hshown.exists_flatMap_having
      refine ⟨_, List.mem_append_right _ hmem, .atom _ cls c, fun p hc hl => ?_⟩
      rw [List.flatMap_append, flatMap_having_lead hc, List.nil_append]
      exact hfound p (hc.imp_right fun h => h.beside_branch hb) hl
  | grid hitems _ hboxes =>
      rw [hb] at hitems
      cases hitems
      obtain ⟨b, hmem, hbox, hfound⟩ := exists_flatMap_having_of_forall₂ hboxes
      exact ⟨b, hmem, hbox, fun p _ hl => hfound p hl⟩

theorem ShowsBranches.flatMap_having_eq_nil (h : ShowsBranches a slots parts)
    (hn : ∀ slot ∈ slots, ∀ parts, ShowsBranch a slot parts → parts.flatMap (·.having p) = []) :
    parts.flatMap (·.having p) = [] := by
  induction h with
  | nil => rfl
  | cons hbranch _ ih =>
      obtain ⟨hslot, hslots⟩ := List.forall_mem_cons.1 hn
      rw [List.flatMap_append, hslot _ hbranch, ih hslots, List.append_nil]

/-- What is found in several branches that lack it, but for one. -/
theorem ShowsBranches.exists_flatMap_having (h : ShowsBranches a slots parts) (hs : slot ∈ slots)
    (hd : slots.Nodup) : ∃ branchParts, ShowsBranch a slot branchParts ∧ branchParts ⊆ parts ∧
      ∀ p : MathBox → Bool, (∀ other ≠ slot, ∀ otherParts, ShowsBranch a other otherParts →
        otherParts.flatMap (·.having p) = []) →
      parts.flatMap (·.having p) = branchParts.flatMap (·.having p) := by
  induction h with
  | nil => cases hs
  | @cons head rest parts parts' hbranch hrest ih =>
      obtain ⟨hhead, hd⟩ := List.nodup_cons.1 hd
      rcases List.mem_cons.1 hs with rfl | hs
      · refine ⟨parts, hbranch, List.subset_append_left .., fun p hn => ?_⟩
        rw [List.flatMap_append, hrest.flatMap_having_eq_nil fun other hother =>
          hn other (ne_of_mem_of_not_mem hother hhead), List.append_nil]
      · obtain ⟨branchParts, hshown, hsub, hfound⟩ := ih hs hd
        refine ⟨branchParts, hshown, List.subset_append_of_subset_right _ hsub, fun p hn => ?_⟩
        rw [List.flatMap_append, hn head (ne_of_mem_of_not_mem hs hhead).symm _ hbranch,
          List.nil_append, hfound p hn]

/-! ## Atoms -/

theorem mem_displaySlots (slot : Slot) : slot ∈ displaySlots := by
  cases slot <;> decide

theorem nodup_displaySlots : displaySlots.Nodup := by
  decide

/-- What the layout of an atom adds is not found, and neither is what the atoms below lack. -/
theorem Shows.filter_inner_eq_nil (h : Shows a b) (hp : Overlooks p a)
    (hl : ∀ s ∈ a.children, Lacks p s) : b.inner.filter p = [] := by
  obtain ⟨parts, hbranches, hframed⟩ := h.exists_framed
  rw [hframed.filter hp.frame]
  exact hbranches.flatMap_having_eq_nil fun slot _ parts hparts =>
    hparts.flatMap_having_eq_nil (hp.caret.imp_right fun h => h slot) fun s hs =>
      hl s (Atom.mem_children_of_mem_getD hs)

theorem lacks_of_overlooks (hw : a.isWellFormed = true) (hp : ∀ c ∈ a.subatoms, Overlooks p c)
    (hown : ∀ c ∈ a.subatoms, ∀ b, Shows c b → p b = false) : Lacks p a := by
  induction a using Atom.branchInduction with
  | step a ih =>
      intro b hb
      have hshows := hb.shows hw
      have ha := Atom.self_mem_subatoms a
      have hbelow {s c : Atom} (hs : s ∈ a.children) (hc : c ∈ s.subatoms) : c ∈ a.subatoms :=
        Atom.mem_subatoms.2 (.inr ⟨s, hs, hc⟩)
      rw [MathBox.having_eq, hown a ha b hshows, hshows.filter_inner_eq_nil (hp a ha)]
      · rfl
      · intro s hs
        obtain ⟨slot, atoms, hatoms, hmem⟩ := Atom.mem_children.1 hs
        exact ih slot atoms hatoms s hmem (Atom.isWellFormed_of_mem_children hw hs)
          (fun c hc => hp c (hbelow hs hc)) fun c hc => hown c (hbelow hs hc)

/-- What is found in the layout of an atom is found in one of its branches, if all others lack it.
-/
theorem Shows.exists_branch (h : Shows a b) (slot : Slot) :
    ∃ parts, ShowsBranch a slot parts ∧ (∀ part ∈ parts, part.subboxes ⊆ b.subboxes) ∧
      ∀ p : MathBox → Bool, (∀ b, IsFrame a.id b → p b = false) →
      (∀ other ≠ slot, (IgnoresCarets p ∨ NoCaretIn a other) ∧
        ∀ s ∈ (a.branch other).getD [], Lacks p s) →
      b.inner.filter p = parts.flatMap (·.having p) := by
  obtain ⟨parts, hbranches, hframed⟩ := h.exists_framed
  obtain ⟨branchParts, hbranch, hsub, hfound⟩ :=
    hbranches.exists_flatMap_having (mem_displaySlots slot) nodup_displaySlots
  refine ⟨branchParts, hbranch, fun part hpart => ?_, fun p hp hother => ?_⟩
  · rw [MathBox.subboxes_eq b]
    exact List.subset_cons_of_subset b (hframed.subset (hsub hpart))
  · rw [hframed.filter hp]
    exact hfound p fun other hne otherParts hshown =>
      hshown.flatMap_having_eq_nil (hother other hne).1 (hother other hne).2

/-- What is found in the layout of an atom is found in that of one of its children, if all others
lack it. -/
theorem LaidOut.exists_child (h : LaidOut a b) (hw : a.isWellFormed = true)
    (hb : a.branch slot = some (before ++ c :: after)) :
    ∃ part, LaidOut c part ∧ part.subboxes ⊆ b.subboxes ∧ ∀ p : MathBox → Bool, Overlooks p a →
      (∀ s ∈ before ++ after, Lacks p s) →
      (∀ other ≠ slot, ∀ s ∈ (a.branch other).getD [], Lacks p s) →
      b.inner.filter p = part.having p := by
  obtain ⟨parts, hbranch, hsub, hfound⟩ := (h.shows hw).exists_branch slot
  obtain ⟨part, hmem, hpart, hfoundIn⟩ := hbranch.exists_flatMap_having hb
  refine ⟨part, hpart, hsub part hmem, fun p hp hl hother => ?_⟩
  rw [← hfoundIn p (hp.caret.imp_right fun h => h slot) hl]
  exact hfound p hp.frame fun other hne => ⟨hp.caret.imp_right fun h => h other, hother other hne⟩

end Typeset

end FormulaEditor

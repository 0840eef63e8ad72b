import FormulaEditor.Proofs.Formula.Filtering
import FormulaEditor.Proofs.Typeset.Finding

/-!
# Marks in a layout

Carets and selected boxes come from marks and from nothing else. In a formula without marks, apart
from those in one branch, the layout shows those of that branch.
-/

namespace FormulaEditor

open Atom (withLabels)

/-- Whether a label has a mark for a caret. -/
def Label.hasCaret (l : Label) : Bool :=
  l.marks.caretAfter || l.marks.caretBefore || l.marks.caretInside

/-- Whether a label has a mark that lasts for one layout only. -/
def Label.isTransient (l : Label) : Bool :=
  l.hasCaret || l.marks.selected

namespace Typeset

/-- Whether a box is a caret. -/
def MathBox.isCaret (b : MathBox) : Bool :=
  b.content == .caret

/-- Whether a box is drawn as selected. -/
def MathBox.isSelected (b : MathBox) : Bool :=
  b.classes.contains .selected

/-- A property that boxes have from marks only. -/
structure FromMarks (p : MathBox → Bool) : Prop where
  frame : ∀ id b, IsFrame id b → p b = false
  own : ∀ a b, Shows a b → a.marks.selected = false → p b = false

variable {p : MathBox → Bool} {a a' c owner : Atom} {b : MathBox} {slot : Slot} {style : Style}
  {atoms before after content : List Atom} {parts : List MathBox}

theorem fromMarks_isCaret : FromMarks MathBox.isCaret where
  frame _ _ hb := by simpa [MathBox.isCaret] using hb.content
  own _ _ hb _ := by simpa [MathBox.isCaret] using hb.content_ne

theorem fromMarks_isSelected : FromMarks MathBox.isSelected where
  frame _ _ hb := by simpa [MathBox.isSelected] using hb.classes
  own a b hb ha := by
    have hnot : .selected ∉ b.classes := fun hs => by simp [hb.selected hs] at ha
    simpa [MathBox.isSelected] using hnot

theorem ignoresCarets_isSelected : IgnoresCarets MathBox.isSelected :=
  fun _ => rfl

/-! ## Without marks -/

theorem besideNoCaret (h : withLabels Label.hasCaret [a] = []) : BesideNoCaret a := by
  have hlabel := (Atom.withLabels_singleton_eq_nil_iff.1 h).1
  simp only [Label.hasCaret, Bool.or_eq_false_iff] at hlabel
  exact ⟨hlabel.1.2, hlabel.1.1⟩

theorem noCaretIn (h : withLabels Label.hasCaret [a] = []) (slot : Slot) : NoCaretIn a slot := by
  obtain ⟨hlabel, hslots⟩ := Atom.withLabels_singleton_eq_nil_iff.1 h
  simp only [Label.hasCaret, Bool.or_eq_false_iff] at hlabel
  exact ⟨leadsWithCaret_of_inside hlabel.2 slot, fun s hs =>
    besideNoCaret (Atom.withLabels_eq_nil_iff.1 (hslots slot) s hs)⟩

theorem lacks_isCaret (hw : a.isWellFormed = true) (h : withLabels Label.hasCaret [a] = []) :
    Lacks MathBox.isCaret a :=
  lacks_of_overlooks hw
    (fun c hc => ⟨fromMarks_isCaret.frame c.id,
      .inr (noCaretIn (Atom.withLabels_eq_nil_of_mem h hc))⟩)
    fun _ _ _ hb => by simpa [MathBox.isCaret] using hb.content_ne

theorem lacks_isSelected (hw : a.isWellFormed = true)
    (h : withLabels (fun l => l.marks.selected) [a] = []) : Lacks MathBox.isSelected a := by
  refine lacks_of_overlooks hw
    (fun c _ => ⟨fromMarks_isSelected.frame c.id, .inl ignoresCarets_isSelected⟩)
    fun c hc b hb => fromMarks_isSelected.own c b hb ?_
  exact (Atom.withLabels_singleton_eq_nil_iff.1 (Atom.withLabels_eq_nil_of_mem h hc)).1

theorem hasCaret_eq_nil (h : withLabels Label.isTransient atoms = []) :
    withLabels Label.hasCaret atoms = [] :=
  Atom.withLabels_eq_nil_mono (fun l hl => by simp [Label.isTransient, hl]) h

theorem selected_eq_nil (h : withLabels Label.isTransient atoms = []) :
    withLabels (fun l => l.marks.selected) atoms = [] :=
  Atom.withLabels_eq_nil_mono (fun l hl => by simp [Label.isTransient, hl]) h

theorem selected_eq_false (h : withLabels Label.isTransient [a] = []) :
    a.marks.selected = false :=
  (Atom.withLabels_singleton_eq_nil_iff.1 (selected_eq_nil h)).1

/-- In the layout of a formula without marks there is nothing that comes from marks. -/
theorem FromMarks.lacks (hp : FromMarks p) (hw : a.isWellFormed = true)
    (h : withLabels Label.isTransient [a] = []) : Lacks p a :=
  lacks_of_overlooks hw
    (fun c hc => ⟨hp.frame c.id,
      .inr (noCaretIn (hasCaret_eq_nil (Atom.withLabels_eq_nil_of_mem h hc)))⟩)
    fun c hc b hb => hp.own c b hb (selected_eq_false (Atom.withLabels_eq_nil_of_mem h hc))

/-! ## One changed branch -/

theorem NoCaretIn.putBranch_of_ne {other : Slot} (h : NoCaretIn a other) (hne : other ≠ slot)
    (content : Option (List Atom)) : NoCaretIn (a.putBranch slot content) other :=
  ⟨h.lead, by
    rw [Atom.branch_putBranch_of_ne a hne]
    exact h.beside⟩

theorem NoCaretIn.putBranch_self (h : NoCaretIn a slot) (hc : ∀ s ∈ content, BesideNoCaret s) :
    NoCaretIn (a.putBranch slot (some content)) slot :=
  ⟨h.lead, by
    rw [Atom.branch_putBranch_self]
    exact hc⟩

section

variable (hw : a.isWellFormed = true) (hn : withLabels Label.isTransient [a] = [])
include hw hn

/-- In an atom without marks the branches that were not changed show nothing that comes from marks.
-/
theorem FromMarks.lacks_putBranch_of_ne (hp : FromMarks p) (content : Option (List Atom))
    {other : Slot} (hne : other ≠ slot) : NoCaretIn (a.putBranch slot content) other ∧
      ∀ s ∈ ((a.putBranch slot content).branch other).getD [], Lacks p s := by
  refine ⟨(noCaretIn (hasCaret_eq_nil hn) other).putBranch_of_ne hne content, fun s hs => ?_⟩
  rw [Atom.branch_putBranch_of_ne a hne] at hs
  have hchild := Atom.mem_children_of_mem_getD hs
  exact hp.lacks (Atom.isWellFormed_of_mem_children hw hchild)
    (Atom.withLabels_eq_nil_of_mem_children hn hchild)

/-- What comes from marks once a child was changed is in the layout of the changed child. -/
theorem LaidOut.exists_changed (hs : ∀ s ∈ before ++ after, s ∈ a.children)
    (hw' : (a.putBranch slot (some (before ++ c :: after))).isWellFormed = true)
    (hc : BesideNoCaret c) (h : LaidOut (a.putBranch slot (some (before ++ c :: after))) b) :
    ∃ part, LaidOut c part ∧ part.subboxes ⊆ b.subboxes ∧
      ∀ p : MathBox → Bool, FromMarks p → b.having p = part.having p := by
  obtain ⟨part, hpart, hsub, hfound⟩ :=
    h.exists_child hw' (Atom.branch_putBranch_self a slot (some (before ++ c :: after)))
  refine ⟨part, hpart, hsub, fun p hp => ?_⟩
  have hclear {s : Atom} (hs' : s ∈ before ++ after) : withLabels Label.isTransient [s] = [] :=
    Atom.withLabels_eq_nil_of_mem_children hn (hs s hs')
  have hbeside : ∀ s ∈ before ++ c :: after, BesideNoCaret s := by
    intro s hs'
    rcases List.mem_append.1 hs' with hs' | hs'
    · exact besideNoCaret (hasCaret_eq_nil (hclear (List.mem_append_left _ hs')))
    · rcases List.mem_cons.1 hs' with rfl | hs'
      · exact hc
      · exact besideNoCaret (hasCaret_eq_nil (hclear (List.mem_append_right _ hs')))
  have hcarets (other : Slot) :
      NoCaretIn (a.putBranch slot (some (before ++ c :: after))) other := by
    by_cases hne : other = slot
    · rw [hne]
      exact (noCaretIn (hasCaret_eq_nil hn) slot).putBranch_self hbeside
    · exact (hp.lacks_putBranch_of_ne hw hn _ hne).1
  rw [MathBox.having_eq, hp.own _ b (h.shows hw') (selected_eq_false hn :)]
  refine hfound p ⟨hp.frame _, .inr hcarets⟩ (fun s hs' => ?_) fun other hne =>
    (hp.lacks_putBranch_of_ne hw hn _ hne).2
  exact hp.lacks (Atom.isWellFormed_of_mem_children hw (hs s hs')) (hclear hs')

end

/-! ## Below a path -/

/-- In a formula without marks, what comes from marks once an atom was changed is in the layout of
the changed atom. -/
theorem LaidOut.exists_descend {steps : List Step} {f : Atom → Atom} (hw : a.isWellFormed = true)
    (hn : withLabels Label.isTransient [a] = []) (hd : a.descend? steps = some owner)
    (hk : (f owner).kind = owner.kind) (hwf : (f owner).isWellFormed = true)
    (hf : BesideNoCaret (f owner)) (hm : a.modifyAt? f steps = some a') (h : LaidOut a' b) :
    ∃ part, LaidOut (f owner) part ∧ part.subboxes ⊆ b.subboxes ∧
      ∀ p : MathBox → Bool, FromMarks p → b.having p = part.having p := by
  induction steps generalizing a a' b with
  | nil =>
      cases hd
      cases hm
      exact ⟨b, h, List.Subset.refl _, fun _ _ => rfl⟩
  | cons s rest ih =>
      have hw' := (Atom.isWellFormed_modifyAt? hw hd hk hwf hm).1
      obtain ⟨atoms, i, child, hb, hi, hc, hd⟩ := Atom.descend?_cons_eq_some hd
      rw [Atom.modifyAt?_cons hb hi hc] at hm
      obtain ⟨c, hcm, rfl⟩ := Option.map_eq_some_iff.1 hm
      have hchild : child ∈ a.children :=
        Atom.mem_children.2 ⟨s.slot, atoms, hb, List.mem_of_getElem? hc⟩
      have hclear := Atom.withLabels_eq_nil_of_mem_children hn hchild
      have hbeside : BesideNoCaret c := by
        cases rest with
        | nil =>
            cases hd
            cases hcm
            exact hf
        | cons t rest =>
            obtain ⟨atoms', j, child', hb', hj, hc', -⟩ := Atom.descend?_cons_eq_some hd
            rw [Atom.modifyAt?_cons hb' hj hc'] at hcm
            obtain ⟨c', -, rfl⟩ := Option.map_eq_some_iff.1 hcm
            exact ⟨(besideNoCaret (hasCaret_eq_nil hclear)).before,
              (besideNoCaret (hasCaret_eq_nil hclear)).after⟩
      have hlt : i < atoms.length := Atom.lt_length_of_getElem?_eq_some hc
      rw [List.set_eq_take_append_cons_drop, if_pos hlt] at h hw'
      have hsiblings : ∀ s' ∈ atoms.take i ++ atoms.drop (i + 1), s' ∈ a.children := fun s' hs' =>
        Atom.mem_children.2 ⟨s.slot, atoms, hb,
          (List.mem_append.1 hs').elim List.mem_of_mem_take List.mem_of_mem_drop⟩
      obtain ⟨part, hpart, hsub, hfound⟩ := h.exists_changed hw hn hsiblings hw' hbeside
      obtain ⟨inner, hinner, hsubInner, hfoundInner⟩ :=
        ih (Atom.isWellFormed_of_mem_children hw hchild) hclear hd hcm hpart
      exact ⟨inner, hinner, List.Subset.trans hsubInner hsub,
        fun p hp => (hfound p hp).trans (hfoundInner p hp)⟩

/-! ## A filled branch -/

/-- What comes from marks in an atom that had none before a branch was filled is in the boxes of the
branch. -/
theorem LaidOut.exists_items (hw : a.isWellFormed = true)
    (hn : withLabels Label.isTransient [a] = []) (hg : isGridBody a.kind slot = false)
    (hw' : (a.putBranch slot (some content)).isWellFormed = true)
    (h : LaidOut (a.putBranch slot (some content)) b) :
    ∃ style parts, ShowsItems style content parts ∧
      ∀ p : MathBox → Bool, FromMarks p → b.having p = parts.flatMap (·.having p) := by
  have hshows := h.shows hw'
  have hlead : leadsWithCaret (a.putBranch slot (some content)) slot = false :=
    (noCaretIn (hasCaret_eq_nil hn) slot).lead
  obtain ⟨branchParts, hbranch, -, hfound⟩ := hshows.exists_branch slot
  have hall (p : MathBox → Bool) (hp : FromMarks p) :
      b.having p = branchParts.flatMap (·.having p) := by
    rw [MathBox.having_eq, hp.own _ b hshows (selected_eq_false hn :)]
    refine hfound p (hp.frame _) fun other hne => ?_
    exact ⟨.inr (hp.lacks_putBranch_of_ne hw hn _ hne).1, (hp.lacks_putBranch_of_ne hw hn _ hne).2⟩
  cases hbranch with
  | absent hnone =>
      rw [Atom.branch_putBranch_self] at hnone
      cases hnone
  | @items atoms style parts hatoms hitems =>
      rw [Atom.branch_putBranch_self] at hatoms
      cases hatoms
      rw [hlead] at hall
      exact ⟨style, parts, hitems, hall⟩
  | grid _ hgrid _ =>
      rw [Atom.kind_putBranch, hg] at hgrid
      cases hgrid

/-- What comes from marks in a formula that had none before a branch was filled is in the boxes of
the branch. -/
theorem LaidOut.exists_fill {root : Atom} {q : Path} (hb : IsBranch root q slot owner atoms)
    (hw : root.isWellFormed = true) (hn : withLabels Label.isTransient [root] = [])
    (hw' : (q.fill slot content root).isWellFormed = true)
    (h : LaidOut (q.fill slot content root) b) :
    ∃ style parts, ShowsItems style content parts ∧
      ∀ p : MathBox → Bool, FromMarks p → b.having p = parts.flatMap (·.having p) := by
  have hclear : withLabels Label.isTransient [owner] = [] :=
    Atom.withLabels_descend?_eq_nil hn hb.atom?_eq
  have howner := (hb.fill content).isWellFormed_owner hw'
  have hbeside := besideNoCaret (hasCaret_eq_nil hclear)
  obtain ⟨part, hpart, -, hfound⟩ := h.exists_descend hw hn hb.atom?_eq rfl howner
    ⟨hbeside.before, hbeside.after⟩ (Path.modifyAtom?_eq_some hb.atom?_eq _)
  obtain ⟨style, parts, hitems, hfoundIn⟩ :=
    hpart.exists_items (hb.isWellFormed_owner hw) hclear hb.not_grid howner
  exact ⟨style, parts, hitems, fun p hp => (hfound p hp).trans (hfoundIn p hp)⟩

theorem having_isCaret_eq_nil (h : Shows a b) (hw : a.isWellFormed = true)
    (hi : a.marks.caretInside = false) (hn : withLabels Label.hasCaret a.children = []) :
    b.having MathBox.isCaret = [] := by
  rw [Atom.withLabels_eq_nil_iff] at hn
  have hcarets (slot : Slot) : NoCaretIn a slot :=
    ⟨leadsWithCaret_of_inside hi slot, fun s hs =>
      besideNoCaret (hn s (Atom.mem_children_of_mem_getD hs))⟩
  have hown : b.isCaret = false := by simpa [MathBox.isCaret] using h.content_ne
  rw [MathBox.having_eq, hown, h.filter_inner_eq_nil ⟨fromMarks_isCaret.frame a.id, .inr hcarets⟩
    fun s hs => lacks_isCaret (Atom.isWellFormed_of_mem_children hw hs) (hn s hs)]
  rfl

theorem flatMap_having_isCaret_caretIf (style : Style) (present : Bool) :
    (caretIf style present).flatMap (·.having MathBox.isCaret) = caretIf style present := by
  cases present <;> rfl

theorem ShowsItems.having_isCaret_eq_nil (h : ShowsItems style atoms parts)
    (hw : ∀ s ∈ atoms, s.isWellFormed = true) (hn : withLabels Label.hasCaret atoms = []) :
    parts.flatMap (·.having MathBox.isCaret) = [] := by
  rw [Atom.withLabels_eq_nil_iff] at hn
  exact h.flatMap_having_eq_nil (.inr fun s hs => besideNoCaret (hn s hs)) fun s hs =>
    lacks_isCaret (hw s hs) (hn s hs)

/-- A caret beside one of several siblings without marks. -/
theorem ShowsItems.having_isCaret {marks : Marks}
    (h : ShowsItems style (before ++ c.mark marks :: after) parts)
    (hw : ∀ s ∈ before ++ c :: after, s.isWellFormed = true)
    (hn : withLabels Label.hasCaret (before ++ c :: after) = [])
    (hi : marks.caretInside = false) (hm : marks.caretBefore = !marks.caretAfter) :
    parts.flatMap (·.having MathBox.isCaret) = [caretIn style] := by
  obtain ⟨left, right, rfl, hleft, hright⟩ := h.exists_append
  obtain ⟨hwBefore, hwRest⟩ := List.forall_mem_append.1 hw
  obtain ⟨hwc, hwAfter⟩ := List.forall_mem_cons.1 hwRest
  rw [Atom.withLabels_append, Atom.withLabels_cons, List.append_eq_nil_iff,
    List.append_eq_nil_iff] at hn
  obtain ⟨hnBefore, hnc, hnAfter⟩ := hn
  cases hright with
  | @cons _ cls _ rest hrest =>
      have hwm : (c.mark marks).isWellFormed = true := (Atom.isWellFormed_mapMarks c _).2 hwc
      have hchildren : withLabels Label.hasCaret (c.mark marks).children = [] := by
        rw [Atom.children_mark]
        exact Atom.withLabels_children_eq_nil hnc
      have hown := (Atom.withLabels_singleton_eq_nil_iff.1 hnc).1
      simp only [Label.hasCaret, Bool.or_eq_false_iff] at hown
      have hmarks : (c.mark marks).marks.caretBefore = marks.caretBefore ∧
          (c.mark marks).marks.caretAfter = marks.caretAfter ∧
          (c.mark marks).marks.caretInside = false := by
        rw [Atom.marks_mark]
        simp [Marks.union, Atom.marks, hown, hi]
      obtain ⟨hbefore, hafter, hinside⟩ := hmarks
      have hbox := Typeset.having_isCaret_eq_nil (shows_layoutAtom hwm style cls) hwm hinside
        hchildren
      have hnone := hleft.having_isCaret_eq_nil hwBefore hnBefore
      have hnone' := hrest.having_isCaret_eq_nil hwAfter hnAfter
      simp only [List.flatMap_append, flatMap_having_isCaret_caretIf, hnone, hnone',
        List.flatMap_singleton, hbox, hbefore, hafter, hm]
      cases marks.caretAfter <;> rfl

/-- A caret in an empty body. -/
theorem LaidOut.exists_having_isCaret (h : LaidOut a b) (hw : a.isWellFormed = true)
    (hi : leadsWithCaret a .body = true) (hb : a.branch .body = some [])
    (hg : isGridBody a.kind .body = false) (hn : withLabels Label.hasCaret a.children = []) :
    ∃ style, b.having MathBox.isCaret = [caretIn style] := by
  have hshows := h.shows hw
  obtain ⟨parts, hbranch, -, hfound⟩ := hshows.exists_branch .body
  have hown : b.isCaret = false := by simpa [MathBox.isCaret] using hshows.content_ne
  have hall : b.having MathBox.isCaret = parts.flatMap (·.having MathBox.isCaret) := by
    rw [Atom.withLabels_eq_nil_iff] at hn
    rw [MathBox.having_eq, hown]
    refine hfound _ (fromMarks_isCaret.frame a.id) fun other hne => ⟨.inr ⟨?_, fun s hs => ?_⟩, ?_⟩
    · exact leadsWithCaret_of_ne a hne
    · exact besideNoCaret (hn s (Atom.mem_children_of_mem_getD hs))
    · intro s hs
      have hchild := Atom.mem_children_of_mem_getD hs
      exact lacks_isCaret (Atom.isWellFormed_of_mem_children hw hchild) (hn s hchild)
  cases hbranch with
  | absent hnone =>
      rw [hnone] at hb
      cases hb
  | @items atoms style parts hatoms hitems =>
      rw [hb] at hatoms
      cases hatoms
      cases hitems
      rw [List.append_nil, flatMap_having_isCaret_caretIf, hi] at hall
      exact ⟨style, hall⟩
  | grid _ hgrid _ =>
      rw [hg] at hgrid
      cases hgrid

/-- The whole box of an atom, in some style and with some spacing before it. -/
def IsBoxOf (a : Atom) (b : MathBox) : Prop :=
  ∃ style cls, b = layoutAtom style cls a

theorem isSelected_layoutAtom (style : Style) (cls : Option SpacingClass)
    (h : a.marks.selected = true) : (layoutAtom style cls a).isSelected = true := by
  obtain ⟨label, ⟨body, sup, sub, numerator, denominator, index, radicand⟩⟩ := a
  rw [layoutAtom, MathBox.isSelected, MathBox.classes_withClasses, List.contains_iff_mem,
    List.mem_append]
  exact .inr ((selected_mem_markClasses _).2 h)

/-- The selected boxes of selected siblings are their own. -/
theorem ShowsItems.having_isSelected (h : ShowsItems style atoms parts)
    (hw : ∀ s ∈ atoms, s.isWellFormed = true) (hs : ∀ s ∈ atoms, s.marks.selected = true)
    (hn : ∀ s ∈ atoms, withLabels (fun l => l.marks.selected) s.children = []) :
    List.Forall₂ IsBoxOf atoms (parts.flatMap (·.having MathBox.isSelected)) := by
  induction h with
  | nil => exact .nil
  | @cons a cls rest parts hrest ih =>
      obtain ⟨hwa, hwr⟩ := List.forall_mem_cons.1 hw
      obtain ⟨hsa, hsr⟩ := List.forall_mem_cons.1 hs
      obtain ⟨hna, hnr⟩ := List.forall_mem_cons.1 hn
      rw [flatMap_having_cons (.inl ignoresCarets_isSelected)]
      have hbox :
          (layoutAtom style cls a).having MathBox.isSelected = [layoutAtom style cls a] := by
        rw [MathBox.having_eq, isSelected_layoutAtom style cls hsa,
          (shows_layoutAtom hwa style cls).filter_inner_eq_nil
            ⟨fromMarks_isSelected.frame a.id, .inl ignoresCarets_isSelected⟩ fun s hs' =>
              lacks_isSelected (Atom.isWellFormed_of_mem_children hwa hs')
                (Atom.withLabels_eq_nil_iff.1 hna s hs')]
        rfl
      rw [hbox]
      exact .cons ⟨style, cls, rfl⟩ (ih hwr hsr hnr)

end Typeset

end FormulaEditor

import FormulaEditor.Proofs.Latex.Readable

/-!
# What the reader makes

The atoms that the reader makes have new labels, without marks and of kinds that the tables prescribe.
A property that all such labels have holds of everything that is read; where the reader has to repair
the source, marks for errors and unknown commands have to have it as well.
-/

namespace FormulaEditor

open Atom (ConsistsOf Items)

/-- Whether atoms of the kind are made from a source without problems. -/
def Kind.isRead : Kind → Bool
  | unknownCommand | command => false
  | _ => true

/-- A property that the labels of new atoms have. -/
def Label.Fresh (P : Label → Prop) : Prop :=
  ∀ (id : Nat) (kind : Kind) (value : Option String) (glyph : Option Char), kind.isRead = true →
    P ⟨id, kind, value, glyph, Marks.none⟩

/-- A property that repairs of a source keep: marks for errors do not take it away, and unknown
commands have it. -/
structure Label.Repaired (P : Label → Prop) : Prop where
  markError : ∀ l : Label, P l → P { l with marks := { l.marks with error := true } }
  unknown : ∀ id value, P ⟨id, .unknownCommand, value, none, Marks.none⟩

theorem Label.Fresh.lasting {P : Label → Prop} (hP : Label.Fresh P) : Label.Lasting P :=
  ⟨fun n => hP n .placeholder none none rfl⟩

namespace Atom

theorem ConsistsOf.mapLabel {P : Label → Prop} {a : Atom} {f : Label → Label}
    (h : a.ConsistsOf P) (hk : ∀ l, (f l).kind = l.kind) (hf : ∀ l, P l → P (f l)) :
    (a.mapLabel f).ConsistsOf P := by
  have hkind : (a.mapLabel f).kind = a.kind := by
    cases a
    exact hk _
  have hlabel : (a.mapLabel f).label = f a.label := by
    cases a
    rfl
  have hbranch (slot : Slot) : (a.mapLabel f).branch slot = a.branch slot := by
    cases a
    rfl
  refine (consistsOf_iff _).2 ⟨hlabel ▸ hf _ h.label, fun slot atoms hb => ?_⟩
  rw [hkind]
  exact h.branch (hbranch slot ▸ hb)

end Atom

namespace Latex

variable {P : Label → Prop} {args contents : List (List Atom)} {index : Option (List Atom)}
  {kind : Kind}

/-- An item that consists of what has the property `P`. -/
def IsItemOf (P : Label → Prop) (a : Atom) : Prop :=
  a.kind.isItem = true ∧ a.ConsistsOf P

theorem IsItemOf.markError {a : Atom} (hr : Label.Repaired P) (h : IsItemOf P a) :
    IsItemOf P a.markError :=
  ⟨by cases a; exact h.1, h.2.mapLabel (fun _ => rfl) hr.markError⟩

variable (hP : Label.Fresh P)

include hP

theorem isItemOf_leaf (hk : kind.shape = .leaf) (hr : kind.isRead = true) (value : Option String)
    (glyph : Option Char) (n : Nat) : IsItemOf P (Atom.leaf n kind value glyph) := by
  refine ⟨?_, Atom.consistsOf_leaf n kind value glyph (hP n kind value glyph hr)⟩
  cases kind <;> first | rfl | cases hk

theorem isItemOf_newMathChar (c : Char) (n : Nat) : IsItemOf P (Reader.newMathChar c n).1 := by
  have hkind : (Reader.charKind c).1.shape = .leaf ∧ (Reader.charKind c).1.isRead = true := by
    unfold Reader.charKind
    split <;> exact ⟨rfl, rfl⟩
  unfold Reader.newMathChar
  split
  · exact isItemOf_leaf hP rfl rfl _ _ _
  · split
    · exact isItemOf_leaf hP rfl rfl _ _ _
    · exact isItemOf_leaf hP hkind.1 hkind.2 _ _ _

theorem isItemOf_newWrapper (hs : kind.shape = .sequence) (hi : kind.isItem = true)
    (hg : kind.isGrid = false) {atoms : List Atom} (hc : Items P atoms) (value : Option String)
    (n : Nat) : IsItemOf P (Atom.newWrapper kind value atoms n).1 := by
  have hr : kind.isRead = true := by
    cases kind <;> first | rfl | cases hs
  refine ⟨?_, Atom.consistsOf_newWrapper_items hP.lasting hs hg
    (fun n => hP n kind value none hr) hc n⟩
  rw [Atom.newWrapper_apply hs]
  exact hi

theorem isItemOf_newWithArguments {action : Action} (ht : action.takesArguments = true)
    (hc : ∀ content ∈ contents, Items P content)
    (hi : ∀ content, index = some content → Items P content) (command : String) (n : Nat) :
    IsItemOf P (Reader.newWithArguments action command contents index n).1 := by
  have harg (i : Nat) : Items P (contents.getD i []) := forall_getD hc i
  cases action with
  | fraction =>
      exact ⟨rfl, Atom.consistsOf_newFraction hP.lasting (fun n => hP n _ _ _ rfl) (harg 0)
        (harg 1) n⟩
  | radical =>
      exact ⟨rfl, Atom.consistsOf_newRadical hP.lasting (fun n => hP n _ _ _ rfl) (harg 0) hi
        n⟩
  | accent glyph =>
      refine ⟨rfl, (Atom.consistsOf_iff _).2 ⟨hP _ _ _ _ rfl, fun slot atoms hb => ?_⟩⟩
      cases slot <;> cases hb
      exact (Atom.items_filled hP.lasting (harg 0) n).fits rfl
  | font => exact isItemOf_newWrapper hP rfl rfl rfl (harg 0) _ n
  | text => exact isItemOf_newWrapper hP rfl rfl rfl (harg 0) _ n
  | _ => cases ht

theorem isItemOf_newArray {rows : List (List (List Atom))} (hne : rows ≠ [])
    (hr : Rows (IsItemOf P) rows) (name : String) (n : Nat) :
    IsItemOf P (Reader.newArray name rows n).1 := by
  have hmade {α : Type} {f : α → Minting Atom} {as : List α} (hne : as ≠ []) (n : Nat) :
      (as.mapM f n).1 ≠ [] := by
    rw [← List.length_pos_iff, Minting.length_mapM]
    exact List.length_pos_iff.2 hne
  have hcell (content : List Atom) (h : Items P content) (n : Nat) :
      (newCell content n).1.ConsistsOf P :=
    Atom.consistsOf_newWrapper_items hP.lasting rfl rfl (fun n => hP n _ _ _ rfl) h n
  have hrow (cells : List (List Atom)) (hmem : cells ∈ rows) (n : Nat) :
      (newRow cells n).1.ConsistsOf P := by
    obtain ⟨hcells, hcontent⟩ := hr cells hmem
    exact Atom.consistsOf_newWrapper_grid rfl rfl (fun n => hP n .row _ _ rfl)
      (hmade hcells n)
      (Minting.forall_mapM (fun content hc => hcell content (hcontent content hc)) n) _
  exact ⟨rfl, Atom.consistsOf_newWrapper_grid rfl rfl (fun n => hP n .array _ _ rfl)
    (hmade hne n) (Minting.forall_mapM hrow n) _⟩

/-- Whatever is read consists of new labels, of those of its arguments and, unless the reading has no
problems, of repaired ones. -/
theorem readingClosed_isItemOf {strict : Prop} (ha : ∀ atoms ∈ args, Items P atoms)
    (hid : args ≠ [] → ∀ l : Label, P { l with id := 0 } ↔ P l) (hr : ¬strict → Label.Repaired P) :
    ReadingClosed args strict (fun _ => True) fun _ a => IsItemOf P a where
  char n _ _ := isItemOf_newMathChar hP _ n
  textChar n _ := isItemOf_leaf hP rfl rfl _ _ n
  prime _ n := isItemOf_leaf hP rfl rfl _ _ n
  placeholder _ n := isItemOf_leaf hP rfl rfl _ _ n
  group n h := isItemOf_newWrapper hP rfl rfl rfl h _ n
  body {_ a} h hbare b hb := by
    have hkind : a.kind = .group := by simp_all [Atom.isBareGroup]
    exact forall_mem_body (fun slot atoms hs => h.2.items hs (by rw [hkind]; rfl)) b hb
  script {_ a slot content} h _ hs _ hc :=
    ⟨h.1, h.2.putBranch (Items.fits hc (Atom.isGridBody_of_isScript _ hs))⟩
  superscript h hsup := h.2.items hsup (Atom.isGridBody_of_isScript _ rfl)
  argument _ hi := ha _ (List.mem_of_getElem? hi)
  copy _ n hi := by
    have hmem := List.mem_of_getElem? hi
    refine (ha _ hmem).of_mapLabels_eq (f := fun l => { l with id := 0 }) (fun _ => rfl)
      (hid (List.ne_nil_of_mem hmem)) ?_
    rw [← Atom.mapLabelsOfList_eq_map, ← Atom.mapLabelsOfList_eq_map]
    exact (Atom.mapLabels_relabelList (fun _ _ => rfl) _ n).symm
  alignment _ n hs _ := (isItemOf_leaf hP rfl rfl _ _ n).markError (hr hs)
  duplicate _ n hs := (isItemOf_leaf hP rfl rfl _ _ n).markError (hr hs)
  unknown _ n hs _ _ := IsItemOf.markError (hr hs)
    ⟨rfl, Atom.consistsOf_leaf n _ _ _ ((hr hs).unknown n _)⟩
  symbol {_ _ kind _} _ n _ hf hsymbol := by
    obtain ⟨hspelled, hknown⟩ := Vocabulary.isSpelled_of_symbol hf hsymbol
    refine isItemOf_leaf hP (Vocabulary.shape_of_symbol hf hsymbol) ?_ _ _ n
    cases kind <;> first | rfl | exact absurd rfl hknown | cases hspelled
  function n _ _ _ := isItemOf_leaf hP rfl rfl _ _ n
  space _ n _ _ _ := isItemOf_leaf hP rfl rfl _ _ n
  array n _ hne hrows := isItemOf_newArray hP hne hrows _ n
  withArguments n _ _ ht _ hc hi := isItemOf_newWithArguments hP ht hc hi _ n

end Latex

end FormulaEditor

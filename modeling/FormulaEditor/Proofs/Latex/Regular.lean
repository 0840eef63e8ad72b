import FormulaEditor.Proofs.Formula.Regular
import FormulaEditor.Proofs.Latex.WellFormed

/-!
# What is read is regular

The reader makes regular atoms, provided that the arguments of the fragment are regular. The
arguments may have empty branches, and then so may what is read.
-/

namespace FormulaEditor.Latex

open Atom (Regular)

variable {args rows : List (List (List Atom))} {contents : List (List Atom)}

theorem regular_newRow {cells : List (List Atom)}
    (h : ∀ content ∈ cells, ∀ a ∈ content, a.Regular) (n : Nat) : (newRow cells n).1.Regular := by
  have hcell : ∀ a ∈ (cells.mapM newCell n).1, a.kind = .cell ∧ a.Regular :=
    Minting.forall_mapM (fun content hcontent n =>
      ⟨Atom.kind_newWrapper .cell none content n,
        Atom.regular_newWrapper rfl (fun _ _ => rfl) (h content hcontent) none n⟩) n
  exact Atom.regular_newWrapper (rfl : Kind.shape .row = .sequence)
    (fun a ha => by simp [Kind.admits, (hcell a ha).1]) (fun a ha => (hcell a ha).2) none _

theorem regular_newArray (h : Rows Regular rows) (name : String) (n : Nat) :
    (Reader.newArray name rows n).1.Regular := by
  have hrow : ∀ a ∈ (rows.mapM newRow n).1, a.kind = .row ∧ a.Regular :=
    Minting.forall_mapM (fun cells hcells n =>
      ⟨Atom.kind_newWrapper .row none _ _, regular_newRow (h cells hcells).2 n⟩) n
  rw [newArray_eq]
  exact Atom.regular_newWrapper (rfl : Kind.shape .array = .sequence)
    (fun a ha => by simp [Kind.admits, (hrow a ha).1]) (fun a ha => (hrow a ha).2) (some name) _

theorem regular_newWithArguments {action : Action} (ht : action.takesArguments = true)
    (h : ∀ content ∈ contents, ∀ a ∈ content, a.Regular) {index : Option (List Atom)}
    (hi : ∀ content, index = some content → ∀ a ∈ content, a.Regular) (command : String) (n : Nat) :
    (Reader.newWithArguments action command contents index n).1.Regular := by
  have hwrapper (kind : Kind) (hs : kind.shape = .sequence) (hg : kind.isGrid = false) :
      (Atom.newWrapper kind (some command) (contents.getD 0 []) n).1.Regular :=
    Atom.regular_newWrapper hs (fun a _ => Kind.admits_of_not_isGrid (by simp [hg]) a.kind)
      (forall_getD h 0) (some command) n
  cases action with
  | fraction => exact Atom.regular_newFraction (forall_getD h 0) (forall_getD h 1) command n
  | radical => exact Atom.regular_newRadical (forall_getD h 0) hi n
  | accent glyph => exact (hwrapper .accent rfl rfl).of_eq rfl fun _ => rfl
  | font => exact hwrapper .font rfl rfl
  | text => exact hwrapper .text rfl rfl
  | _ => cases ht

/-- Regularity is closed under reading. -/
theorem readingClosed_regular {args : List (List Atom)}
    (h : ∀ atoms ∈ args, ∀ a ∈ atoms, a.Regular) :
    ReadingClosed args False (fun _ => True) fun _ a => a.Regular where
  char n _ _ := Atom.regular_of_isWellFormed (isWellFormed_newMathChar _ n)
  textChar n _ := Atom.regular_leaf ..
  prime _ n := Atom.regular_leaf ..
  placeholder _ n := Atom.regular_placeholder n
  group n ha := Atom.regular_newWrapper rfl (fun _ _ => rfl) ha none n
  body {_ a} ha hbare b hb := by
    rw [Atom.body] at hb
    cases hbody : a.branch .body with
    | none => simp [hbody] at hb
    | some atoms =>
        rw [hbody] at hb
        exact (ha.branch hbody).regular b hb
  script {mode a slot content} ha hk hs hne hc := by
    refine ha.putBranch (Atom.branchRegular_of_not_grid ?_ (Atom.isGridBody_of_isScript _ hs) hc)
    cases slot <;> first | exact hk | cases hs
  superscript ha hb := (ha.branch hb).regular
  argument _ hi := h _ (List.mem_of_getElem? hi)
  copy _ n hi := Atom.regular_relabelList (h _ (List.mem_of_getElem? hi)) n
  alignment _ n _ _ := (Atom.regular_leaf ..).markError
  duplicate _ n _ := (Atom.regular_placeholder n).markError
  unknown _ n _ _ _ := Regular.markError (Atom.regular_leaf n .unknownCommand _ _)
  symbol _ n _ _ _ := Atom.regular_leaf ..
  function n _ _ _ := Atom.regular_leaf ..
  space _ n _ _ _ := Atom.regular_leaf ..
  array n _ _ hr := regular_newArray hr _ n
  withArguments n _ _ ht _ hc hi := regular_newWithArguments ht hc hi _ n

theorem regular_parseFragment {args : List (List Atom)}
    (h : ∀ atoms ∈ args, ∀ a ∈ atoms, a.Regular) (source : String) (mode : ReadingMode)
    (supply : Nat) : ∀ a ∈ (parseFragment source mode args supply).1.atoms, a.Regular :=
  forall_parse (readingClosed_regular h) (fun _ _ => trivial) mode supply fun hs => hs.elim

end FormulaEditor.Latex

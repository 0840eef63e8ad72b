import FormulaEditor.Proofs.Latex.Reading

/-!
# What is read is well formed

Whatever the tokens are, the reader makes well-formed atoms, provided that the arguments of the
fragment are well formed.
-/

namespace FormulaEditor.Latex

namespace Vocabulary

theorem mem_of_find? {name : String} {m : Meaning} (h : find? name = some m) : (name, m) ∈ all := by
  obtain ⟨before, after, hall, -⟩ := List.lookup_eq_some_iff.1 h
  simp [hall]

/-- Whether the symbols among some commands are leaves. -/
def symbolsAreLeaves (entries : List (String × Meaning)) : Bool :=
  entries.all fun (_, m) =>
    match m.action with
    | .symbol kind _ => kind.shape == .leaf
    | _ => true

theorem symbolsAreLeaves_all : symbolsAreLeaves all = true := by
  decide +kernel

theorem shape_of_symbol {name : String} {m : Meaning} {kind : Kind} {glyph : Char}
    (h : find? name = some m) (ha : m.action = .symbol kind glyph) : kind.shape = .leaf := by
  have hmem := List.all_eq_true.1 symbolsAreLeaves_all _ (mem_of_find? h)
  simpa [ha] using hmem

end Vocabulary

/-! ## Arrays and wrappers -/

variable {rows : List (List (List Atom))} {contents : List (List Atom)}

/-- A new cell of an array. -/
def newCell (content : List Atom) : Minting Atom :=
  Atom.newWrapper .cell none content

/-- A new row of an array. -/
def newRow (cells : List (List Atom)) : Minting Atom := do
  Atom.newWrapper .row none (← cells.mapM newCell)

theorem newArray_eq (name : String) (rows : List (List (List Atom))) :
    Reader.newArray name rows =
      rows.mapM newRow >>= fun rows => Atom.newWrapper .array (some name) rows := rfl

theorem isWellFormed_newCell {content : List Atom} (h : ∀ a ∈ content, a.isWellFormed = true)
    (n : Nat) : (newCell content n).1.isWellFormed = true :=
  Atom.isWellFormed_newWrapper rfl (fun _ _ => rfl) h none n

theorem isWellFormed_newRow {cells : List (List Atom)}
    (h : ∀ content ∈ cells, ∀ a ∈ content, a.isWellFormed = true) (n : Nat) :
    (newRow cells n).1.isWellFormed = true := by
  have hcell : ∀ a ∈ (cells.mapM newCell n).1, a.kind = .cell ∧ a.isWellFormed = true :=
    Minting.forall_mapM (fun content hcontent n =>
      ⟨Atom.kind_newWrapper .cell none content n, isWellFormed_newCell (h content hcontent) n⟩) n
  exact Atom.isWellFormed_newWrapper (rfl : Kind.shape .row = .sequence)
    (fun a ha => by simp [Kind.admits, (hcell a ha).1]) (fun a ha => (hcell a ha).2) none _

theorem isWellFormed_newArray (h : Rows (fun a => a.isWellFormed = true) rows) (name : String)
    (n : Nat) : (Reader.newArray name rows n).1.isWellFormed = true := by
  have hrow : ∀ a ∈ (rows.mapM newRow n).1, a.kind = .row ∧ a.isWellFormed = true :=
    Minting.forall_mapM (fun cells hcells n =>
      ⟨Atom.kind_newWrapper .row none _ _, isWellFormed_newRow (h cells hcells).2 n⟩) n
  rw [newArray_eq]
  exact Atom.isWellFormed_newWrapper (rfl : Kind.shape .array = .sequence)
    (fun a ha => by simp [Kind.admits, (hrow a ha).1]) (fun a ha => (hrow a ha).2) (some name) _

theorem forall_getD {P : Atom → Prop} (h : ∀ content ∈ contents, ∀ a ∈ content, P a) (i : Nat) :
    ∀ a ∈ contents.getD i [], P a := by
  intro a ha
  cases hi : contents[i]? with
  | none => simp [List.getD, hi] at ha
  | some content =>
      simp only [List.getD, hi, Option.getD_some] at ha
      exact h content (List.mem_of_getElem? hi) a ha

theorem isWellFormed_withGlyph (a : Atom) (glyph : Option Char) :
    (a.withGlyph glyph).isWellFormed = true ↔ a.isWellFormed = true := by
  cases a
  simp [Atom.isWellFormed_iff, Atom.withGlyph, Atom.mapLabel, Atom.branch, Atom.kind]

theorem isWellFormed_newWithArguments {action : Action} (ht : action.takesArguments = true)
    (h : ∀ content ∈ contents, ∀ a ∈ content, a.isWellFormed = true) {index : Option (List Atom)}
    (hi : ∀ content, index = some content → ∀ a ∈ content, a.isWellFormed = true)
    (command : String) (n : Nat) :
    (Reader.newWithArguments action command contents index n).1.isWellFormed = true := by
  have hwrapper (kind : Kind) (hs : kind.shape = .sequence) (hg : kind.isGrid = false) :
      (Atom.newWrapper kind (some command) (contents.getD 0 []) n).1.isWellFormed = true :=
    Atom.isWellFormed_newWrapper hs (fun a _ => Kind.admits_of_not_isGrid (by simp [hg]) a.kind)
      (forall_getD h 0) (some command) n
  cases action with
  | fraction => exact Atom.isWellFormed_newFraction (forall_getD h 0) (forall_getD h 1) command n
  | radical => exact Atom.isWellFormed_newRadical (forall_getD h 0) hi n
  | accent glyph => exact (isWellFormed_withGlyph _ _).2 (hwrapper .accent rfl rfl)
  | font => exact hwrapper .font rfl rfl
  | text => exact hwrapper .text rfl rfl
  | _ => cases ht

/-! ## Reading -/

theorem isWellFormed_newMathChar (c : Char) (n : Nat) :
    (Reader.newMathChar c n).1.isWellFormed = true := by
  have hkind : (Reader.charKind c).1.shape = .leaf := by
    unfold Reader.charKind
    split <;> rfl
  unfold Reader.newMathChar
  split
  · exact Atom.isWellFormed_leaf rfl _ _ _
  · split
    · exact Atom.isWellFormed_leaf rfl _ _ _
    · exact Atom.isWellFormed_leaf hkind _ _ _

/-- Well-formedness is closed under reading. -/
theorem readingClosed_isWellFormed {args : List (List Atom)}
    (h : ∀ atoms ∈ args, ∀ a ∈ atoms, a.isWellFormed = true) :
    ReadingClosed args False (fun _ => True) fun _ a => a.isWellFormed = true where
  char n _ _ := isWellFormed_newMathChar _ n
  textChar n _ := Atom.isWellFormed_leaf rfl _ _ _
  prime _ n := Atom.isWellFormed_leaf rfl _ _ _
  placeholder _ n := Atom.isWellFormed_placeholder n
  group n ha := Atom.isWellFormed_newWrapper rfl (fun _ _ => rfl) ha none n
  body {_ a} ha hbare b hb := by
    rw [Atom.body] at hb
    cases hbody : a.branch .body with
    | none => simp [hbody] at hb
    | some atoms =>
        rw [hbody] at hb
        exact (Atom.branchWellFormed ha hbody).wellFormed b hb
  script {mode a slot content} ha hk hs hne hc := by
    have hgrid : (a.kind.isGrid && slot == .body) = false := by
      cases slot <;> simp_all [Slot.isScript]
    refine Atom.isWellFormed_putBranch ha
      ⟨?_, fun _ => hne, fun b _ => Kind.admits_of_not_isGrid hgrid b.kind, hc⟩
    cases slot <;> first | exact hk | cases hs
  superscript ha hb := (Atom.branchWellFormed ha hb).wellFormed
  argument _ hi := h _ (List.mem_of_getElem? hi)
  copy _ n hi := Atom.isWellFormed_relabelList (h _ (List.mem_of_getElem? hi)) n
  alignment _ n _ _ := (Atom.isWellFormed_markError _).2 (Atom.isWellFormed_leaf rfl _ _ _)
  duplicate _ n _ := (Atom.isWellFormed_markError _).2 (Atom.isWellFormed_placeholder n)
  unknown _ n _ _ _ :=
    (Atom.isWellFormed_markError _).2 (Atom.isWellFormed_leaf (rfl : Kind.shape .unknownCommand = .leaf) n _ _)
  symbol _ n _ hf ha := Atom.isWellFormed_leaf (Vocabulary.shape_of_symbol hf ha) _ _ _
  function n _ _ _ := Atom.isWellFormed_leaf rfl _ _ _
  space _ n _ _ _ := Atom.isWellFormed_leaf rfl _ _ _
  array n _ _ hr := isWellFormed_newArray hr _ n
  withArguments n _ _ ht _ hc hi := isWellFormed_newWithArguments ht hc hi _ n

theorem isWellFormed_parseFragment {args : List (List Atom)}
    (h : ∀ atoms ∈ args, ∀ a ∈ atoms, a.isWellFormed = true) (source : String) (mode : ReadingMode)
    (supply : Nat) :
    ∀ a ∈ (parseFragment source mode args supply).1.atoms, a.isWellFormed = true :=
  forall_parse (readingClosed_isWellFormed h) (fun _ _ => trivial) mode supply fun hs => hs.elim

end FormulaEditor.Latex

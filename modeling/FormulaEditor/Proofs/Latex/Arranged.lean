import FormulaEditor.Proofs.Latex.Regular
import FormulaEditor.Proofs.Latex.Writing

/-!
# What is read is arranged

In an arranged formula the parts of an array are where they belong: rows in the body of an array and
cells in the body of a row. Nothing below its top is a root or part of a command that is being
typed. Whatever the tokens are, the reader makes arranged atoms that can stand in any sequence,
provided that the arguments of the fragment are such atoms.
-/

namespace FormulaEditor

namespace Kind

/-- Whether atoms of the kind can stand in any sequence of a finished formula: they are neither its
top, nor part of an array, nor part of a command that is being typed. -/
def isContent : Kind → Bool
  | root | command | row | cell => false
  | _ => true

/-- Whether an atom of kind `child` can stand in a branch of an atom of kind `owner`: rows in the
body of an array, cells in the body of a row, and content everywhere. -/
def mayHold (owner : Kind) (slot : Slot) (child : Kind) : Bool :=
  match child with
  | row => owner == array && slot == .body
  | cell => owner == row && slot == .body
  | other => other.isContent

theorem mayHold_of_isContent {child : Kind} (h : child.isContent = true) (owner : Kind)
    (slot : Slot) : owner.mayHold slot child = true := by
  cases child <;> first | rfl | cases h

/-- Only the body of a grid holds anything but content. -/
theorem isContent_of_mayHold {owner child : Kind} {slot : Slot}
    (h : owner.mayHold slot child = true) (hg : isGridBody owner slot = false) :
    child.isContent = true := by
  by_cases hpart : child = row ∨ child = cell
  · exfalso
    rcases hpart with rfl | rfl
    · simp only [mayHold, Bool.and_eq_true, beq_iff_eq] at h
      rw [h.1, h.2] at hg
      cases hg
    · simp only [mayHold, Bool.and_eq_true, beq_iff_eq] at h
      rw [h.1, h.2] at hg
      cases hg
  · cases child <;> first | rfl | cases h | simp at hpart

end Kind

namespace Atom

/-- Whether every branch of the atom and below it holds only what can stand there. -/
def isArranged (a : Atom) : Bool :=
  a.subatoms.all fun b =>
    b.slots.all fun slot => ((b.branch slot).getD []).all fun c => b.kind.mayHold slot c.kind

/-- Whether the atom is arranged and can stand in any sequence. -/
def isArrangedContent (a : Atom) : Bool :=
  a.kind.isContent && a.isArranged

variable {a b : Atom} {slot : Slot} {atoms content : List Atom} {kind : Kind}

theorem isArranged_iff (a : Atom) :
    a.isArranged = true ↔ ∀ slot atoms, a.branch slot = some atoms →
      ∀ b ∈ atoms, a.kind.mayHold slot b.kind = true ∧ b.isArranged = true := by
  have htop : (a.slots.all fun slot =>
      ((a.branch slot).getD []).all fun c => a.kind.mayHold slot c.kind) = true ↔
      ∀ slot atoms, a.branch slot = some atoms →
        ∀ b ∈ atoms, a.kind.mayHold slot b.kind = true := by
    simp only [slots, List.all_eq_true, Branches.mem_slots]
    constructor
    · intro h slot atoms hb b hmem
      have hsome : (a.branches.get slot).isSome = true := Option.isSome_iff_exists.2 ⟨atoms, hb⟩
      exact h slot hsome b (by rwa [hb, Option.getD_some])
    · intro h slot hsome b hmem
      obtain ⟨atoms, hb⟩ := Option.isSome_iff_exists.1 hsome
      replace hb : a.branch slot = some atoms := hb
      rw [hb, Option.getD_some] at hmem
      exact h slot atoms hb b hmem
  unfold isArranged
  rw [subatoms_eq, subatomsOfList_eq_flatMap, List.all_cons, Bool.and_eq_true, htop,
    List.all_flatMap, List.all_eq_true]
  constructor
  · intro h slot atoms hb b hmem
    exact ⟨h.1 slot atoms hb b hmem, h.2 b (mem_children.2 ⟨slot, atoms, hb, hmem⟩)⟩
  · intro h
    refine ⟨fun slot atoms hb b hmem => (h slot atoms hb b hmem).1, fun b hmem => ?_⟩
    obtain ⟨slot, atoms, hb, hmem⟩ := mem_children.1 hmem
    exact (h slot atoms hb b hmem).2

theorem isArrangedContent_iff (a : Atom) :
    a.isArrangedContent = true ↔ a.kind.isContent = true ∧ a.isArranged = true := by
  rw [isArrangedContent, Bool.and_eq_true]

/-- What holds nothing but content is arranged. -/
theorem isArranged_of_content
    (h : ∀ slot atoms, a.branch slot = some atoms → ∀ b ∈ atoms, b.isArrangedContent = true) :
    a.isArranged = true := by
  rw [isArranged_iff]
  intro slot atoms hb b hmem
  obtain ⟨hkind, harranged⟩ := (isArrangedContent_iff b).1 (h slot atoms hb b hmem)
  exact ⟨Kind.mayHold_of_isContent hkind a.kind slot, harranged⟩

/-- Outside of grids the branches of an arranged atom hold content. -/
theorem isArrangedContent_of_branch (h : a.isArranged = true) (hb : a.branch slot = some atoms)
    (hg : isGridBody a.kind slot = false) : ∀ b ∈ atoms, b.isArrangedContent = true := by
  intro b hmem
  obtain ⟨hmay, harranged⟩ := (isArranged_iff a).1 h slot atoms hb b hmem
  exact (isArrangedContent_iff b).2 ⟨Kind.isContent_of_mayHold hmay hg, harranged⟩

theorem isArranged_putBranch (h : a.isArranged = true)
    (hc : ∀ b ∈ content, b.isArrangedContent = true) :
    (a.putBranch slot (some content)).isArranged = true := by
  rw [isArranged_iff]
  intro other atoms hb b hmem
  by_cases heq : other = slot
  · rw [heq, branch_putBranch_self, Option.some.injEq] at hb
    rw [← hb] at hmem
    obtain ⟨hkind, harranged⟩ := (isArrangedContent_iff b).1 (hc b hmem)
    exact ⟨Kind.mayHold_of_isContent hkind _ other, harranged⟩
  · rw [branch_putBranch_of_ne a heq] at hb
    exact (isArranged_iff a).1 h other atoms hb b hmem

/-- Only kinds and branches matter. -/
theorem isArranged_of_eq (h : a.isArranged = true) (hk : b.kind = a.kind)
    (hb : ∀ slot, b.branch slot = a.branch slot) : b.isArranged = true := by
  rw [isArranged_iff] at h ⊢
  intro slot atoms hbranch
  rw [hk]
  exact h slot atoms (hb slot ▸ hbranch)

theorem isArrangedContent_markError (h : a.isArrangedContent = true) :
    a.markError.isArrangedContent = true := by
  rw [isArrangedContent_iff] at h ⊢
  refine ⟨?_, isArranged_of_eq h.2 (kind_mapMarks a _) (branch_mapMarks a _)⟩
  rw [markError, kind_mapMarks]
  exact h.1

/-- Alike formulas are arranged alike. -/
theorem isArranged_of_bare_eq (h : a.isArranged = true) (heq : a.bare = b.bare) :
    b.isArranged = true := by
  induction a using branchInduction generalizing b with
  | step a ih =>
      rw [isArranged_iff] at h ⊢
      intro slot bs hb c hc
      have hbranch := branch_of_bare_eq heq slot
      rw [hb, Option.map_some] at hbranch
      obtain ⟨as, ha, hmap⟩ := Option.map_eq_some_iff.1 hbranch
      obtain ⟨d, hd, hcd⟩ := List.mem_map.1 (hmap ▸ List.mem_map_of_mem hc)
      obtain ⟨hmay, harranged⟩ := h slot as ha d hd
      rw [← kind_of_bare_eq heq, ← kind_of_bare_eq hcd]
      exact ⟨hmay, ih slot as ha d hd harranged hcd⟩

theorem isArrangedContent_relabelList (h : ∀ a ∈ atoms, a.isArrangedContent = true) (n : Nat) :
    ∀ a ∈ (relabelList atoms n).1, a.isArrangedContent = true := by
  intro a hmem
  have hbare := bare_relabelList atoms n
  simp only [mapLabelsOfList_eq_map] at hbare
  have hmem' := List.mem_map_of_mem (f := mapLabels Label.bare) hmem
  rw [hbare] at hmem'
  obtain ⟨b, hb, he⟩ := List.mem_map.1 hmem'
  obtain ⟨hkind, harranged⟩ := (isArrangedContent_iff b).1 (h b hb)
  rw [isArrangedContent_iff, ← kind_of_bare_eq he]
  exact ⟨hkind, isArranged_of_bare_eq harranged he⟩

/-! ## New atoms -/

theorem isArrangedContent_leaf (hk : kind.isContent = true) (id : Nat) (value : Option String)
    (glyph : Option Char) : (leaf id kind value glyph).isArrangedContent = true :=
  (isArrangedContent_iff _).2 ⟨hk, isArranged_of_content fun _ _ hb => by simp at hb⟩

theorem isArrangedContent_filled (h : ∀ a ∈ content, a.isArrangedContent = true) (n : Nat) :
    ∀ a ∈ (filled content n).1, a.isArrangedContent = true := by
  cases content with
  | nil =>
      intro a ha
      rw [List.mem_singleton.1 ha]
      exact isArrangedContent_leaf rfl n none none
  | cons b rest => exact h

theorem isArranged_newWrapper (hs : kind.shape = .sequence)
    (h : ∀ a ∈ content, kind.mayHold .body a.kind = true ∧ a.isArranged = true)
    (value : Option String) (n : Nat) : (newWrapper kind value content n).1.isArranged = true := by
  rw [newWrapper_apply hs, isArranged_iff]
  intro slot atoms hb
  cases slot <;> cases hb
  unfold wrapperBody
  split
  · cases content with
    | nil =>
        intro a ha
        rw [List.mem_singleton.1 ha]
        exact ⟨rfl, isArranged_of_content fun _ _ hb => by simp at hb⟩
    | cons b rest => exact h
  · exact h

/-- A container of content other than the top and the parts of an array is content. -/
theorem isArrangedContent_newWrapper (hs : kind.shape = .sequence) (hk : kind.isContent = true)
    (h : ∀ a ∈ content, a.isArrangedContent = true) (value : Option String) (n : Nat) :
    (newWrapper kind value content n).1.isArrangedContent = true := by
  rw [isArrangedContent_iff, kind_newWrapper]
  refine ⟨hk, isArranged_newWrapper hs (fun a ha => ?_) value n⟩
  obtain ⟨hkind, harranged⟩ := (isArrangedContent_iff a).1 (h a ha)
  exact ⟨Kind.mayHold_of_isContent hkind kind .body, harranged⟩

theorem isArrangedContent_newFraction {num den : List Atom}
    (hn : ∀ a ∈ num, a.isArrangedContent = true) (hd : ∀ a ∈ den, a.isArrangedContent = true)
    (value : String) (n : Nat) : (newFraction value num den n).1.isArrangedContent = true := by
  rw [isArrangedContent_iff]
  refine ⟨rfl, isArranged_of_content fun slot atoms hb => ?_⟩
  cases slot <;> cases hb
  · exact isArrangedContent_filled hn _
  · exact isArrangedContent_filled hd _

theorem isArrangedContent_newRadical {radicand : List Atom} {index : Option (List Atom)}
    (hr : ∀ a ∈ radicand, a.isArrangedContent = true)
    (hi : ∀ atoms, index = some atoms → ∀ a ∈ atoms, a.isArrangedContent = true) (n : Nat) :
    (newRadical radicand index n).1.isArrangedContent = true := by
  rw [isArrangedContent_iff]
  refine ⟨rfl, isArranged_of_content fun slot atoms hb => ?_⟩
  cases slot with
  | index => exact hi atoms (Option.filter_eq_some_iff.1 hb).1
  | radicand =>
      cases hb
      exact isArrangedContent_filled hr _
  | _ => cases hb

end Atom

namespace Latex

theorem isContent_of_symbol {name : String} {m : Meaning} {kind : Kind} {glyph : Char}
    (h : Vocabulary.find? name = some m) (ha : m.action = .symbol kind glyph) :
    kind.isContent = true := by
  have hspelled := (Vocabulary.isSpelled_of_symbol h ha).1
  cases kind <;> first | rfl | cases hspelled

open Atom

variable {args rows : List (List (List Atom))} {contents : List (List Atom)}

theorem isArranged_newRow {cells : List (List Atom)}
    (h : ∀ content ∈ cells, ∀ a ∈ content, a.isArrangedContent = true) (n : Nat) :
    (newRow cells n).1.isArranged = true := by
  have hcell : ∀ a ∈ (cells.mapM newCell n).1, a.kind = .cell ∧ a.isArranged = true :=
    Minting.forall_mapM (fun content hcontent n =>
      ⟨kind_newWrapper .cell none content n, isArranged_newWrapper rfl (fun a ha =>
        have hc := (isArrangedContent_iff a).1 (h content hcontent a ha)
        ⟨Kind.mayHold_of_isContent hc.1 .cell .body, hc.2⟩) none n⟩) n
  refine isArranged_newWrapper (rfl : Kind.shape .row = .sequence) (fun a ha => ?_) none _
  rw [(hcell a ha).1]
  exact ⟨rfl, (hcell a ha).2⟩

theorem isArrangedContent_newArray (h : Rows (fun a => a.isArrangedContent = true) rows)
    (name : String) (n : Nat) : (Reader.newArray name rows n).1.isArrangedContent = true := by
  have hrow : ∀ a ∈ (rows.mapM newRow n).1, a.kind = .row ∧ a.isArranged = true :=
    Minting.forall_mapM (fun cells hcells n =>
      ⟨kind_newWrapper .row none _ _, isArranged_newRow (h cells hcells).2 n⟩) n
  rw [newArray_eq, Minting.bind_apply, isArrangedContent_iff, kind_newWrapper]
  refine ⟨rfl, isArranged_newWrapper (rfl : Kind.shape .array = .sequence) (fun a ha => ?_) _ _⟩
  rw [(hrow a ha).1]
  exact ⟨rfl, (hrow a ha).2⟩

theorem isArrangedContent_newWithArguments {action : Action} (ht : action.takesArguments = true)
    (h : ∀ content ∈ contents, ∀ a ∈ content, a.isArrangedContent = true)
    {index : Option (List Atom)}
    (hi : ∀ content, index = some content → ∀ a ∈ content, a.isArrangedContent = true)
    (command : String) (n : Nat) :
    (Reader.newWithArguments action command contents index n).1.isArrangedContent = true := by
  have hwrapper (kind : Kind) (hs : kind.shape = .sequence) (hk : kind.isContent = true) :
      (newWrapper kind (some command) (contents.getD 0 []) n).1.isArrangedContent = true :=
    isArrangedContent_newWrapper hs hk (forall_getD h 0) (some command) n
  cases action with
  | fraction => exact isArrangedContent_newFraction (forall_getD h 0) (forall_getD h 1) command n
  | radical => exact isArrangedContent_newRadical (forall_getD h 0) hi n
  | accent glyph =>
      have haccent := (isArrangedContent_iff _).1 (hwrapper .accent rfl rfl)
      exact (isArrangedContent_iff _).2 ⟨rfl, isArranged_of_eq haccent.2 rfl fun _ => rfl⟩
  | font => exact hwrapper .font rfl rfl
  | text => exact hwrapper .text rfl rfl
  | _ => cases ht

theorem isArrangedContent_newMathChar (c : Char) (n : Nat) :
    (Reader.newMathChar c n).1.isArrangedContent = true := by
  have hkind : (Reader.charKind c).1.isContent = true := by
    unfold Reader.charKind
    split <;> rfl
  unfold Reader.newMathChar
  split
  · exact isArrangedContent_leaf rfl _ _ _
  · split
    · exact isArrangedContent_leaf rfl _ _ _
    · exact isArrangedContent_leaf hkind _ _ _

/-- Being arranged content is closed under reading. -/
theorem readingClosed_isArrangedContent {args : List (List Atom)}
    (h : ∀ atoms ∈ args, ∀ a ∈ atoms, a.isArrangedContent = true) :
    ReadingClosed args False (fun _ => True) fun _ a => a.isArrangedContent = true where
  char n _ _ := isArrangedContent_newMathChar _ n
  textChar n _ := isArrangedContent_leaf rfl _ _ _
  prime _ n := isArrangedContent_leaf rfl _ _ _
  placeholder _ n := isArrangedContent_leaf rfl n _ _
  group n ha := isArrangedContent_newWrapper rfl rfl ha none n
  body {_ a} ha hbare b hb := by
    rw [Atom.body] at hb
    cases hbody : a.branch .body with
    | none => simp [hbody] at hb
    | some atoms =>
        rw [hbody, Option.getD_some] at hb
        simp only [isBareGroup, Bool.and_eq_true, beq_iff_eq] at hbare
        have harranged := ((isArrangedContent_iff a).1 ha).2
        exact isArrangedContent_of_branch harranged hbody (by rw [hbare.1]; rfl) b hb
  script {mode a slot content} ha hk hs hne hc := by
    have harranged := (isArrangedContent_iff a).1 ha
    exact (isArrangedContent_iff _).2 ⟨harranged.1, isArranged_putBranch harranged.2 hc⟩
  superscript {_ a _} ha hb := isArrangedContent_of_branch ((isArrangedContent_iff a).1 ha).2 hb
    (isGridBody_of_isScript a.kind rfl)
  argument _ hi := h _ (List.mem_of_getElem? hi)
  copy _ n hi := isArrangedContent_relabelList (h _ (List.mem_of_getElem? hi)) n
  alignment _ n _ _ := isArrangedContent_markError (isArrangedContent_leaf rfl _ _ _)
  duplicate _ n _ := isArrangedContent_markError (isArrangedContent_leaf rfl _ _ _)
  unknown _ n _ _ _ := isArrangedContent_markError (isArrangedContent_leaf rfl _ _ _)
  symbol _ n _ hf ha := isArrangedContent_leaf (isContent_of_symbol hf ha) _ _ _
  function n _ _ _ := isArrangedContent_leaf rfl _ _ _
  space _ n _ _ _ := isArrangedContent_leaf rfl _ _ _
  array n _ _ hr := isArrangedContent_newArray hr _ n
  withArguments n _ _ ht _ hc hi := isArrangedContent_newWithArguments ht hc hi _ n

/-- Whatever the tokens are, everything that is read from well-formed and arranged arguments is well
formed and arranged: it holds no root and no part of a command, the rows in it stand in the bodies
of arrays, and the cells in the bodies of rows. -/
theorem arranged_parse {args : List (List Atom)}
    (h : ∀ atoms ∈ args, ∀ a ∈ atoms, a.isWellFormed = true ∧ a.isArrangedContent = true)
    (tokens : List SpannedToken) (mode : ReadingMode) (supply : Nat) :
    ∀ a ∈ (parse tokens mode args supply).1.atoms,
      a.isWellFormed = true ∧ a.isArrangedContent = true := by
  have hwell := readingClosed_isWellFormed fun atoms hmem a ha => (h atoms hmem a ha).1
  have harranged := readingClosed_isArrangedContent fun atoms hmem a ha => (h atoms hmem a ha).2
  intro a ha
  constructor
  · exact forall_parse hwell (fun _ _ => trivial) mode supply (fun hs => hs.elim) a ha
  · exact forall_parse harranged (fun _ _ => trivial) mode supply (fun hs => hs.elim) a ha

/-- A matrix with a superscript. -/
def gridArgument : List Atom :=
  (parseFormula "\\begin\x7bmatrix\x7da&b\\\\c\\end\x7bmatrix\x7d^2" 0).1.atoms

/-- Braces that do not match, an argument that is an index, a radicand, a script and part of an
environment without an end, and a fraction without its denominator. -/
def brokenSource : String :=
  "\x7d\\sqrt[#0]#0_#0\\begin\x7bcases\x7d#0&\x7b\\frac\x7b#0\x7d"

theorem arranged_parse_brokenSource :
    gridArgument ≠ [] ∧ (∀ atoms ∈ [gridArgument], ∀ a ∈ atoms,
      a.isWellFormed = true ∧ a.isArrangedContent = true) ∧
    ∀ a ∈ (parse (tokenize brokenSource).tokens .math [gridArgument] 40).1.atoms,
      a.isWellFormed = true ∧ a.isArrangedContent = true := by
  have hargs : ∀ atoms ∈ [gridArgument], ∀ a ∈ atoms,
      a.isWellFormed = true ∧ a.isArrangedContent = true := by decide +kernel
  have hne : gridArgument.isEmpty = false := by decide +kernel
  exact ⟨by simpa using hne, hargs, arranged_parse hargs (tokenize brokenSource).tokens .math 40⟩

end Latex

end FormulaEditor

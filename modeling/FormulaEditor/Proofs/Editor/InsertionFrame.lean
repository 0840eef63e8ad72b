import FormulaEditor.Proofs.Editor.Conserving.Operations
import FormulaEditor.Proofs.Editor.Framing
import FormulaEditor.Proofs.Editor.Tabbing
import FormulaEditor.Proofs.Editor.Taking

/-!
# An insertion edits one branch

An insertion puts what the text stands for between the parts of the caret's branch that stay, and
selects what it is asked to. Everything else in the formula is as before.
-/

namespace FormulaEditor

namespace InsertionParts

variable (parts : InsertionParts) (made : List Atom)

/-- Whether only a lone placeholder stays, which gives way to what is inserted. -/
def givesWay : Bool :=
  !made.isEmpty && isPlaceholderOnly parts.kept

/-- What stays before the inserted atoms. -/
def front : List Atom :=
  if parts.givesWay made then [] else parts.before

/-- What stays behind the inserted atoms. -/
def back : List Atom :=
  if parts.givesWay made then [] else parts.after

/-- The content of the branch after the insertion, or `none` if the branch is gone. Where nothing is
inserted, what stays is settled: an emptied optional branch goes, and any other is refilled if it needs
content. -/
def result (owner : Atom) (slot : Slot) (filler : Nat) : Option (List Atom) :=
  if made.isEmpty then
    if parts.kept.isEmpty && slot.isOptional then none
    else some (Editor.settled owner slot filler parts.kept)
  else some (parts.front made ++ made ++ parts.back made)

/-- The index of the first atom of the branch that goes or comes, or the length of the branch. -/
def firstChanged : Nat :=
  if parts.givesWay made then 0
  else if parts.removed.isEmpty && made.isEmpty then parts.kept.length
  else parts.before.length

variable {parts} {atoms : List Atom} {start stop : Nat} {text : String}

theorem Divides.mem_argument (h : parts.Divides atoms start stop text) {a : Atom}
    (ha : a ∈ parts.argument) : a ∈ atoms := by
  rw [h.atoms_eq]
  unfold InsertionParts.argument at ha
  split at ha <;> simp [ha]

/-- Up to the first index that changes, the branch holds what it held. -/
theorem Divides.take_firstChanged (h : parts.Divides atoms start stop text) (made : List Atom)
    (owner : Atom) (slot : Slot) (filler : Nat) :
    ((parts.result made owner slot filler).getD []).take (parts.firstChanged made) =
      atoms.take (parts.firstChanged made) := by
  have hbefore (rest : List Atom) : (parts.before ++ rest).take parts.before.length = parts.before :=
    List.take_left' rfl
  have hatoms : atoms.take parts.before.length = parts.before := by
    rw [h.atoms_eq, List.append_assoc, List.append_assoc, hbefore]
  unfold InsertionParts.firstChanged
  split
  · rw [List.take_zero, List.take_zero]
  rename_i hgives
  cases hmade : made.isEmpty with
  | false =>
      simp only [InsertionParts.result, hmade, InsertionParts.front, InsertionParts.back, hgives,
        Bool.and_false, Bool.false_eq_true, if_false, Option.getD_some, List.append_assoc, hbefore,
        hatoms]
  | true =>
      simp only [hmade, Bool.and_true, InsertionParts.result, if_true]
      cases hkept : parts.kept with
      | nil =>
          obtain ⟨hnil, -⟩ := List.append_eq_nil_iff.1 hkept
          simp only [hnil, List.length_nil, ite_self, List.take_zero]
      | cons a rest =>
          have hsettled : Editor.settled owner slot filler (a :: rest) = a :: rest :=
            Editor.settled_of_ne_nil owner slot filler (List.cons_ne_nil a rest)
          simp only [List.isEmpty_cons, Bool.false_and, Bool.false_eq_true, if_false,
            Option.getD_some, hsettled]
          rw [← hkept]
          split
          · rename_i hnone
            obtain ⟨himplicit, hselected⟩ := List.append_eq_nil_iff.1 (List.isEmpty_iff.1 hnone)
            have hsame : atoms = parts.kept := by
              rw [h.atoms_eq, himplicit, hselected, List.append_nil, List.append_nil]
              rfl
            rw [hsame]
          · rw [hatoms, InsertionParts.kept, hbefore]

theorem Divides.onlyBranchChanges (h : parts.Divides atoms start stop text) {root owner : Atom}
    {q : Path} {slot : Slot} (hb : IsBranch root q slot owner atoms) (made : List Atom)
    (filler : Nat) :
    OnlyBranchChanges root
      (q.modifyAtom (fun a => a.putBranch slot (parts.result made owner slot filler)) root) q slot
      (parts.firstChanged made) :=
  onlyBranchChanges_modifyAtom hb.atom?_eq (by
    rw [hb.branch_eq, Option.getD_some, h.take_firstChanged])

end InsertionParts

/-- The selection after atoms were inserted behind others. The placeholder is the first one among them
or below in document order. -/
def insertedSelection (q : Path) (slot : Slot) (front made : List Atom) : SelectionMode → Selection
  | .after => Selection.caret (q.child slot ((front.length : Int) + made.length - 1))
  | .before => Selection.caret (q.child slot ((front.length : Int) - 1))
  | .item => ⟨q.child slot ((front.length : Int) - 1),
      q.child slot ((front.length : Int) + made.length - 1)⟩
  | .placeholder =>
      match (placeholdersAmong (itemPositions q slot front.length made)).head? with
      | some p => ⟨p.withOffset (p.offset - 1), p⟩
      | none => Selection.caret (q.child slot ((front.length : Int) + made.length - 1))

namespace Editor

variable {e e' : Editor} {root owner : Atom} {q : Path} {slot : Slot} {atoms made : List Atom}
  {parts : InsertionParts}

/-! ## What the text stands for -/

/-- The atoms that a text stands for at the caret, with an argument, and the supply of identities that
is left over. -/
def standsFor (e : Editor) (text : String) (format : InsertFormat) (argument : List Atom) :
    List Atom × Nat :=
  let (made, e') := e.textAtoms text format (if e.inText then .text else .math) [argument]
  (made, e'.supply)

/-- What a text stands for depends on the supply of identities only. -/
theorem textAtoms_congr (h : e'.supply = e.supply) (text : String) (format : InsertFormat)
    (mode : Latex.ReadingMode) (args : List (List Atom)) :
    (e'.textAtoms text format mode args).1 = (e.textAtoms text format mode args).1 ∧
      (e'.textAtoms text format mode args).2.supply =
        (e.textAtoms text format mode args).2.supply := by
  have hmint {α : Type} (m : Minting α) :
      (e'.mint m).1 = (e.mint m).1 ∧ (e'.mint m).2.supply = (e.mint m).2.supply := by
    show (m e'.supply).1 = (m e.supply).1 ∧ (m e'.supply).2 = (m e.supply).2
    rw [h]
    exact ⟨rfl, rfl⟩
  have hfragment (source : String) :
      (e'.readFragment source mode args).1 = (e.readFragment source mode args).1 ∧
        (e'.readFragment source mode args).2.supply =
          (e.readFragment source mode args).2.supply := by
    have hread := hmint (Latex.parseFragment source mode args)
    refine ⟨congrArg Latex.Parsed.atoms hread.1, ?_⟩
    exact (supply_foldl_note _ _).trans (hread.2.trans (supply_foldl_note _ _).symm)
  unfold textAtoms
  split
  · rename_i c _
    unfold charAtoms
    split
    · exact hfragment _
    split
    · exact hfragment _
    split
    · have hchar := hmint (Atom.newChar .ordinary c)
      exact ⟨congrArg (fun a => [a]) hchar.1, hchar.2⟩
    split
    · exact ⟨rfl, h⟩
    · have hchar := hmint (Latex.Reader.newMathChar c)
      exact ⟨congrArg (fun a => [a]) hchar.1, hchar.2⟩
  · exact hfragment _

/-! ## Where the selection goes -/

theorem firstPlaceholder?_eq (a : Atom) (p : Path) :
    a.firstPlaceholder? p = (placeholdersAmong (a.positions p)).head? := by
  rw [Atom.firstPlaceholder?, placeholdersAmong, List.head?_map, List.head?_filter]

theorem findSome?_itemPositionsFrom (q : Path) (slot : Slot) (offset : Int) (i : Nat)
    (atoms : List Atom) :
    ((placeholderAmong?.itemPositionsFrom (q.child slot offset) i atoms).findSome? fun x =>
      x.2.firstPlaceholder? x.1) = (placeholdersAmong (itemPositions q slot i atoms)).head? := by
  induction atoms generalizing i with
  | nil => rfl
  | cons a rest ih =>
      rw [placeholderAmong?.itemPositionsFrom, List.findSome?_cons, ih, Path.withOffset_child,
        firstPlaceholder?_eq, itemPositions, placeholdersAmong_append, List.head?_append]
      cases (placeholdersAmong (a.positions (q.child slot i))).head? <;> rfl

/-- After an insertion the selection is as asked for. -/
theorem selection_selectInserted {front back : List Atom} (offset : Int)
    (hb : (q.child slot offset).branch? e.root = some (front ++ made ++ back)) (hne : made ≠ [])
    (mode : SelectionMode) :
    (e.selectInserted (q.child slot offset) front.length (front.length + made.length - 1)
      mode).selection = insertedSelection q slot front made mode := by
  have hpos := List.length_pos_iff.2 hne
  have hlast : ((front.length + made.length - 1 : Nat) : Int) =
      (front.length : Int) + made.length - 1 := by omega
  have hamong : placeholderAmong? e.root (q.child slot offset) front.length
      (front.length + made.length - 1) =
        (placeholdersAmong (itemPositions q slot front.length made)).head? := by
    rw [← findSome?_itemPositionsFrom q slot offset]
    simp only [placeholderAmong?, hb, Option.bind_eq_bind, Option.bind_some]
    rw [show front.length + made.length - 1 + 1 = front.length + made.length by omega,
      slice_append_append]
  cases mode with
  | after => simp only [selectInserted, insertedSelection, Path.withOffset_child, hlast, setCaret]
  | before => simp only [selectInserted, insertedSelection, Path.withOffset_child, setCaret]
  | item => simp only [selectInserted, insertedSelection, selectRun, Path.withOffset_child, hlast]
  | placeholder =>
      simp only [selectInserted, insertedSelection, hamong]
      cases (placeholdersAmong (itemPositions q slot front.length made)).head? with
      | some p => rfl
      | none => simp only [Path.withOffset_child, hlast, setCaret]

/-! ## The edit -/

/-- The atoms around the gap of the caret are the parts that stay. -/
theorem gap_eq_parts (parts : InsertionParts) (q : Path) (slot : Slot) (hne : made ≠ []) :
    beforeGap (q.child slot ((parts.before.length : Int) - 1)) parts.kept = parts.front made ∧
      afterGap (q.child slot ((parts.before.length : Int) - 1)) parts.kept = parts.back made := by
  have hempty : made.isEmpty = false := by simpa using hne
  unfold InsertionParts.front InsertionParts.back InsertionParts.givesWay
  simp only [hempty, Bool.not_false, Bool.true_and]
  cases hlone : isPlaceholderOnly parts.kept with
  | true => exact gap_of_isPlaceholderOnly _ hlone
  | false => exact gap_append q slot hlone

theorem OpenedAtCaret.insertAtoms_made
    (h : e.OpenedAtCaret root q slot owner atoms parts.kept ((parts.before.length : Int) - 1))
    (hwf : ∀ a ∈ made, a.isWellFormed = true) (hne : made ≠ []) (mode : SelectionMode) :
    (e.insertAtoms made mode).answer = .ok () ∧
      (e.insertAtoms made mode).state.root =
        q.fill slot (parts.front made ++ made ++ parts.back made) root ∧
      (e.insertAtoms made mode).state.selection =
        insertedSelection q slot (parts.front made) made mode := by
  obtain ⟨hfront, hback⟩ := gap_eq_parts parts q slot hne
  have hroot := h.root_insertAtoms hwf hne mode
  rw [withInserted_eq, hfront, hback] at hroot
  refine ⟨(h.insertAtoms hwf mode).1, hroot, ?_⟩
  have hindex : (insertionPoint (q.child slot ((parts.before.length : Int) - 1)) parts.kept).1 =
      (parts.front made).length := by
    rw [← hfront, beforeGap, List.length_take, Nat.min_eq_left (insertionPoint_le h.isOffset q slot)]
  have hopened := h.putBranch ((parts.before.length : Int) - 1)
    (h.toOpened.isWellFormed_withInserted ((parts.before.length : Int) - 1) hwf)
  have hbranch : (q.child slot ((parts.before.length : Int) - 1)).branch? (e.putBranch
      (q.child slot ((parts.before.length : Int) - 1))
      (withInserted parts.kept (q.child slot ((parts.before.length : Int) - 1)) made)).root =
        some (parts.front made ++ made ++ parts.back made) := by
    rw [hopened.branch?, withInserted_eq, hfront, hback]
  rw [h.insertAtoms_eq hne, hindex]
  exact selection_selectInserted _ hbranch hne mode

theorem OpenedAtCaret.insertAtoms_nothing
    (h : e.OpenedAtCaret root q slot owner atoms parts.kept ((parts.before.length : Int) - 1))
    (mode : SelectionMode) :
    (e.insertAtoms [] mode).answer = .ok () ∧
      (e.insertAtoms [] mode).state.root =
        q.modifyAtom (fun a => a.putBranch slot (parts.result [] owner slot e.supply)) root ∧
      (e.insertAtoms [] mode).state.selection = Selection.caret
        (if parts.kept.isEmpty && slot.isOptional then q
          else q.child slot ((parts.before.length : Int) - 1)) := by
  refine ⟨(h.insertAtoms (by simp) mode).1, ?_⟩
  cases hgone : parts.kept.isEmpty && slot.isOptional with
  | false =>
      have hkeep : parts.kept = [] → slot.isOptional = false := fun hnil => by
        simpa [hnil] using hgone
      have hsettled := h.insertAtoms_nil hkeep mode
      refine ⟨?_, hsettled.selection_eq⟩
      rw [hsettled.root_eq, InsertionParts.result]
      simp only [List.isEmpty_nil, if_true, hgone, Bool.false_eq_true, if_false]
      rfl
  | true =>
      obtain ⟨hnil, hoptional⟩ := Bool.and_eq_true .. ▸ hgone
      have hcontent : ((owner.putBranch slot (some parts.kept)).branch slot).getD [] = parts.kept := by
        simp
      have hremoved : q.modifyAtom (fun a => (a.removeBranch slot).2) e.root =
          q.modifyAtom (fun a => a.putBranch slot none) root := by
        rw [h.root_eq, Path.fill, Path.modifyAtom_modifyAtom h.branch.atom?_eq]
        refine Path.modifyAtom_congr h.branch.atom?_eq ?_
        rw [Atom.removeBranch_of_isOptional _ hoptional, Atom.putBranch_putBranch]
      simp only [Editor.insertAtoms, h.caret_eq, h.branch?, List.isEmpty_nil, if_true, Outcome.done,
        settleCaret, settle, Path.slot?_child, Path.owner?_child, h.isBranch.atom?_eq, hcontent, hnil,
        hoptional, Path.modifyOwner_child, Path.parent_child, InsertionParts.result, Bool.and_self,
        setCaret]
      exact ⟨hremoved, trivial⟩

/-- The insertion of a text into the branch `slot` of the atom at `q`, which holds the given parts:
the text stands for `made`, and that takes the place of what goes. -/
structure EditsOneBranch (e : Editor) (text : String) (options : InsertOptions) (q : Path)
    (slot : Slot) (owner : Atom) (atoms : List Atom) (parts : InsertionParts) (made : List Atom) :
    Prop where
  branch : IsBranch e.root q slot owner atoms
  /-- It is the branch of the caret. -/
  exists_caret : ∃ offset, e.caret = q.child slot offset
  divides : parts.Divides atoms e.selection.startIndex e.selection.stopIndex text
  made_eq : made = (e.standsFor text options.format parts.argument).1
  answer_eq : (e.insert text options).answer = .ok ()
  root_eq : (e.insert text options).state.root = q.modifyAtom (fun a => a.putBranch slot
    (parts.result made owner slot (e.standsFor text options.format parts.argument).2)) e.root
  onlyBranchChanges :
    OnlyBranchChanges e.root (e.insert text options).state.root q slot (parts.firstChanged made)
  selection_eq : made ≠ [] → (e.insert text options).state.selection =
    insertedSelection q slot (parts.front made) made options.selectionMode
  /-- Where nothing is inserted, the caret goes to the gap, or to the owner of a branch that is gone. -/
  caret_eq : made = [] → (e.insert text options).state.selection = Selection.caret
    (if parts.kept.isEmpty && slot.isOptional then q
      else q.child slot ((parts.before.length : Int) - 1))

/-- An insertion takes out what it divides its branch into, and inserts what the text stands for. -/
theorem SelectsIn.insert_eq {anchor focus : Int}
    (hsel : e.SelectsIn q slot owner atoms anchor focus) (h : e.Sound) (text : String)
    (options : InsertOptions) :
    ∃ parts : InsertionParts,
      parts.Divides atoms e.selection.startIndex e.selection.stopIndex text ∧
      (∀ a ∈ (e.standsFor text options.format parts.argument).1, a.isWellFormed = true) ∧
      ∃ e' : Editor, e'.OpenedAtCaret e.root q slot owner atoms parts.kept
          ((parts.before.length : Int) - 1) ∧
        e'.supply = (e.standsFor text options.format parts.argument).2 ∧
        e.insert text options =
          e'.insertAtoms (e.standsFor text options.format parts.argument).1 options.selectionMode := by
  obtain ⟨parts, hdivides, hargument, hopened, hsupply⟩ := hsel.takeArgument_eq h text
  have hmode : (e.takeArgument text).2.inText = e.inText :=
    hopened.toOpened.inText_eq (h.opened hsel.branch) hopened.caret_eq
      (congrArg Selection.focus hsel.selection_eq)
  have hargs : ∀ argument ∈ [parts.argument], ∀ a ∈ argument, a.isWellFormed = true := by
    simp only [List.mem_singleton, forall_eq]
    exact fun a ha => (hsel.branch.wellFormed h.isWellFormed).wellFormed a
      (hdivides.mem_argument ha)
  have hreads := readsInto_textAtoms (e := (e.takeArgument text).2)
    (Latex.isWellFormed_parseFragment hargs) (fun _ => id) text options.format
    (if e.inText then .text else .math)
  obtain ⟨hmade, hleft⟩ := textAtoms_congr hsupply text options.format
    (if e.inText then .text else .math) [parts.argument]
  refine ⟨parts, hdivides, hmade ▸ hreads.forall_mem, _,
    hopened.of_eq hreads.root_eq hreads.selection_eq, hleft, ?_⟩
  unfold Editor.insert
  rw [h.whenValid]
  simp only [hargument, hmode, hmade]
  rfl

/-- An insertion edits the branch of the caret and nothing else. -/
theorem Sound.insert_editsOneBranch (h : e.Sound) (text : String) (options : InsertOptions) :
    ∃ q slot owner atoms parts made,
      EditsOneBranch e text options q slot owner atoms parts made := by
  obtain ⟨q, slot, owner, atoms, anchor, focus, hsel⟩ := h.exists_selectsIn
  obtain ⟨parts, hdivides, hwf, e', hopened, hsupply, hinsert⟩ := hsel.insert_eq h text options
  have hcaret : e.caret = q.child slot focus := congrArg Selection.focus hsel.selection_eq
  have hframe := hdivides.onlyBranchChanges hsel.branch
    (e.standsFor text options.format parts.argument).1
    (e.standsFor text options.format parts.argument).2
  generalize hmade : (e.standsFor text options.format parts.argument).1 = made at *
  refine ⟨q, slot, owner, atoms, parts, made, ?_⟩
  by_cases hne : made = []
  · subst hne
    obtain ⟨hanswer, hroot, hselection⟩ := hopened.insertAtoms_nothing options.selectionMode
    rw [hsupply] at hroot
    rw [← hinsert] at hanswer hroot hselection
    exact ⟨hsel.branch, ⟨focus, hcaret⟩, hdivides, hmade.symm, hanswer, hroot, hroot ▸ hframe,
      fun hne => absurd rfl hne, fun _ => hselection⟩
  · obtain ⟨hanswer, hroot, hselection⟩ := hopened.insertAtoms_made hwf hne options.selectionMode
    rw [← hinsert] at hanswer hroot hselection
    have hresult (filler : Nat) : parts.result made owner slot filler =
        some (parts.front made ++ made ++ parts.back made) := by
      simp only [InsertionParts.result, List.isEmpty_iff, hne, if_false]
    rw [hresult] at hframe
    have hroot' : (e.insert text options).state.root = q.modifyAtom (fun a => a.putBranch slot
        (some (parts.front made ++ made ++ parts.back made))) e.root := hroot
    exact ⟨hsel.branch, ⟨focus, hcaret⟩, hdivides, hmade.symm, hanswer,
      by rw [hresult]; exact hroot, hroot' ▸ hframe, fun _ => hselection, fun h => absurd h hne⟩

/-- The formula `a + x` with the caret at its end. -/
def sumToDivide : Editor :=
  let sum := [Atom.leaf 0 .ordinary (some "a") none, Atom.leaf 1 .binary (some "+") none,
    Atom.leaf 2 .ordinary (some "x") none]
  (Editor.ofRoot (Atom.newRoot sum 3).1 4).setCaret (Path.inRoot 2)

theorem insert_editsOneBranch_sumToDivide :
    sumToDivide.Sound ∧ ∃ q slot owner atoms parts made,
      EditsOneBranch sumToDivide "\\frac\x7b#@\x7d\x7b#?\x7d" (InsertOptions.latex .placeholder) q
        slot owner atoms parts made :=
  have hsound : sumToDivide.Sound := ⟨rfl, by decide, rfl⟩
  ⟨hsound, hsound.insert_editsOneBranch _ _⟩

end Editor

end FormulaEditor

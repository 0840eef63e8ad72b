import FormulaEditor.Editor.CommandEntry
import FormulaEditor.Proofs.Editor.Replacing
import FormulaEditor.Proofs.Latex.ReadingBack

/-!
# Typed characters and taking them back

A character that is typed into a formula becomes one leaf before the caret. Deleting backward takes
such leaves away again one by one; their branch is settled when the last atom in it goes.
-/

namespace FormulaEditor

/-- A leaf as a typed character makes it: one that a deletion removes and that is no placeholder. -/
inductive IsTypedLeaf : Atom → Prop where
  | leaf (id : Nat) {kind : Kind} (value : Option String) (glyph : Option Char)
      (shape_eq : kind.shape = .leaf) (ne_placeholder : kind ≠ .placeholder) :
      IsTypedLeaf (Atom.leaf id kind value glyph)

namespace IsTypedLeaf

variable {a : Atom}

theorem isRemovable (h : IsTypedLeaf a) : isRemovable a = true := by
  obtain ⟨id, value, glyph, hs, -⟩ := h
  simp [FormulaEditor.isRemovable, Atom.isLeaf, Atom.leaf, Atom.kind, hs, Atom.hasScripts,
    Atom.branch, Branches.none, Branches.get]

theorem isPlaceholder (h : IsTypedLeaf a) : a.isPlaceholder = false := by
  obtain ⟨id, value, glyph, -, hk⟩ := h
  simp [Atom.isPlaceholder, Atom.leaf, Atom.kind, hk]

theorem isWellFormed (h : IsTypedLeaf a) : a.isWellFormed = true := by
  obtain ⟨id, value, glyph, hs, -⟩ := h
  exact Atom.isWellFormed_leaf hs id value glyph

theorem firstPlaceholder? (h : IsTypedLeaf a) (p : Path) : a.firstPlaceholder? p = none := by
  have hplaceholder := h.isPlaceholder
  obtain ⟨id, value, glyph, -, -⟩ := h
  simp only [Atom.firstPlaceholder?, Atom.leaf, Branches.none, Atom.positions, branchPositions,
    List.append_nil]
  rw [List.find?_cons_of_neg (by simpa [Atom.leaf, Branches.none] using hplaceholder)]
  rfl

end IsTypedLeaf

/-- A branch with a typed leaf in it does not count as empty. -/
theorem isPlaceholderOnly_of_isTypedLeaf {atoms : List Atom} {a : Atom} (hm : a ∈ atoms)
    (ha : IsTypedLeaf a) : isPlaceholderOnly atoms = false :=
  isPlaceholderOnly_eq_false hm ha.isPlaceholder

/-! ## The atom of a character -/

theorem isTypedLeaf_newMathChar (c : Char) (n : Nat) :
    IsTypedLeaf (Latex.Reader.newMathChar c n).1 := by
  have hkind : (Latex.Reader.charKind c).1.shape = .leaf ∧
      (Latex.Reader.charKind c).1 ≠ .placeholder := by
    unfold Latex.Reader.charKind
    split <;> exact ⟨rfl, Kind.noConfusion⟩
  unfold Latex.Reader.newMathChar
  split
  · exact .leaf _ _ _ (rfl : Kind.shape .ordinary = .leaf) Kind.noConfusion
  · split
    · exact .leaf _ _ _ (rfl : Kind.shape .space = .leaf) Kind.noConfusion
    · exact .leaf _ _ _ hkind.1 hkind.2

namespace Latex

/-- A source that is one command for a symbol makes one leaf, whatever the arguments. -/
theorem atoms_parse_symbol {args : List (List Atom)} {tokens : List SpannedToken} {name : String}
    {m : Meaning} {kind : Kind} {glyph : Char} {mode : ReadingMode}
    (ht : tokens.map SpannedToken.token = [.control name, .endOfInput])
    (hf : Vocabulary.find? name = some m) (ha : m.action = .symbol kind glyph) (n : Nat) :
    (parse tokens mode args n).1.atoms =
      [Atom.leaf n kind (some (Vocabulary.command name)) (some glyph)] := by
  have hahead : (Reader.start tokens n).ahead = [.control name, .endOfInput] := ht
  obtain ⟨span, hitem⟩ : ∃ span, Reader.readItem args mode [] (Reader.start tokens n) =
      Reader.readCommand args name span mode [] (Reader.start tokens n).skip :=
    Reader.readItem_control hahead
  rw [Reader.readCommand_symbol hf ha] at hitem
  have hskip := Reader.ahead_skip hahead
  have hpushed : (Reader.push [] (Atom.newLeaf kind (some (Vocabulary.command name)) (some glyph))
      (Reader.start tokens n).skip).2.ahead = [.endOfInput] := hskip
  unfold parse Reader.readAll
  rw [Reader.readItems_step hahead rfl hitem (Nat.le_of_eq (congrArg List.length hpushed)),
    Reader.readItems_stop hpushed rfl]
  rfl

end Latex

namespace Editor

variable {e : Editor} {root owner : Atom} {q : Path} {slot : Slot}
  {atoms content before after gone : List Atom} {offset : Int} {c : Char}

/-- Whether a character that is typed in math stands for itself: blank characters are left out, and
the others lead elsewhere. -/
structure StandsForItself (c : Char) : Prop where
  not_blank : Text.isBlank c = false
  not_special : ¬(c = '\\' ∨ c = '^' ∨ c = '_')

/-- A character that stands for itself makes one leaf in math. -/
theorem charAtoms_eq (e : Editor) (args : List (List Atom)) (hc : StandsForItself c) :
    ∃ a, (e.charAtoms c .math args).1 = [a] ∧ IsTypedLeaf a := by
  have hspecial : (decide (c = '\\') || decide (c = '^') || decide (c = '_')) = false := by
    simpa [and_assoc] using hc.not_special
  unfold charAtoms
  simp only [hspecial, hc.not_blank, Bool.false_eq_true, if_false, reduceCtorEq]
  split
  · rename_i hneeds
    -- Each of these characters is a command for a symbol.
    have hsymbol (name : String) (m : Latex.Meaning) (kind : Kind) (glyph : Char)
        (ht : (Latex.tokenize (String.ofList ['\\', c])).tokens.map Latex.SpannedToken.token =
          [.control name, .endOfInput])
        (hf : Latex.Vocabulary.find? name = some m) (ha : m.action = .symbol kind glyph)
        (hs : kind.shape = .leaf) (hk : kind ≠ .placeholder) :
        ∃ a, (e.readFragment (String.ofList ['\\', c]) .math args).1 = [a] ∧ IsTypedLeaf a :=
      ⟨_, Latex.atoms_parse_symbol ht hf ha _, .leaf _ _ _ hs hk⟩
    simp only [needsBackslash, List.contains_eq_mem, decide_eq_true_eq, List.mem_cons,
      List.not_mem_nil, or_false] at hneeds
    rcases hneeds with rfl | rfl | rfl | rfl | rfl | rfl
    · exact hsymbol "\x7b" _ .opening '{' (by decide +kernel) rfl rfl rfl Kind.noConfusion
    · exact hsymbol "\x7d" _ .closing '}' (by decide +kernel) rfl rfl rfl Kind.noConfusion
    · exact hsymbol "#" _ .ordinary '#' (by decide +kernel) rfl rfl rfl Kind.noConfusion
    · exact hsymbol "%" _ .ordinary '%' (by decide +kernel) rfl rfl rfl Kind.noConfusion
    · exact hsymbol "&" _ .ordinary '&' (by decide +kernel) rfl rfl rfl Kind.noConfusion
    · exact hsymbol "$" _ .ordinary '$' (by decide +kernel) rfl rfl rfl Kind.noConfusion
  · exact ⟨_, rfl, isTypedLeaf_newMathChar c e.supply⟩

/-! ## Typing a character -/

theorem mode_foldl_note (diagnostics : List Latex.Diagnostic) (e : Editor) :
    (diagnostics.foldl (fun e d => e.note (.repaired d)) e).mode = e.mode := by
  induction diagnostics generalizing e with
  | nil => rfl
  | cons d rest ih => exact ih (e.note (.repaired d))

theorem mode_charAtoms (e : Editor) (c : Char) (mode : Latex.ReadingMode)
    (args : List (List Atom)) : (e.charAtoms c mode args).2.mode = e.mode := by
  have hfragment (source : String) : (e.readFragment source mode args).2.mode = e.mode :=
    mode_foldl_note _ _
  unfold charAtoms
  split
  · exact hfragment _
  split
  · exact hfragment _
  split
  · rfl
  split <;> rfl

theorem mode_takeSelection (e : Editor) : e.takeSelection.2.mode = e.mode := by
  unfold takeSelection
  simp only
  split
  · rfl
  · split <;> rfl

theorem mode_settleCaret (e : Editor) (p : Path) (offset : Int) :
    (e.settleCaret p offset).mode = e.mode := by
  have hsettled : (e.settle p offset).2.mode = e.mode := by
    unfold settle
    split
    · split
      · split <;> rfl
      · rfl
    · rfl
  exact hsettled

theorem mode_takeImplicitArgument (e : Editor) : e.takeImplicitArgument.2.mode = e.mode := by
  unfold takeImplicitArgument
  simp only
  split
  · rfl
  · split <;> rfl

theorem mode_takeArgument (e : Editor) (text : String) : (e.takeArgument text).2.mode = e.mode := by
  unfold takeArgument
  simp only
  split
  · exact (mode_takeImplicitArgument _).trans (mode_takeSelection e)
  · exact mode_takeSelection e

theorem mode_textAtoms (e : Editor) (text : String) (format : InsertFormat)
    (mode : Latex.ReadingMode) (args : List (List Atom)) :
    (e.textAtoms text format mode args).2.mode = e.mode := by
  unfold textAtoms
  split
  · exact mode_charAtoms ..
  · exact mode_foldl_note _ _

theorem mode_insertAtoms (e : Editor) (inserted : List Atom) (mode : SelectionMode) :
    (e.insertAtoms inserted mode).state.mode = e.mode := by
  unfold insertAtoms
  simp only
  split
  · rfl
  split
  · exact mode_settleCaret ..
  · exact (onlySelects_selectInserted ..).mode_eq

/-- An insertion does not change what characters are taken for. -/
theorem mode_insert (e : Editor) (text : String) (options : InsertOptions) :
    (e.insert text options).state.mode = e.mode := by
  unfold insert whenValid
  split
  · exact (mode_insertAtoms ..).trans ((mode_textAtoms ..).trans (mode_takeArgument e text))
  · rfl

theorem mode_removeCommand (e : Editor) : e.removeCommand.mode = .math := by
  unfold removeCommand onCommandRun
  simp only
  split
  · rfl
  · exact mode_settleCaret ..

/-- A command that is completed leads back to math. -/
theorem Sound.mode_completeCommand (h : e.Sound) : e.completeCommand.state.mode = .math := by
  unfold Editor.completeCommand
  rw [h.whenValid]
  simp only
  split
  · exact mode_removeCommand _
  · exact (mode_insert ..).trans (mode_removeCommand _)

theorem length_sub_one_concat (as : List Atom) (a : Atom) :
    ((as ++ [a]).length : Int) - 1 = as.length := by
  rw [List.length_append, List.length_singleton]
  omega

/-- There is no placeholder to go to among typed leaves. -/
theorem findSome?_typedLeaves {leaves : List Atom} (hl : ∀ a ∈ leaves, IsTypedLeaf a) (p : Path)
    (i : Nat) : ((placeholderAmong?.itemPositionsFrom p i leaves).findSome? fun (q, a) =>
      a.firstPlaceholder? q) = none := by
  induction leaves generalizing i with
  | nil => rfl
  | cons a leaves ih =>
      obtain ⟨ha, hleaves⟩ := List.forall_mem_cons.1 hl
      rw [placeholderAmong?.itemPositionsFrom, List.findSome?_cons]
      dsimp only
      rw [ha.firstPlaceholder?]
      exact ih hleaves (i + 1)

/-- Leaves that are inserted at the caret are before the caret then. -/
theorem OpenedAtCaret.insertAtoms_typedLeaves
    (h : e.OpenedAtCaret root q slot owner atoms content offset) {leaves : List Atom}
    (hne : leaves ≠ []) (hl : ∀ a ∈ leaves, IsTypedLeaf a) :
    ∃ e' : Editor, e.insertAtoms leaves .placeholder = .done e' ∧
      e'.OpenedAtCaret root q slot owner atoms
        (beforeGap (q.child slot offset) content ++ leaves ++ afterGap (q.child slot offset) content)
        (((beforeGap (q.child slot offset) content ++ leaves).length : Int) - 1) ∧
      e'.mode = e.mode := by
  have hwf : ∀ b ∈ leaves, b.isWellFormed = true := fun b hb => (hl b hb).isWellFormed
  have hpos := List.length_pos_iff.2 hne
  have hopened := h.putBranch offset (h.toOpened.isWellFormed_withInserted offset hwf)
  have hindex : (insertionPoint (q.child slot offset) content).1 =
      (beforeGap (q.child slot offset) content).length := by
    rw [beforeGap, List.length_take, Nat.min_eq_left (insertionPoint_le h.isOffset q slot)]
  generalize hbefore : beforeGap (q.child slot offset) content = before at *
  generalize hafter : afterGap (q.child slot offset) content = after at *
  have hcontent : withInserted content (q.child slot offset) leaves = before ++ leaves ++ after := by
    rw [withInserted_eq, hbefore, hafter]
  have hlast : before.length + leaves.length - 1 + 1 = before.length + leaves.length := by omega
  have hinserted : slice (before ++ leaves ++ after) before.length
      (before.length + leaves.length - 1 + 1) = leaves := by
    rw [hlast]
    exact slice_append_append before leaves after
  rw [hcontent] at hopened
  have hnone : placeholderAmong? (e.putBranch (q.child slot offset) (before ++ leaves ++ after)).root
      (q.child slot offset) before.length (before.length + leaves.length - 1) = none := by
    simp only [placeholderAmong?, hopened.branch?, Option.bind_eq_bind, Option.bind_some, hinserted]
    exact findSome?_typedLeaves hl _ _
  have hoffset : ((before.length + leaves.length - 1 : Nat) : Int) =
      ((before ++ leaves).length : Int) - 1 := by
    rw [List.length_append]
    omega
  refine ⟨_, h.insertAtoms_eq hne _, ?_, ?_⟩
  · simp only [hindex, hcontent, selectInserted, hnone, Path.withOffset_child, hoffset]
    exact ⟨hopened.setCaret _, rfl, isOffset_length_sub_one (before ++ leaves) after⟩
  · simp only [hindex, hcontent, selectInserted, hnone]
    rfl

/-- A leaf that is inserted at the caret is before the caret then. -/
theorem OpenedAtCaret.insertAtoms_typedLeaf
    (h : e.OpenedAtCaret root q slot owner atoms content offset) {a : Atom} (ha : IsTypedLeaf a) :
    ∃ e' : Editor, e.insertAtoms [a] .placeholder = .done e' ∧
      e'.OpenedAtCaret root q slot owner atoms
        (beforeGap (q.child slot offset) content ++ [a] ++ afterGap (q.child slot offset) content)
        (beforeGap (q.child slot offset) content).length ∧ e'.mode = e.mode := by
  have hinserted := h.insertAtoms_typedLeaves (List.cons_ne_nil a []) (by simpa using ha)
  rwa [length_sub_one_concat] at hinserted

theorem takesImplicitArgument_singleton (c : Char) : takesImplicitArgument [c] = false := by
  unfold takesImplicitArgument
  split
  · rename_i heq
    simp at heq
  · rename_i heq
    cases heq
    rfl
  · rfl

/-- A character that is typed in math is inserted as a leaf, once the selection was taken out. -/
theorem insert_char_eq (hv : e.validate = .ok ()) (htext : e.takeSelection.2.inText = false)
    (hc : StandsForItself c) :
    ∃ (a : Atom) (e₁ : Editor), IsTypedLeaf a ∧ e₁.root = e.takeSelection.2.root ∧
      e₁.selection = e.takeSelection.2.selection ∧ e₁.mode = e.mode ∧
      e.insert (String.singleton c) InsertOptions.standard = e₁.insertAtoms [a] .placeholder := by
  have htakes : takesImplicitArgument (String.singleton c).toList = false := by
    rw [String.toList_singleton, takesImplicitArgument_singleton]
  have hargument : e.takeArgument (String.singleton c) = e.takeSelection := by
    simp only [takeArgument, htakes, Bool.and_false, Bool.false_eq_true, if_false]
  obtain ⟨a, hatoms, ha⟩ := charAtoms_eq e.takeSelection.2 [e.takeSelection.1] hc
  have hreads : e.takeSelection.2.ReadsInto (fun _ => True)
      (e.takeSelection.2.charAtoms c .math [e.takeSelection.1]) :=
    readsInto_charAtoms (fun _ _ _ _ _ => trivial) (fun _ _ => trivial) c .math
  refine ⟨a, _, ha, hreads.root_eq, hreads.selection_eq,
    (mode_charAtoms ..).trans (mode_takeSelection e), ?_⟩
  unfold Editor.insert Editor.whenValid
  rw [hv]
  simp only [hargument, htext, Bool.false_eq_true, if_false, textAtoms, InsertOptions.standard,
    String.toList_singleton, hatoms]

/-- A character that is typed in math takes the place of the selection. -/
theorem SelectsIn.insert_char {anchor focus : Int}
    (hsel : e.SelectsIn q slot owner atoms anchor focus) (hs : e.Sound) (htext : e.inText = false)
    (hc : StandsForItself c)
    (h : e.takeSelection.2.OpenedAtCaret e.root q slot owner atoms content offset) :
    ∃ a e', IsTypedLeaf a ∧
      e.insert (String.singleton c) InsertOptions.standard = .done e' ∧
      e'.OpenedAtCaret e.root q slot owner atoms
        (beforeGap (q.child slot offset) content ++ [a] ++ afterGap (q.child slot offset) content)
        (beforeGap (q.child slot offset) content).length ∧ e'.mode = e.mode := by
  have hcaret : e.caret = q.child slot focus := by
    rw [caret, hsel.selection_eq]
  have hmath : e.takeSelection.2.inText = false :=
    (h.toOpened.inText_eq (hs.opened hsel.branch) h.caret_eq hcaret).trans htext
  obtain ⟨a, e₁, ha, hroot, hselection, hmode₁, hinsert⟩ := insert_char_eq hs.valid hmath hc
  obtain ⟨e', hinserted, hopened, hmode⟩ := (h.of_eq hroot hselection).insertAtoms_typedLeaf ha
  exact ⟨a, e', ha, hinsert.trans hinserted, hopened, hmode.trans hmode₁⟩

/-! ## Taking typed characters back -/

/-- Deleting backward takes a removable atom before the caret out and settles the branch. -/
theorem OpenedAtCaret.deleteBackward {a : Atom} (ha : FormulaEditor.isRemovable a = true)
    (h : e.OpenedAtCaret root q slot owner atoms (before ++ [a] ++ after) before.length) :
    ∃ e' : Editor, e'.Opened root q slot owner atoms (before ++ after) ∧ e'.mode = e.mode ∧
      e.deleteBackward = e'.settleCaret (q.child slot before.length) ((before.length : Int) - 1) := by
  have hlast : (q.child slot before.length).atom? e.root = some a := by
    simp [h.isBranch.atom?]
  have herased : (before ++ [a] ++ after).eraseIdx before.length = before ++ after := by
    simp [List.eraseIdx_append_of_length_le]
  have hremoved := h.removeAtom before.length
  rw [herased] at hremoved
  refine ⟨_, hremoved, rfl, ?_⟩
  unfold Editor.deleteBackward
  simp only [h.isCollapsed, h.caret_eq, hlast, ha, Bool.not_true, Bool.false_eq_true,
    if_false, if_true, removeAtom_child]

/-- Deleting backward as often as there are typed leaves before the caret takes all of them out. The
branch is settled once they are gone. -/
theorem OpenedAtCaret.deleteTimes (hne : gone ≠ []) (hl : ∀ a ∈ gone, IsTypedLeaf a)
    (h : e.OpenedAtCaret root q slot owner atoms (before ++ gone ++ after)
      (((before ++ gone).length : Int) - 1)) :
    ∃ (e' : Editor) (at' : Int), e'.Opened root q slot owner atoms (before ++ after) ∧
      e'.mode = e.mode ∧
      deleteTimes .backward gone.length e =
        e'.settleCaret (q.child slot at') ((before.length : Int) - 1) := by
  generalize hn : gone.length = n
  induction n generalizing gone e with
  | zero => exact absurd (List.eq_nil_of_length_eq_zero hn) hne
  | succ n ih =>
      obtain ⟨rest, a, hgone⟩ := (List.eq_nil_or_concat gone).resolve_left hne
      rw [List.concat_eq_append] at hgone
      subst hgone
      obtain ⟨hrest, ha⟩ := List.forall_mem_append.1 hl
      rw [List.length_append, List.length_singleton, Nat.add_right_cancel_iff] at hn
      rw [← List.append_assoc, length_sub_one_concat] at h
      obtain ⟨e', hopened, hmode, hdeleted⟩ := h.deleteBackward (ha a (List.mem_singleton_self a)).isRemovable
      show ∃ _ _, _ ∧ _ ∧ deleteTimes .backward n e.deleteBackward = _
      rw [hdeleted]
      by_cases hnil : rest = []
      · subst hnil
        subst hn
        rw [List.append_nil] at hopened ⊢
        exact ⟨e', _, hopened, hmode, rfl⟩
      · -- Leaves are left in the branch, so settling only moves the caret.
        have hleft : before ++ rest ++ after ≠ [] := by simp [hnil]
        have hstep := hopened.openedAtCaret_settleCaret (before ++ rest).length
          (isOffset_length_sub_one (before ++ rest) after) fun hempty => absurd hempty hleft
        rw [settled_of_ne_nil owner slot _ hleft] at hstep
        obtain ⟨e'', at', hopened', hmode', hall⟩ := ih hnil hrest hstep hn
        exact ⟨e'', at', hopened', hmode'.trans ((mode_settleCaret ..).trans hmode), hall⟩

/-- Deleting backward takes as many typed leaves out and settles the branch. -/
theorem OpenedAtCaret.delete_eq (hne : gone ≠ []) (hl : ∀ a ∈ gone, IsTypedLeaf a)
    (h : e.OpenedAtCaret root q slot owner atoms (before ++ gone ++ after)
      (((before ++ gone).length : Int) - 1)) (hs : e.Sound) (hmode : e.mode = .math) :
    ∃ (e' : Editor) (at' : Int), e'.Opened root q slot owner atoms (before ++ after) ∧
      e.delete .backward gone.length =
        .done (e'.settleCaret (q.child slot at') ((before.length : Int) - 1)) := by
  obtain ⟨e', at', hleft, hmode', hdeleted⟩ := h.deleteTimes hne hl
  have hleave : (e'.settleCaret (q.child slot at') ((before.length : Int) - 1)).mode = .math :=
    (mode_settleCaret ..).trans (hmode'.trans hmode)
  refine ⟨e', at', hleft, ?_⟩
  unfold Editor.delete
  rw [hs.whenValid, hdeleted, leaveEmptyCommand, hleave]
  rfl

/-! ## Typed characters in their branch -/

/-- The caret is behind the typed leaves `chars`, which stand between `before` and `after`. Without
them the branch would not be a lone placeholder. -/
structure Typed (e : Editor) (q : Path) (slot : Slot) (owner : Atom)
    (before chars after : List Atom) : Prop where
  branch : IsBranch e.root q slot owner (before ++ chars ++ after)
  selection_eq :
    e.selection = Selection.caret (q.child slot (((before ++ chars).length : Int) - 1))
  isTypedLeaf : ∀ a ∈ chars, IsTypedLeaf a
  not_placeholderOnly : isPlaceholderOnly (before ++ after) = false

variable {chars kept : List Atom} {fragment : String}

theorem Typed.of_eq (h : e.Typed q slot owner before chars after) {e' : Editor}
    (hr : e'.root = e.root) (hs : e'.selection = e.selection) :
    e'.Typed q slot owner before chars after :=
  ⟨hr ▸ h.branch, hs.trans h.selection_eq, h.isTypedLeaf, h.not_placeholderOnly⟩

theorem Typed.openedAtCaret (h : e.Typed q slot owner before chars after) (hs : e.Sound) :
    e.OpenedAtCaret e.root q slot owner (before ++ chars ++ after) (before ++ chars ++ after)
      (((before ++ chars).length : Int) - 1) :=
  ⟨hs.opened h.branch, h.selection_eq, isOffset_length_sub_one (before ++ chars) after⟩

theorem OpenedAtCaret.typed (h : e.OpenedAtCaret root q slot owner atoms
      (before ++ chars ++ after) (((before ++ chars).length : Int) - 1))
    (hl : ∀ a ∈ chars, IsTypedLeaf a) (hlone : isPlaceholderOnly (before ++ after) = false) :
    e.Typed q slot (owner.putBranch slot (some (before ++ chars ++ after))) before chars after :=
  ⟨h.isBranch, h.selection_eq, hl, hlone⟩

/-- The first character typed at a place. -/
theorem Sound.typed_insert (h : e.Sound) (htext : e.inText = false) (hc : StandsForItself c) :
    ∃ e' q slot owner before a after,
      e.insert (String.singleton c) InsertOptions.standard = .done e' ∧
      e'.Typed q slot owner before [a] after ∧ e'.inText = false ∧ e'.mode = e.mode := by
  obtain ⟨q, slot, owner, atoms, anchor, focus, hsel⟩ := h.exists_selectsIn
  obtain ⟨content, offset, htaken⟩ := hsel.takeSelection h
  obtain ⟨a, e', ha, hinserted, hopened, hmode⟩ := hsel.insert_char h htext hc
    htaken.toOpenedAtCaret
  have hcaret : e.caret = q.child slot focus := congrArg Selection.focus hsel.selection_eq
  have hin := (hopened.toOpened.inText_eq (h.opened hsel.branch) hopened.caret_eq hcaret).trans htext
  rw [← length_sub_one_concat _ a] at hopened
  exact ⟨e', q, slot, _, _, a, _, hinserted, hopened.typed (by simpa using ha)
    (isPlaceholderOnly_gap htaken.isOffset), hin, hmode⟩

/-- One more character behind those that were typed before. -/
theorem Typed.typed_insert (h : e.Typed q slot owner before chars after) (hne : chars ≠ [])
    (hs : e.Sound) (htext : e.inText = false) (hc : StandsForItself c) :
    ∃ e' owner' a, e.insert (String.singleton c) InsertOptions.standard = .done e' ∧
      e'.Typed q slot owner' before (chars ++ [a]) after ∧ e'.inText = false ∧
      e'.mode = e.mode := by
  have hopened₀ := h.openedAtCaret hs
  have hsel : e.SelectsIn q slot owner (before ++ chars ++ after) _ _ :=
    ⟨h.branch, h.selection_eq, hopened₀.isOffset, hopened₀.isOffset⟩
  have htaken : e.takeSelection.2.OpenedAtCaret e.root q slot owner (before ++ chars ++ after)
      (before ++ chars ++ after) (((before ++ chars).length : Int) - 1) := by
    simpa only [takeSelection, hopened₀.isCollapsed, if_true] using hopened₀
  obtain ⟨b, hb⟩ := List.exists_mem_of_ne_nil chars hne
  have hlone : isPlaceholderOnly (before ++ chars ++ after) = false :=
    isPlaceholderOnly_of_isTypedLeaf (by simp [hb]) (h.isTypedLeaf b hb)
  obtain ⟨hbefore, hafter⟩ := gap_append q slot hlone
  obtain ⟨a, e', ha, hinserted, hopened, hmode⟩ := hsel.insert_char hs htext hc htaken
  have hin := (hopened.toOpened.inText_eq hopened₀.toOpened hopened.caret_eq
    hopened₀.caret_eq).trans htext
  rw [hbefore, hafter, ← length_sub_one_concat _ a, List.append_assoc before chars [a]] at hopened
  exact ⟨e', _, a, hinserted, hopened.typed
    (List.forall_mem_append.2 ⟨h.isTypedLeaf, by simpa using ha⟩) h.not_placeholderOnly, hin, hmode⟩

/-- Taking the last typed leaves out and inserting a fragment replaces these leaves in their branch,
unless nothing else is in the branch and it does not stay as it is without content. -/
theorem Typed.delete_insert_iff (h : e.Typed q slot owner before (kept ++ gone) after)
    (hne : gone ≠ []) (hs : e.Sound) (hmode : e.mode = .math)
    (hf : takesImplicitArgument fragment.toList = false) (mode : SelectionMode) :
    ∃ e₁ e₂, e.delete .backward gone.length = .done e₁ ∧
      e₁.insert fragment (InsertOptions.latex mode) = .done e₂ ∧
      (e₂.root.bare =
          (q.fill slot (before ++ kept ++ e.reading fragment ++ after) e.root).bare ↔
        (before ++ kept ++ after = [] → slot.isOptional = false ∧
          (e.reading fragment = [] → owner.requiresContent slot = false))) := by
  obtain ⟨hkept, hgone⟩ := List.forall_mem_append.1 h.isTypedLeaf
  have hopened := h.openedAtCaret hs
  rw [← List.append_assoc] at hopened
  have hlone : isPlaceholderOnly (before ++ kept ++ after) = false := by
    cases kept with
    | nil => simpa using h.not_placeholderOnly
    | cons a rest =>
        exact isPlaceholderOnly_of_isTypedLeaf (a := a) (by simp) (hkept a List.mem_cons_self)
  obtain ⟨e', at', hleft, hdeleted⟩ := hopened.delete_eq hne hgone hs hmode
  have hsound : (e'.settleCaret (q.child slot at') (((before ++ kept).length : Int) - 1)).Sound :=
    hleft.sound_settleCaret at' fun _ => isOffset_length_sub_one (before ++ kept) after
  have hcarried := hsound.insert fragment (InsertOptions.latex mode)
  exact ⟨_, _, hdeleted, congrArg (Outcome.mk _) hcarried.1,
    hleft.bare_insert_settleCaret_iff hopened hlone hf⟩

end Editor

end FormulaEditor

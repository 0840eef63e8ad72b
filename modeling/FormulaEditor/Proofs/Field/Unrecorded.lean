import FormulaEditor.Proofs.Editor.Completing
import FormulaEditor.Proofs.Editor.Conserving.Operations
import FormulaEditor.Proofs.Field.Placed
import FormulaEditor.Proofs.Field.UpToDate
import FormulaEditor.Proofs.Latex.Surrounding

/-!
# What is written after a command that is not recorded

Commands that are not recorded move the caret, mark the characters of a command that is being typed,
or put such characters in and take them out. These are not written, so the formula is written as
before, with two exceptions. Discarding a command settles its branch: one that held nothing else is
removed or gets a placeholder. And an index of a radical is written in braces if a group stands alone
in it, where characters of a command count as company although they are not written.
-/

namespace FormulaEditor

open Latex Latex.Writer

variable {a : Atom} {atoms middle : List Atom} {start stop : Nat}

/-! ## Characters of a command -/

theorem pieces_of_isCommandChar (hr : a.Regular) (ha : isCommandChar a = true) : pieces a = [] := by
  have hk : a.kind = .command := eq_of_beq ha
  have hsup : a.branch .superscript = none := hr.branch_eq_none (by rw [hk]; rfl)
  have hsub : a.branch .subscript = none := hr.branch_eq_none (by rw [hk]; rfl)
  obtain ⟨⟨id, kind, value, glyph, marks⟩,
    ⟨body, sup, sub, numerator, denominator, index, radicand⟩⟩ := a
  obtain rfl : kind = .command := hk
  obtain rfl : sup = none := hsup
  obtain rfl : sub = none := hsub
  rfl

theorem listPieces_of_isCommandChar (h : ∀ a ∈ atoms, a.Regular ∧ isCommandChar a = true) :
    listPieces atoms = [] := by
  rw [listPieces_eq_flatMap, List.flatMap_eq_nil_iff]
  exact fun a ha => pieces_of_isCommandChar (h a ha).1 (h a ha).2

theorem forall_mem_take_countAtStart {α : Type} (p : α → Bool) (xs : List α) :
    ∀ x ∈ xs.take (countAtStart p xs), p x = true := by
  have hprefix := (List.prefix_iff_eq_take.1 (List.takeWhile_prefix p (l := xs)))
  intro x hx
  rw [countAtStart, ← hprefix] at hx
  exact List.all_eq_true.1 List.all_takeWhile x hx

/-- The run around a gap consists of characters of a command. -/
theorem CommandRun.isCommandChar_of_mem_slice (offset : Int) :
    ∀ a ∈ slice atoms (CommandRun.around atoms offset).start (CommandRun.around atoms offset).stop,
      isCommandChar a = true := by
  obtain ⟨hstart, hstop, -⟩ := CommandRun.bounds atoms offset
  rw [← Editor.slice_append_slice atoms hstart hstop]
  refine List.forall_mem_append.2 ⟨fun a ha => ?_, fun a ha => ?_⟩
  · let before := atoms.take (min (offset + 1).toNat atoms.length)
    have hlength : before.length = min (offset + 1).toNat atoms.length := by
      rw [List.length_take]
      omega
    have hslice : slice atoms (CommandRun.around atoms offset).start
        (CommandRun.around atoms offset).caret =
          (before.reverse.take (countAtEnd isCommandChar before)).reverse := by
      rw [List.take_reverse, List.reverse_reverse, hlength]
      rfl
    rw [hslice, List.mem_reverse] at ha
    exact forall_mem_take_countAtStart isCommandChar before.reverse a ha
  · let after := atoms.drop (min (offset + 1).toNat atoms.length)
    have hslice : slice atoms (CommandRun.around atoms offset).caret
        (CommandRun.around atoms offset).stop = after.take (countAtStart isCommandChar after) := by
      exact (List.take_drop ..).symm
    rw [hslice] at ha
    exact forall_mem_take_countAtStart isCommandChar after a ha

theorem listPieces_splice (hs : start ≤ stop) (hslice : listPieces (slice atoms start stop) = [])
    (hm : listPieces middle = []) : listPieces (splice atoms start stop middle) = listPieces atoms := by
  have hself := congrArg listPieces (splice_slice atoms hs)
  rw [splice, listPieces_append, listPieces_append, hslice] at hself
  rw [← hself, splice, listPieces_append, listPieces_append, hm]

theorem listPieces_run (hr : ∀ a ∈ atoms, a.Regular) (offset : Int) :
    listPieces (slice atoms (CommandRun.around atoms offset).start
      (CommandRun.around atoms offset).stop) = [] :=
  listPieces_of_isCommandChar fun a ha =>
    ⟨Editor.regular_slice hr _ _ a ha, CommandRun.isCommandChar_of_mem_slice offset a ha⟩

theorem listPieces_filter (h : listPieces atoms = []) (p : Atom → Bool) :
    listPieces (atoms.filter p) = [] := by
  rw [listPieces_eq_flatMap, List.flatMap_eq_nil_iff] at h ⊢
  exact fun a ha => h a (List.mem_filter.1 ha).1

namespace Editor

variable {e e' e'' : Editor} {q : Path} {slot : Slot} {owner : Atom} {content : List Atom}
  {offset : Int}

/-- Whether the caret is in an index that is written in braces. -/
def inBracedIndex (e : Editor) : Bool :=
  e.caret.slot? == some .index && (e.caret.branch? e.root).any needsBraces

/-- Whether the branch of the caret may not be empty, and holds nothing but characters of a command. -/
def onlyCommand (e : Editor) : Bool :=
  e.needsContent && (e.caret.branch? e.root).any fun branch => branch.all isCommandChar

/-! ## Filling a branch with what is written alike -/

/-- The branch of the caret holds other atoms that are written in the same way. -/
def RefillsAlike (e e' : Editor) : Prop :=
  ∃ q slot owner atoms content offset offset', e.caret = q.child slot offset ∧
    IsBranch e.root q slot owner atoms ∧ e'.root = q.fill slot content e.root ∧
    e'.caret = q.child slot offset' ∧ listPieces content = listPieces atoms

theorem RefillsAlike.trans (h : e.RefillsAlike e') (h' : e'.RefillsAlike e'') :
    e.RefillsAlike e'' := by
  obtain ⟨q, slot, owner, atoms, content, offset, offset', hp, hb, hroot, hp', hpieces⟩ := h
  obtain ⟨q', slot', owner', atoms', content', _, offset'', hq, hb', hroot', hp'', hpieces'⟩ := h'
  obtain ⟨rfl, rfl, -⟩ := Path.child_injective (hp'.symm.trans hq)
  obtain ⟨rfl, rfl⟩ := (hb.fill content).unique (hroot ▸ hb')
  refine ⟨q, slot, owner, atoms, content', offset, offset'', hp, hb, ?_, hp'', hpieces'.trans hpieces⟩
  rw [hroot', hroot, hb.fill_fill]

theorem inBracedIndex_eq (hp : e.caret = q.child slot offset)
    (hb : IsBranch e.root q slot owner atoms) :
    e.inBracedIndex = (slot == .index && needsBraces atoms) := by
  rw [inBracedIndex, hp, Path.slot?_child, hb.branch?, Option.any_some]
  rfl

/-- What is written alike is seen only by the braces of an index. -/
theorem RefillsAlike.write_iff (h : e.RefillsAlike e') (hf : IsFormula e.root)
    (hf' : IsFormula e'.root) :
    write e'.atoms = write e.atoms ↔ e'.inBracedIndex = e.inBracedIndex := by
  obtain ⟨q, slot, owner, atoms, content, offset, offset', hp, hb, hroot, hp', hpieces⟩ := h
  have hb' : IsBranch e'.root q slot (owner.putBranch slot (some content)) content :=
    hroot ▸ hb.fill content
  rw [Editor.atoms, Editor.atoms, hroot, write_fill_iff hf hb (hroot ▸ hf') hpieces,
    inBracedIndex_eq hp hb, inBracedIndex_eq hp' hb']
  by_cases hslot : slot = .index
  · simp [hslot]
  · simp [hslot, beq_eq_false_iff_ne.2 hslot]

/-! ## Suggestions -/

theorem refillsAlike_setCaret (hp : e.caret = q.child slot offset)
    (hb : IsBranch e.root q slot owner atoms) (hroot : e'.root = q.fill slot content e.root)
    (h : listPieces content = listPieces atoms) (offset' : Int) :
    e.RefillsAlike (e'.setCaret (q.child slot offset')) :=
  ⟨q, slot, owner, atoms, content, offset, offset', hp, hb, hroot, rfl, h⟩

theorem Placed.refillsAlike_removeSuggestion (h : e.Placed) : e.RefillsAlike e.removeSuggestion := by
  obtain ⟨q, slot, offset, atoms, hp, hedits, -, hrun⟩ := h.onCommandRun
  obtain ⟨hstart, hstop, -⟩ := CommandRun.bounds atoms offset
  obtain ⟨owner, hb⟩ := hedits.exists_branch
  have hrunPieces := listPieces_run hedits.regular offset
  rw [← slice_append_slice atoms hstart hstop, listPieces_append, List.append_eq_nil_iff]
    at hrunPieces
  have hpieces : listPieces (withoutSuggested atoms (CommandRun.around atoms offset)) =
      listPieces atoms := by
    refine listPieces_splice (Nat.le_trans hstart hstop) (listPieces_run hedits.regular offset) ?_
    rw [listPieces_append, listPieces_filter hrunPieces.1, listPieces_filter hrunPieces.2]
    rfl
  unfold Editor.removeSuggestion
  simp only [hrun, hp, Path.withOffset_child]
  exact refillsAlike_setCaret hp hb (Path.putBranch_child hb offset _) hpieces _

theorem Placed.refillsAlike_insertSuggestion (h : e.Placed) (text : List Char) (trim : Nat) :
    e.RefillsAlike (e.insertSuggestion text trim) := by
  refine h.refillsAlike_removeSuggestion.trans ?_
  obtain ⟨q, slot, offset, atoms, hp, hedits, -, hrun⟩ := h.removeSuggestion.onCommandRun
  obtain ⟨hstart, hstop, -⟩ := CommandRun.bounds atoms offset
  obtain ⟨owner, hb⟩ := hedits.exists_branch
  generalize hr : CommandRun.around atoms offset = run at hrun hstart hstop
  let first := run.caret - min trim (run.caret - run.start)
  have hfirst : run.start ≤ first ∧ first ≤ run.caret := by omega
  have htrimmed : listPieces (slice atoms first run.caret) = [] := by
    have hall := listPieces_run hedits.regular offset
    rw [hr, ← slice_append_slice atoms hstart hstop,
      ← slice_append_slice atoms hfirst.1 hfirst.2, listPieces_append, listPieces_append,
      List.append_eq_nil_iff, List.append_eq_nil_iff] at hall
    exact hall.1.2
  have hchars : ∀ a ∈ (newCommandChars text e.removeSuggestion.supply).1.map asSuggested,
      a.Regular ∧ isCommandChar a = true := by
    intro a ha
    obtain ⟨b, hb, rfl⟩ := List.mem_map.1 ha
    refine ⟨(Atom.regular_of_isWellFormed (isWellFormed_newCommandChars text _ b hb)).mapMarks _, ?_⟩
    have hcommand := (commandChars_newCommandChars text e.removeSuggestion.supply).1.isCommandChar b hb
    rwa [isCommandChar, asSuggested, Atom.kind_mapMarks]
  have hpieces := listPieces_splice hfirst.2 htrimmed (listPieces_of_isCommandChar hchars)
  have hcaret : (e.removeSuggestion.mint (newCommandChars text)).2.caret = q.child slot offset := hp
  unfold Editor.insertSuggestion
  simp only [hrun, hcaret, Path.withOffset_child]
  exact refillsAlike_setCaret hp hb (Path.putBranch_child hb offset _) hpieces _

/-! ## Settling an emptied branch -/

theorem root_settleCaret_of_isOptional (hb : IsBranch e.root q slot owner [])
    (hopt : slot.isOptional = true) (at' offset : Int) :
    (e.settleCaret (q.child slot at') offset).root =
      q.modifyAtom (fun a => a.putBranch slot none) e.root := by
  rw [settleCaret_of_isOptional hb hopt]
  simp [Atom.removeBranch, hopt, setCaret, withRoot]

theorem root_settleCaret_of_not_isOptional (hb : IsBranch e.root q slot owner [])
    (hopt : slot.isOptional = false) (at' offset : Int) :
    (e.settleCaret (q.child slot at') offset).root =
        q.fill slot (settled owner slot e.supply []) e.root ∧
      (e.settleCaret (q.child slot at') offset).caret = q.child slot leadingGap := by
  have hset : (owner.setBranch slot [] e.supply).getD owner =
      owner.putBranch slot (some (settled owner slot e.supply [])) := by
    have hpresent := hb.branch_eq
    cases slot <;> simp_all [Atom.setBranch, Slot.isOptional, settled]
  have hroot : q.modifyAtom (fun a => (a.setBranch slot [] e.supply).getD a) e.root =
      q.fill slot (settled owner slot e.supply []) e.root :=
    Path.modifyAtom_congr hb.atom?_eq hset
  rw [settleCaret_of_not_isOptional hb hopt]
  exact ⟨hroot, rfl⟩

/-! ## Discarding a command -/

theorem onlyCommand_eq (hp : e.caret = q.child slot offset)
    (hb : IsBranch e.root q slot owner atoms) :
    e.onlyCommand = (owner.kind.fillsSlot slot && atoms.all isCommandChar) := by
  rw [onlyCommand, needsContent_of_branch hp hb, hp, hb.branch?, Option.any_some]

/-- A branch may not be empty if it goes or is filled when it is emptied. -/
theorem fillsSlot_kind (a : Atom) (slot : Slot) :
    a.kind.fillsSlot slot = (slot.isOptional || a.requiresContent slot) := by
  cases slot <;> rfl

theorem requiresContent_putBranch (a : Atom) (slot other : Slot) (branch : Option (List Atom)) :
    (a.putBranch slot branch).requiresContent other = a.requiresContent other := by
  cases other <;> rfl

/-- Nothing is left without the run around a gap exactly if there is nothing else. -/
theorem splice_run_eq_nil_iff (atoms : List Atom) (offset : Int) :
    splice atoms (CommandRun.around atoms offset).start (CommandRun.around atoms offset).stop [] = [] ↔
      ∀ a ∈ atoms, isCommandChar a = true := by
  obtain ⟨hstart, hstop, hend⟩ := CommandRun.bounds atoms offset
  have hlen := List.length_eq_zero_iff (l := atoms)
  rw [splice, List.append_nil, List.append_eq_nil_iff, List.take_eq_nil_iff, List.drop_eq_nil_iff,
    ← CommandRun.whole_iff atoms offset, ← hlen]
  omega

/-- The characters of a command are not written, so discarding it is seen only if it empties a branch
that may not be empty, or by the braces of an index. -/
theorem Placed.write_removeCommand_iff (h : e.Placed) :
    write e.removeCommand.atoms = write e.atoms ↔
      e.onlyCommand = false ∧ e.removeCommand.inBracedIndex = e.inBracedIndex := by
  have hmath : ({ e with mode := .math } : Editor).Placed := h.of_eq rfl rfl
  obtain ⟨q, slot, offset, atoms, hp, hedits, -, hrun⟩ := hmath.onCommandRun
  obtain ⟨hstart, hstop, -⟩ := CommandRun.bounds atoms offset
  obtain ⟨owner, hb⟩ := hedits.exists_branch
  have hp : e.caret = q.child slot offset := hp
  have hb : IsBranch e.root q slot owner atoms := hb
  have hf := h.formula
  have hf' := h.removeCommand.formula
  let run := CommandRun.around atoms offset
  let content := splice atoms run.start run.stop []
  have hpieces : listPieces content = listPieces atoms :=
    listPieces_splice (Nat.le_trans hstart hstop) (listPieces_run hedits.regular offset) rfl
  have hnil : content = [] ↔ ∀ a ∈ atoms, isCommandChar a = true := splice_run_eq_nil_iff atoms offset
  have hall : content = [] → atoms.all isCommandChar = true := fun hc => List.all_eq_true.2 (hnil.1 hc)
  let e₁ := ({ e with mode := .math } : Editor).putBranch (q.child slot offset) content
  have hr₁ : e₁.root = q.fill slot content e.root := Path.putBranch_child hb offset content
  have hb₁ : IsBranch e₁.root q slot (owner.putBranch slot (some content)) content :=
    hr₁ ▸ hb.fill content
  have hremoved : e.removeCommand = e₁.settleCaret (q.child slot offset) ((run.start : Int) - 1) := by
    unfold Editor.removeCommand
    simp only [hrun]
    rw [show ({ e with mode := .math } : Editor).caret = q.child slot offset from hp]
  rw [onlyCommand_eq hp hb, fillsSlot_kind]
  rw [hremoved] at hf' ⊢
  by_cases hc : content = []
  · rw [hc] at hb₁ hr₁ hpieces
    rw [hall hc, Bool.and_true]
    cases hopt : slot.isOptional with
    | true =>
        have hroot := root_settleCaret_of_isOptional hb₁ hopt offset ((run.start : Int) - 1)
        rw [hr₁, Path.fill, Path.modifyAtom_modifyAtom hb.atom?_eq] at hroot
        simp only [Atom.putBranch_putBranch] at hroot
        refine iff_of_false (write_removed_ne hf hb hopt hf' hroot) ?_
        simp
    | false =>
        obtain ⟨hroot, hcaret⟩ :=
          root_settleCaret_of_not_isOptional hb₁ hopt offset ((run.start : Int) - 1)
        rw [hr₁, hb.fill_fill, settled, requiresContent_putBranch] at hroot
        cases hrequires : owner.requiresContent slot with
        | true =>
            rw [hrequires] at hroot
            exact iff_of_false (write_refilled_ne hf hb hopt hpieces.symm hf' hroot) (by simp)
        | false =>
            rw [hrequires] at hroot
            have hrefills : e.RefillsAlike
                (e₁.settleCaret (q.child slot offset) ((run.start : Int) - 1)) :=
              ⟨q, slot, owner, atoms, [], offset, leadingGap, hp, hb, hroot, hcaret, hpieces⟩
            rw [hrefills.write_iff hf hf']
            simp
  · have honly : atoms.all isCommandChar = false := by
      rw [← Bool.not_eq_true, List.all_eq_true]
      exact fun hcommands => hc (hnil.2 hcommands)
    have hrefills : e.RefillsAlike (e₁.setCaret (q.child slot ((run.start : Int) - 1))) :=
      refillsAlike_setCaret hp hb hr₁ hpieces _
    rw [settleCaret_of_ne_nil hb₁ hc] at hf' ⊢
    rw [hrefills.write_iff hf hf', honly, Bool.and_false]
    simp

end Editor

/-! ## Commands -/

/-- Whether a command that is not recorded changes what is written: it empties a branch that may not
be empty, or makes the braces of an index come or go. -/
def Command.rewrites (c : Command) (e : Editor) : Bool :=
  match c with
  | exitCommandMode => e.onlyCommand || e.removeCommand.inBracedIndex != e.inBracedIndex
  | insertSuggestion text trim =>
      (e.insertSuggestion text.toList trim).inBracedIndex != e.inBracedIndex
  | removeSuggestion => e.removeSuggestion.inBracedIndex != e.inBracedIndex
  | _ => false

namespace Field

variable {f : Field} {c : Command}

theorem latex_of_bare_eq {g : Field} (h : g.editor.root.bare = f.editor.root.bare) :
    g.latex = f.latex :=
  write_of_bare_eq (Atom.body_of_bare_eq h)

theorem Placed.latex_run_iff (h : f.Placed) (hu : c ≠ .undo) (hr : c ≠ .redo)
    (hc : c.isMutation = false) :
    (f.run c).state.latex = f.latex ↔ c.rewrites f.editor = false := by
  have he := h.editor
  have hmove (hm : c.isMovement = true) :
      (f.edit fun e => c.applyTo e).state.latex = f.latex :=
    latex_of_bare_eq (congrArg Atom.bare (Editor.onlySelects_applyTo f.editor hm).root_eq)
  have hrefills {e : Editor} (hrefills : f.editor.RefillsAlike e) (hplaced : e.Placed) :
      (f.withEditor e).latex = f.latex ↔ (e.inBracedIndex != f.editor.inBracedIndex) = false :=
    (hrefills.write_iff he.formula hplaced.formula).trans bne_eq_false_iff_eq.symm
  cases c with
  | undo => exact absurd rfl hu
  | redo => exact absurd rfl hr
  | snapshot => exact iff_of_true rfl rfl
  | acceptSuggestion => exact iff_of_true (latex_of_bare_eq f.editor.bare_acceptSuggestion.1) rfl
  | commitCommand => exact iff_of_true (latex_of_bare_eq f.editor.bare_commitCommand.1) rfl
  | decorateCommand error =>
      exact iff_of_true (latex_of_bare_eq (f.editor.bare_decorateCommand error).1) rfl
  | insertSuggestion text trim =>
      exact hrefills (he.refillsAlike_insertSuggestion _ trim) (he.insertSuggestion _ trim)
  | removeSuggestion => exact hrefills he.refillsAlike_removeSuggestion he.removeSuggestion
  | exitCommandMode =>
      have hexit : (f.run .exitCommandMode).state = f.withEditor f.editor.removeCommand :=
        congrArg (fun o : Outcome Editor Unit => f.withEditor o.state) (he.whenValid _)
      have hrewrites := he.write_removeCommand_iff
      rw [← bne_eq_false_iff_eq (a := f.editor.removeCommand.inBracedIndex), ← Bool.or_eq_false_iff]
        at hrewrites
      rw [hexit]
      exact hrewrites
  | insert | delete | promoteToSuperscript | promoteToSubscript | moveToSuperscript | moveToSubscript
  | enterCommandMode | completeCommand => cases hc
  | _ => exact iff_of_true (hmove rfl) rfl

/-- Apart from going through the history, a command that may change the formula has the state before
recorded first, and after any other command the formula is written as before, unless the command
empties a branch that may not be empty or makes the braces of an index come or go. -/
theorem Reachable.latex_perform_iff (h : f.Reachable) (hu : c ≠ .undo) (hr : c ≠ .redo) :
    (c.isMutation = true → (f.perform c).state.history = f.record.history) ∧
    (c.isMutation = false →
      ((f.perform c).state.latex = f.latex ↔ c.rewrites f.editor = false)) :=
  ⟨fun hc => history_run hc f.endTyping, h.placed.endTyping.latex_run_iff hu hr⟩

/-- Puts the caret behind a group that is all of an index. -/
def groupInIndexSteps : List Step :=
  [.setLatex "\\sqrt[\x7b\x7bx\x7d\x7d]\x7by\x7d",
    .perform (.setRange ⟨[⟨.body, 0⟩, ⟨.index, 0⟩]⟩ ⟨[⟨.body, 0⟩, ⟨.index, 0⟩]⟩)]

/-- Beside a suggested character the group is written without the braces that keep it a group. -/
theorem latex_perform_iff_groupInIndex :
    ∃ f, Field.new ⟨[], false⟩ = .ok f ∧
      (f.afterAll groupInIndexSteps).latex = "\\sqrt[\x7b\x7bx\x7d\x7d]\x7by\x7d" ∧
      (Command.insertSuggestion "a" 0).isMutation = false ∧
      ((f.afterAll groupInIndexSteps).perform (.insertSuggestion "a" 0)).state.latex ≠
        (f.afterAll groupInIndexSteps).latex := by
  have hnew : Field.new ⟨[], false⟩ = .ok ⟨Editor.empty, History.empty History.defaultLimit,
    ⟨[], false⟩, []⟩ := rfl
  have hreachable := (Reachable.new hnew).afterAll groupInIndexSteps
  have hiff := (hreachable.latex_perform_iff (c := .insertSuggestion "a" 0) (by decide)
    (by decide)).2 rfl
  refine ⟨_, hnew, by decide +kernel, rfl, fun heq => ?_⟩
  have hrewrites := hiff.1 heq
  revert hrewrites
  decide +kernel

end Field

end FormulaEditor

import FormulaEditor.Editor.Display
import FormulaEditor.Editor.Scripts
import FormulaEditor.Field.Command
import FormulaEditor.Proofs.Editor.CommandTyping
import FormulaEditor.Proofs.Editor.Conserving
import FormulaEditor.Proofs.Latex.Weighing.Reading

/-!
# Operations double no identity

An insertion takes the selection out and puts it into a fragment: a first use has its identities,
and every other one has new ones. A script takes the selection as it is. What a command is completed
to is new, and marks are no identities. Thus no operation doubles an identity.
-/

namespace FormulaEditor.Editor

open Atom Scale

variable {e e' : Editor} {held held' atoms branch content : List Atom} {p : Path}

/-! ## Taking the selection out -/

/-- The selection is taken out and held. -/
theorem conserves_takeSelection (h : e.Conserves held e' []) :
    e.Conserves held e'.takeSelection.2 e'.takeSelection.1 := by
  unfold takeSelection
  simp only
  split
  · exact h
  split
  · exact h.setCaret _
  · have htaken := (h.setCaret e'.selection.startPath).takeRun (p := e'.selection.startPath)
      (startIndex_le_stopIndex e'.selection) rfl
    split
    · exact htaken.keep (List.nil_sublist _)
    · exact htaken

theorem conserves_takeImplicitArgument (h : e.Conserves held e' []) :
    e.Conserves held e'.takeImplicitArgument.2 e'.takeImplicitArgument.1 := by
  unfold takeImplicitArgument
  simp only
  split
  · exact h
  · rename_i branch hb
    split
    · exact h
    · exact (h.takeRun (Nat.sub_le _ _) (by rw [hb, Option.getD_some])).setCaret _

theorem conserves_takeArgument (h : e.Conserves held e' []) (text : String) :
    e.Conserves held (e'.takeArgument text).2 (e'.takeArgument text).1 := by
  have htaken := conserves_takeSelection h
  unfold takeArgument
  simp only
  split
  · exact conserves_takeImplicitArgument (htaken.keep (List.nil_sublist _))
  · exact htaken

/-! ## Reading what is inserted -/

theorem supply_foldl_note (diagnostics : List Latex.Diagnostic) (e : Editor) :
    (diagnostics.foldl (fun e d => e.note (.repaired d)) e).supply = e.supply := by
  induction diagnostics generalizing e with
  | nil => rfl
  | cons d rest ih => exact ih (e.note (.repaired d))

section

variable {args : List (List Atom)} (h : e.Conserves held e' args.flatten)
include h

/-- The atoms of a fragment are held instead of its arguments. -/
theorem conserves_readFragment (source : String) (mode : Latex.ReadingMode) :
    e.Conserves held (e'.readFragment source mode args).2
      (e'.readFragment source mode args).1 := by
  have hread := h.mint (m := Latex.parseFragment source mode args)
    (weight_parseFragment_le (c := only 0) rfl source mode args e'.supply).1 fun i =>
      (weight_parseFragment_le (c := only i) rfl source mode args e'.supply).2
  exact hread.of_eq (foldl_note _ _).1 (supply_foldl_note _ _)

theorem conserves_newLeaf (kind : Kind) (value : Option String) (glyph : Option Char) :
    e.Conserves held (e'.mint (newLeaf kind value glyph)).2
      [(e'.mint (newLeaf kind value glyph)).1] := by
  have hmade : e.Conserves held (e'.mint (newLeaf kind value glyph)).2
      ([(e'.mint (newLeaf kind value glyph)).1] ++ []) :=
    (h.keep (List.nil_sublist _)).mintNew fun i => makes_newLeaf (only i) kind value glyph e'.supply
  exact hmade

theorem conserves_charAtoms (c : Char) (mode : Latex.ReadingMode) :
    e.Conserves held (e'.charAtoms c mode args).2 (e'.charAtoms c mode args).1 := by
  unfold charAtoms
  split
  · exact conserves_readFragment h _ mode
  split
  · exact conserves_readFragment h _ mode
  split
  · exact conserves_newLeaf h _ _ _
  split
  · exact h.keep (List.nil_sublist _)
  · obtain ⟨kind, value, glyph, -, hchar⟩ := exists_newMathChar c
    rw [hchar]
    exact conserves_newLeaf h kind value glyph

theorem conserves_textAtoms (text : String) (format : InsertFormat) (mode : Latex.ReadingMode) :
    e.Conserves held (e'.textAtoms text format mode args).2
      (e'.textAtoms text format mode args).1 := by
  unfold textAtoms
  split
  · exact conserves_charAtoms h _ mode
  · exact conserves_readFragment h text mode

end

/-! ## Inserting -/

theorem weight_insertionPoint_le (w : Label → Nat) (p : Path) (branch : List Atom) :
    weight w (insertionPoint p branch).2 ≤ weight w branch := by
  unfold insertionPoint
  split
  · exact Nat.zero_le _
  · exact Nat.le_refl _

/-- Atoms that are held go into a branch. -/
theorem conserves_putInserted (h : e.Conserves held e' atoms)
    (hb : p.branch? e'.root = some branch) :
    e.Conserves held (e'.putBranch p (splice (insertionPoint p branch).2
      (insertionPoint p branch).1 (insertionPoint p branch).1 atoms)) [] := by
  refine h.putBranch fun i => ?_
  have hleft := weight_insertionPoint_le (only i).label p branch
  rw [hb, Option.getD_some, weight_splice_gap, weight_nil]
  omega

theorem conserves_selectInserted (h : e.Conserves held e' held') (p : Path) (first last : Nat)
    (mode : SelectionMode) : e.Conserves held (e'.selectInserted p first last mode) held' := by
  cases mode with
  | placeholder =>
      simp only [selectInserted]
      split
      · exact h.of_eq rfl rfl
      · exact h.setCaret _
  | after => exact h.setCaret _
  | before => exact h.setCaret _
  | item => exact h.of_eq rfl rfl

theorem conserves_insertAtoms (h : e.Conserves held e' atoms) (mode : SelectionMode) :
    e.Conserves held (e'.insertAtoms atoms mode).state [] := by
  unfold insertAtoms
  simp only
  split
  · exact h.keep (List.nil_sublist _)
  · rename_i branch hb
    split
    · exact conserves_settleCaret (h.keep (List.nil_sublist _)) _ _
    · exact conserves_selectInserted (conserves_putInserted h hb) _ _ _ mode

theorem conserves_whenValid {operation : Editor → Outcome Editor Unit}
    (h : e.Conserves held e' held') (ho : e.Conserves held (operation e').state held') :
    e.Conserves held (e'.whenValid operation).state held' := by
  unfold whenValid
  split
  · exact ho
  · exact h

theorem conserves_insert (h : e.Conserves held e' []) (text : String) (options : InsertOptions) :
    e.Conserves held (e'.insert text options).state [] := by
  refine conserves_whenValid h ?_
  have htaken : e.Conserves held (e'.takeArgument text).2 [(e'.takeArgument text).1].flatten := by
    rw [List.flatten_cons, List.flatten_nil, List.append_nil]
    exact conserves_takeArgument h text
  exact conserves_insertAtoms (conserves_textAtoms htaken text options.format _)
    options.selectionMode

/-! ## Scripts -/

theorem conserves_newPlaceholder (h : e.Conserves held e' held') :
    e.Conserves held (e'.mint newPlaceholder).2 ([(e'.mint newPlaceholder).1] ++ held') :=
  h.mintNew fun i => makes_newLeaf (only i) .placeholder none none e'.supply

theorem conserves_scriptBase (h : e.Conserves held e' held') (caret : Path) :
    e.Conserves held (e'.scriptBase caret).2 held' := by
  unfold scriptBase
  split
  · exact h
  split
  · exact h
  · rename_i branch hb
    split
    · exact h
    · refine (conserves_newPlaceholder h).putSplice (Nat.le_refl _)
        (by exact congrArg (Option.getD · []) hb) fun i => ?_
      rw [weight_append]
      omega

theorem conserves_ensureScript (h : e.Conserves held e' held') (base : Path) (slot : Slot) :
    e.Conserves held (e'.ensureScript base slot).2 held' := by
  refine h.mintIdentity fun i => weight_modifyAtom_le (fun a => ?_) base e'.root
  rw [← weight_placeholder (only i) e'.supply]
  exact weight_ensureBranch_le _ a slot e'.supply

/-- The content that is found is that of the branch. -/
theorem branch?_ensureScript {base : Path} {slot : Slot} {script : List Atom} {e'' : Editor}
    (h : e'.ensureScript base slot = (some script, e'')) (offset : Int) :
    (base.child slot offset).branch? e''.root = some script := by
  have hfound : (e'.ensureScript base slot).1 =
      (base.atom? (e'.ensureScript base slot).2.root).bind fun a => a.branch slot := rfl
  rw [h] at hfound
  rw [Path.branch?_child, ← hfound]

theorem conserves_enterScript (h : e.Conserves held e' held') (slot : Slot) :
    e.Conserves held (e'.enterScript slot).state held' := by
  have hentered := conserves_ensureScript
    (conserves_scriptBase (conserves_collapse h .forward) (e'.collapse .forward).caret)
    ((e'.collapse .forward).scriptBase (e'.collapse .forward).caret).1 slot
  unfold enterScript
  simp only
  split <;> rename_i heq <;> rw [heq] at hentered
  · exact hentered
  · exact hentered.setCaret _

/-- The selection is taken out and held, with a placeholder in its place if there is no atom that
can carry a script. -/
theorem conserves_takeForScript (h : e.Conserves held e' [])
    (hb : e'.selection.startPath.branch? e'.root = some branch) :
    e.Conserves held (e'.takeForScript branch).2
      (slice branch e'.selection.startIndex e'.selection.stopIndex) := by
  have hle := startIndex_le_stopIndex e'.selection
  unfold takeForScript
  simp only
  split
  · exact h.takeRun hle (by rw [hb, Option.getD_some])
  · refine (conserves_newPlaceholder h).putSplice hle
      (by exact congrArg (Option.getD · []) hb) fun i => ?_
    rw [List.append_nil]
    omega

/-- The selection becomes what a script holds, or goes behind it. -/
theorem conserves_promote (h : e.Conserves held e' []) (slot : Slot) :
    e.Conserves held (e'.promote slot).state [] := by
  unfold promote
  split
  · exact conserves_enterScript h slot
  simp only
  split
  · exact h
  · rename_i branch hb
    have htaken := conserves_ensureScript (conserves_takeForScript h hb)
      (e'.takeForScript branch).1 slot
    split <;> rename_i heq <;> rw [heq] at htaken
    · exact htaken.keep (List.nil_sublist _)
    · rename_i script e''
      refine (htaken.putBranch fun i => ?_).setCaret _
      rw [branch?_ensureScript heq, Option.getD_some, weight_nil]
      split
      · omega
      · rw [weight_append]
        omega

/-! ## Commands -/

/-- What is done with the run of the command being typed is done with a branch of the formula. -/
theorem conserves_onCommandRun (h : e.Conserves held e' held')
    {f : List Atom → CommandRun → Editor}
    (hf : ∀ branch run, e'.caret.branch? e'.root = some branch → run.start ≤ run.caret →
      run.caret ≤ run.stop → e.Conserves held (f branch run) held') :
    e.Conserves held (e'.onCommandRun e' f) held' := by
  unfold onCommandRun
  split
  · exact h
  · rename_i branch hb
    obtain ⟨hstart, hstop, -⟩ := CommandRun.bounds branch e'.caret.offset
    exact hf branch _ hb hstart hstop

theorem conserves_mapRun (h : e.Conserves held e' held')
    (hb : e'.caret.branch? e'.root = some branch) {start stop : Nat} (hle : start ≤ stop)
    (f : Marks → Marks) :
    e.Conserves held (e'.mapRun branch start stop fun a => a.mapMarks f) held' := by
  refine h.putSplice hle (by rw [hb, Option.getD_some]) fun i => ?_
  rw [weight_map _ fun a => weight_mapMarks rfl f a]

theorem conserves_decorateCommand (h : e.Conserves held e' held') (error : Bool) :
    e.Conserves held (e'.decorateCommand error) held' :=
  conserves_onCommandRun h fun _ _ hb hstart hstop =>
    conserves_mapRun h hb (Nat.le_trans hstart hstop) _

theorem conserves_commitCommand (h : e.Conserves held e' held') :
    e.Conserves held e'.commitCommand held' :=
  conserves_onCommandRun h fun _ _ hb hstart _ => conserves_mapRun h hb hstart _

theorem conserves_acceptSuggestion (h : e.Conserves held e' held') :
    e.Conserves held e'.acceptSuggestion held' :=
  conserves_onCommandRun h fun _ _ hb hstart hstop =>
    (conserves_mapRun h hb (Nat.le_trans hstart hstop) _).setCaret _

theorem slice_append_slice (atoms : List Atom) {start middle stop : Nat} (hs : start ≤ middle)
    (hm : middle ≤ stop) :
    slice atoms start middle ++ slice atoms middle stop = slice atoms start stop := by
  have hfirst : slice atoms start middle = (slice atoms start stop).take (middle - start) := by
    rw [slice, slice, ← List.drop_take, List.take_take, Nat.min_eq_left hm]
  have hsecond : slice atoms middle stop = (slice atoms start stop).drop (middle - start) := by
    rw [slice, slice, List.drop_drop, Nat.add_sub_cancel' hs]
  rw [hfirst, hsecond, List.take_append_drop]

theorem conserves_removeSuggestion (h : e.Conserves held e' held') :
    e.Conserves held e'.removeSuggestion held' := by
  refine conserves_onCommandRun h fun branch run hb hstart hstop => ?_
  refine (h.putSplice (Nat.le_trans hstart hstop) (by rw [hb, Option.getD_some])
    fun i => ?_).setCaret _
  refine Nat.add_le_add_right (weight_le_of_sublist _ ?_) _
  rw [← slice_append_slice branch hstart hstop]
  exact List.filter_sublist.append List.filter_sublist

theorem makes_newCommandChars (c : Scale) (text : List Char) (n : Nat) :
    c.Makes 0 n (weight c.label (newCommandChars text n).1) (newCommandChars text n).2 := by
  induction text generalizing n with
  | nil => exact Makes.refl
  | cons ch rest ih =>
      have hchar := makes_newLeaf c .command (some (String.singleton ch)) (some ch) n
      have hall := hchar.both (ih (n + 1))
      rw [← weight_cons] at hall
      exact hall

theorem conserves_insertSuggestion (h : e.Conserves held e' held') (text : List Char)
    (trim : Nat) : e.Conserves held (e'.insertSuggestion text trim) held' := by
  have hremoved := conserves_removeSuggestion h
  unfold insertSuggestion
  simp only
  refine conserves_onCommandRun hremoved fun branch run hb _ _ => ?_
  have hminted := hremoved.mintNew fun i =>
    makes_newCommandChars (only i) text e'.removeSuggestion.supply
  refine (hminted.putSplice (Nat.sub_le _ _) (by exact congrArg (Option.getD · []) hb)
    fun i => ?_).setCaret _
  have hmarked : weight (only i).label
      ((e'.removeSuggestion.mint (newCommandChars text)).1.map asSuggested) =
      weight (only i).label (newCommandChars text e'.removeSuggestion.supply).1 :=
    weight_map _ (fun a => weight_mapMarks rfl _ a) _
  rw [hmarked, weight_append]
  omega

theorem conserves_typeIntoCommand (h : e.Conserves held e' []) (c : Char) :
    e.Conserves held (e'.typeIntoCommand c) [] := by
  have hminted := (conserves_removeSelection h).mintNew (m := newCommandChar c)
    fun i => makes_newLeaf (only i) .command (some (String.singleton c)) (some c)
      e'.removeSelection.supply
  unfold typeIntoCommand insertAtCaret
  simp only
  split
  · exact hminted.keep (List.nil_sublist _)
  · rename_i branch hb
    exact (conserves_putInserted hminted hb).setCaret _

theorem conserves_removeCommand (h : e.Conserves held e' held') :
    e.Conserves held e'.removeCommand held' := by
  have hmode : e.Conserves held { e' with mode := .math } held' := h.of_eq rfl rfl
  unfold removeCommand
  simp only
  refine conserves_onCommandRun hmode fun branch run hb hstart hstop => ?_
  refine conserves_settleCaret (hmode.putSplice (Nat.le_trans hstart hstop)
    (by rw [hb, Option.getD_some]) fun i => ?_) _ _
  rw [weight_nil]
  omega

theorem conserves_completeCommand (h : e.Conserves held e' []) :
    e.Conserves held e'.completeCommand.state [] := by
  refine conserves_whenValid h ?_
  have hremoved := conserves_removeCommand (conserves_acceptSuggestion h)
  simp only
  split
  · exact hremoved
  · exact conserves_insert hremoved _ _

/-! ## All operations -/

theorem conserves_insertCommandChar (h : e.Conserves held e' []) (c : Char) :
    e.Conserves held (e'.insertCommandChar c).state [] :=
  conserves_whenValid h (conserves_typeIntoCommand h c)

theorem conserves_enterCommandMode (h : e.Conserves held e' []) :
    e.Conserves held e'.enterCommandMode.state [] :=
  conserves_whenValid h ((conserves_typeIntoCommand h '\\').of_eq rfl rfl)

theorem conserves_delete (h : e.Conserves held e' held') (d : Direction) (count : Nat) :
    e.Conserves held (e'.delete d count).state held' :=
  conserves_whenValid h (conserves_leaveEmptyCommand (conserves_deleteTimes h d count))

theorem conserves_selectAll (h : e.Conserves held e' held') :
    e.Conserves held e'.selectAll.state held' := by
  refine conserves_whenValid h ?_
  split
  · exact h.setCaret _
  · exact conserves_selectContent h

theorem conserves_selectGroup (h : e.Conserves held e' held') :
    e.Conserves held e'.selectGroup.state held' := by
  refine conserves_whenValid h ?_
  split
  · exact h
  · exact conserves_growSelection h _

/-- No command doubles an identity. -/
theorem conserves_applyTo (h : e.Conserves held e' []) (c : Command) :
    e.Conserves held (c.applyTo e').state [] := by
  cases c with
  | moveToNextChar => exact conserves_whenValid h (conserves_move h .forward)
  | moveToPreviousChar => exact conserves_whenValid h (conserves_move h .backward)
  | moveToNextPlaceholder => exact conserves_whenValid h (conserves_stepPlaceholder h .forward)
  | moveToPreviousPlaceholder =>
      exact conserves_whenValid h (conserves_stepPlaceholder h .backward)
  | moveToSuperscript => exact conserves_whenValid h (conserves_enterScript h .superscript)
  | moveToSubscript => exact conserves_whenValid h (conserves_enterScript h .subscript)
  | moveUp => exact conserves_whenValid h (conserves_moveTo? h _)
  | moveDown => exact conserves_whenValid h (conserves_moveTo? h _)
  | moveToGroupStart => exact conserves_whenValid h (h.setCaret _)
  | moveToGroupEnd => exact conserves_whenValid h (h.setCaret _)
  | moveToFieldStart => exact conserves_whenValid h (h.setCaret _)
  | moveToFieldEnd => exact conserves_whenValid h (h.setCaret _)
  | setRange anchor focus => exact conserves_select h anchor focus
  | selectAll => exact conserves_selectAll h
  | selectGroup => exact conserves_selectGroup h
  | extendToNextChar => exact conserves_whenValid h (conserves_extend h .forward)
  | extendToPreviousChar => exact conserves_whenValid h (conserves_extend h .backward)
  | insert text options => exact conserves_insert h text options
  | delete d count => exact conserves_delete h d count
  | promoteToSuperscript => exact conserves_whenValid h (conserves_promote h .superscript)
  | promoteToSubscript => exact conserves_whenValid h (conserves_promote h .subscript)
  | enterCommandMode => exact conserves_enterCommandMode h
  | completeCommand => exact conserves_completeCommand h
  | exitCommandMode => exact conserves_whenValid h (conserves_removeCommand h)
  | acceptSuggestion => exact conserves_acceptSuggestion h
  | insertSuggestion text trim => exact conserves_insertSuggestion h text.toList trim
  | removeSuggestion => exact conserves_removeSuggestion h
  | commitCommand => exact conserves_commitCommand h
  | decorateCommand error => exact conserves_decorateCommand h error
  | undo => exact h
  | redo => exact h
  | snapshot => exact h

/-! ## New content and layouts -/

/-- The old content gives way to atoms that are held. -/
theorem conserves_setAtoms (h : e.Conserves held e' atoms) :
    e.Conserves held (e'.setAtoms atoms) [] := by
  have hroot (i : Nat) : (only i).Makes (weight (only i).label atoms) e'.supply
      (weight (only i).label [(e'.setAtoms atoms).root]) (e'.setAtoms atoms).supply :=
    makes_newWrapper (only i) (rfl : Kind.shape .root = .sequence) none atoms e'.supply
  refine ⟨Nat.le_trans h.supply (hroot 0).le, fun i => ?_⟩
  have hbefore := h.count i
  have hmade := (hroot i).weight
  rw [weight_nil]
  omega

section

variable {c : Scale} (hc : c.error = 0)
include hc

theorem weight_clearTransientMarks (a : Atom) :
    weight c.label [a.clearTransientMarks] = weight c.label [a] :=
  weight_mapLabels (fun l => by simp [Scale.label, hc]) a

theorem weight_markSelected {start stop : Nat} (hle : start ≤ stop) (atoms : List Atom) :
    weight c.label (markSelected start stop atoms) = weight c.label atoms := by
  unfold markSelected
  split
  · have hsplice := weight_splice c.label atoms
      ((slice atoms start stop).map fun a => a.mark Marks.forSelected) hle
    have hmarked : weight c.label
        ((slice atoms start stop).map fun a => a.mark Marks.forSelected) =
        weight c.label (slice atoms start stop) :=
      weight_map _ (fun a => weight_mapMarks hc _ a) _
    omega
  · rfl

theorem weight_markFirst (atoms : List Atom) :
    weight c.label (markFirst atoms) = weight c.label atoms := by
  cases atoms with
  | nil => rfl
  | cons a rest =>
      have hmarked : weight c.label [a.mark Marks.forCaretBefore] = weight c.label [a] :=
        weight_mapMarks hc _ a
      rw [markFirst, weight_cons, hmarked, ← weight_cons]

theorem weight_markCaret_le (root : Atom) (p : Path) :
    weight c.label [markCaret root p] ≤ weight c.label [root] := by
  have hmark (marks : Marks) (a : Atom) : weight c.label [a.mark marks] ≤ weight c.label [a] :=
    Nat.le_of_eq (weight_mapMarks hc _ a)
  unfold markCaret
  split
  · exact weight_modifyAtom_le (k := 0) (hmark _) p root
  split
  · exact weight_modifyOwner_le (k := 0) (hmark _) p root
  · exact weight_modifyBranch_le (k := 0) (fun atoms => Nat.le_of_eq (weight_markFirst hc atoms))
      p root

end

/-- A layout changes marks only. -/
theorem conserves_layout (h : e.Conserves held e' held') (style : Typeset.Style) :
    e.Conserves held (e'.layout style).2 held' := by
  have hcleared : e.Conserves held (e'.withRoot e'.root.clearTransientMarks) held' :=
    h.withLighterRoot fun i => Nat.le_of_eq (weight_clearTransientMarks rfl e'.root)
  unfold layout prepareForLayout
  simp only
  split
  · exact hcleared
  · split
    · exact hcleared.withLighterRoot fun i => weight_markCaret_le rfl _ _
    · exact hcleared.withLighterRoot fun i => weight_modifyBranch_le (k := 0) (fun atoms =>
        Nat.le_of_eq (weight_markSelected rfl (startIndex_le_stopIndex _) atoms)) _ _

end FormulaEditor.Editor

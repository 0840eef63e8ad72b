import FormulaEditor.Proofs.Editor.Erasing
import FormulaEditor.Proofs.Editor.Operations
import FormulaEditor.Proofs.Formula.Consisting

/-!
# Operations and what a formula consists of

Moving about changes nothing but the selection. An edit takes atoms out of branches and puts them
into others, with placeholders where nothing is left, and with what was read for an insertion. So a
formula goes on consisting of what it consisted of, as long as this is so of what is inserted.
-/

namespace FormulaEditor

/-- Whether a command changes nothing but the selection. -/
def Command.isMovement : Command → Bool
  | moveToNextChar | moveToPreviousChar | moveToNextPlaceholder | moveToPreviousPlaceholder | moveUp
  | moveDown | moveToGroupStart | moveToGroupEnd | moveToFieldStart | moveToFieldEnd | setRange ..
  | selectAll | selectGroup | extendToNextChar | extendToPreviousChar => true
  | _ => false

namespace Editor

open Atom (ConsistsOf Items)

variable {e e' : Editor}

/-! ## Movements -/

theorem onlySelects_whenValid {operation : Editor → Outcome Editor Unit}
    (h : e.OnlySelects (operation e).state) : e.OnlySelects (e.whenValid operation).state := by
  unfold whenValid
  split
  · exact h
  · exact ⟨rfl, rfl⟩

/-- A movement changes nothing but the selection, whether or not it is refused. -/
theorem onlySelects_applyTo (e : Editor) {c : Command} (h : c.isMovement = true) :
    e.OnlySelects (c.applyTo e).state := by
  cases c with
  | moveToNextChar => exact onlySelects_whenValid (onlySelects_move e .forward)
  | moveToPreviousChar => exact onlySelects_whenValid (onlySelects_move e .backward)
  | moveToNextPlaceholder => exact onlySelects_whenValid (onlySelects_stepPlaceholder e .forward)
  | moveToPreviousPlaceholder => exact onlySelects_whenValid (onlySelects_stepPlaceholder e .backward)
  | moveUp => exact onlySelects_whenValid (onlySelects_moveTo? e _)
  | moveDown => exact onlySelects_whenValid (onlySelects_moveTo? e _)
  | moveToGroupStart | moveToGroupEnd | moveToFieldStart | moveToFieldEnd =>
      exact onlySelects_whenValid (onlySelects_setCaret e _)
  | setRange anchor focus => exact onlySelects_select e anchor focus
  | selectAll =>
      refine onlySelects_whenValid ?_
      split
      · exact onlySelects_setCaret e _
      · exact onlySelects_selectContent e
  | selectGroup =>
      refine onlySelects_whenValid ?_
      split
      · exact ⟨rfl, rfl⟩
      · exact onlySelects_growSelection e _
  | extendToNextChar => exact onlySelects_whenValid (onlySelects_extend e .forward)
  | extendToPreviousChar => exact onlySelects_whenValid (onlySelects_extend e .backward)
  | _ => cases h

/-! ## Opened branches -/

section

variable {P : Label → Prop} {root owner : Atom} {q : Path} {slot : Slot}
  {atoms content taken : List Atom} {offset : Int}

theorem Opened.consistsOf (h : e.Opened root q slot owner atoms content) (hr : root.ConsistsOf P)
    (hc : Items P content) : e.root.ConsistsOf P :=
  h.root_eq ▸ h.branch.consistsOf_fill hr hc

variable (hP : Label.Lasting P)

include hP in
/-- Settling an opened branch at most puts a placeholder there, or takes the branch away. -/
theorem Opened.consistsOf_settleCaret (h : e.Opened root q slot owner atoms content)
    (hr : root.ConsistsOf P) (hc : Items P content) (at' offset : Int) :
    (e.settleCaret (q.child slot at') offset).root.ConsistsOf P := by
  cases content with
  | cons a rest =>
      rw [settleCaret_of_ne_nil h.isBranch (List.cons_ne_nil a rest)]
      exact h.consistsOf hr hc
  | nil =>
      cases hs : slot.isOptional with
      | true =>
          rw [settleCaret_of_isOptional h.isBranch hs]
          obtain ⟨q', slot', i, owner', atoms', rfl, hb, hi, hroot⟩ := h.exists_removed hs
          have hitems := hb.items hr
          have howner := hitems owner (List.mem_of_getElem? hi)
          refine hroot ▸ hb.consistsOf_fill hr (Atom.forall_mem_set hitems ⟨?_, ?_⟩)
          · exact howner.1
          · exact howner.2.putBranch_none slot
      | false =>
          rw [settleCaret_of_not_isOptional h.isBranch hs]
          have hroot := h.refill_eq hs e.supply
          refine hroot ▸ h.branch.consistsOf_fill hr ?_
          split
          · exact Atom.items_placeholder hP _
          · exact Atom.items_nil

/-! ## Deletion -/

theorem mode_removeSelection (e : Editor) : e.removeSelection.mode = e.mode := by
  unfold removeSelection
  simp only
  split
  · rfl
  · rw [mode_settleCaret]
    split <;> rfl

theorem mode_removeAtom (e : Editor) (p : Path) : (e.removeAtom p).mode = e.mode := by
  unfold removeAtom
  split
  · rfl
  · exact mode_settleCaret ..

theorem mode_deleteAtBranchStart (e : Editor) (p : Path) :
    (e.deleteAtBranchStart p).mode = e.mode := by
  have hhoist (base : Path) (slot : Slot) : (e.hoistScript base slot).mode = e.mode := by
    unfold hoistScript
    split <;> rfl
  have hunwrap (p : Path) (slot : Slot) : (e.unwrapAtom p slot).mode = e.mode := by
    unfold unwrapAtom
    split
    · exact mode_settleCaret ..
    · rfl
  unfold deleteAtBranchStart
  simp only
  repeat' split
  all_goals first | exact hhoist .. | exact hunwrap .. | exact (onlySelects_stepCaret ..).mode_eq | rfl

theorem onlySelects_keepCaret (e : Editor) (p : Path) : e.OnlySelects (e.keepCaret p) := by
  unfold keepCaret
  split
  · split <;> exact ⟨rfl, rfl⟩
  · exact ⟨rfl, rfl⟩

theorem mode_deleteOnce (e : Editor) (d : Direction) : (e.deleteOnce d).mode = e.mode := by
  cases d with
  | backward =>
      show e.deleteBackward.mode = e.mode
      unfold deleteBackward
      repeat' split
      · exact mode_removeSelection e
      · exact mode_removeAtom ..
      · exact (onlySelects_stepCaret ..).mode_eq
      · exact mode_deleteAtBranchStart ..
  | forward =>
      show e.deleteForward.mode = e.mode
      unfold deleteForward
      simp only
      repeat' split
      · exact mode_removeSelection e
      · exact (onlySelects_keepCaret ..).mode_eq.trans (mode_removeAtom ..)
      · exact (onlySelects_stepCaret ..).mode_eq
      · exact (onlySelects_stepCaret ..).mode_eq
      · rfl

theorem mode_deleteTimes (d : Direction) (n : Nat) (e : Editor) :
    (deleteTimes d n e).mode = e.mode := by
  induction n generalizing e with
  | zero => rfl
  | succ n ih => exact (ih _).trans (mode_deleteOnce e d)

include hP

theorem Sound.consistsOf_removeSelection (h : e.Sound) (hr : e.root.ConsistsOf P) :
    e.removeSelection.root.ConsistsOf P := by
  unfold Editor.removeSelection
  simp only
  split
  · exact hr
  · obtain ⟨q, slot, owner, atoms, anchor, focus, hsel⟩ := h.exists_selectsIn
    obtain ⟨hstart, -, -, -⟩ := hsel.start_stop
    obtain ⟨-, hlen⟩ := hsel.startIndex_le
    have hopened := (h.opened hsel.branch).remove (min anchor focus) e.selection.startIndex
      e.selection.stopIndex
    simp only [hstart, hsel.branch.branch?, Option.getD_some, hlen, if_true]
    exact hopened.consistsOf_settleCaret hP hr
      ((hsel.branch.items hr).of_subset fun _ => mem_of_mem_splice_nil) _ _

theorem Sound.consistsOf_removeAtom (h : e.Sound) (hr : e.root.ConsistsOf P)
    (hb : IsBranch e.root q slot owner atoms) (i : Nat) :
    (e.removeAtom (q.child slot i)).root.ConsistsOf P := by
  rw [removeAtom_child]
  exact ((h.opened hb).removeAtom i).consistsOf_settleCaret hP hr
    ((hb.items hr).of_subset fun _ => List.mem_of_mem_eraseIdx) _ _

omit hP in
theorem Sound.consistsOf_hoistScript (h : e.Sound) (hr : e.root.ConsistsOf P)
    (hb : IsBranch e.root q slot owner atoms) (hs : slot.isScript = true) :
    (e.hoistScript q slot).root.ConsistsOf P := by
  have hopt := Slot.isOptional_of_isScript hs
  have hremove := Atom.removeBranch_of_isOptional owner hopt
  obtain ⟨q', slot', i, owner', atoms', rfl, hb', hi, hroot⟩ := (h.opened hb).exists_removed hopt
  have hitems := hb'.items hr
  have howner := hitems owner (List.mem_of_getElem? hi)
  have hset : Items P (atoms'.set i (owner.putBranch slot none)) :=
    Atom.forall_mem_set hitems ⟨howner.1, howner.2.putBranch_none slot⟩
  have hscript : Items P (withoutPlaceholders atoms) :=
    (hb.items hr).of_subset fun _ ha => (List.mem_filter.1 ha).1
  have hfilled := hb'.fill (atoms'.set i (owner.putBranch slot none))
  unfold Editor.hoistScript
  simp only [Path.index?_child, Step.index?_natCast, hb.atom?_eq, Option.bind_some, hremove,
    hb.branch_eq, Option.getD_some, hroot]
  show ((q'.child slot' i).modifyBranch _ _).ConsistsOf P
  rw [Path.modifyBranch_child hfilled, hb'.fill_fill]
  exact hb'.consistsOf_fill hr fun a ha => (mem_of_mem_splice ha).elim (hset a) (hscript a)

omit hP in
/-- What is unwrapped is no grid. -/
theorem not_isGridBody_of_isUnwrappedAt {a : Atom} (hu : isUnwrappedAt a slot = true)
    (hw : a.isWellFormed = true) (hb : a.branch slot = some atoms) (other : Slot) :
    isGridBody a.kind other = false := by
  have hallowed := (Atom.branchWellFormed hw hb).allowed
  unfold isUnwrappedAt at hu
  cases slot <;> cases hk : a.kind <;>
    simp_all [isGridBody, Kind.isGrid, Kind.allowsSlot, Kind.hasSlot, Kind.shape]

omit hP in
theorem items_contentOf {a : Atom} (ha : a.ConsistsOf P)
    (hg : ∀ slot, isGridBody a.kind slot = false) (slots : List Slot) :
    Items P (contentOf a slots) := by
  intro b hb
  obtain ⟨slot, -, hb⟩ := List.mem_flatMap.1 hb
  have hmem := (List.mem_filter.1 hb).1
  cases hs : a.branch slot with
  | none => simp [hs] at hmem
  | some atoms =>
      rw [hs, Option.getD_some] at hmem
      exact ha.items hs (hg slot) b hmem

theorem Sound.consistsOf_unwrapAtom (h : e.Sound) (hr : e.root.ConsistsOf P)
    (hb : IsBranch e.root q slot owner atoms) {i : Nat} {a : Atom} (hi : atoms[i]? = some a)
    (hg : ∀ slot, isGridBody a.kind slot = false) (inner : Slot) :
    (e.unwrapAtom (q.child slot i) inner).root.ConsistsOf P := by
  have hitems := hb.items hr
  have hmem := List.mem_of_getElem? hi
  have hwf := (hb.wellFormed h.isWellFormed).wellFormed
  have hcontent := items_contentOf (hitems a hmem).2 hg (unwrappedSlots a)
  have ha : (q.child slot i).atom? e.root = some a := by rw [hb.atom?, hi]
  have hopened := (h.opened hb).modifyBranch i
    (f := fun b => splice b i (i + 1) (contentOf a (unwrappedSlots a)))
    (isWellFormed_splice hwf (isWellFormed_contentOf (hwf a hmem) _))
  unfold Editor.unwrapAtom
  simp only [Path.index?_child, Step.index?_natCast, ha]
  exact hopened.consistsOf_settleCaret hP hr
    (fun b hb => (mem_of_mem_splice hb).elim (hitems b) (hcontent b)) _ _

theorem Sound.consistsOf_deleteOnce (h : e.Sound) (hr : e.root.ConsistsOf P) (d : Direction) :
    (e.deleteOnce d).root.ConsistsOf P := by
  have hd := h.deletesTo_deleteOnce d
  generalize e.deleteOnce d = e' at hd ⊢
  cases hd with
  | stays => exact hr
  | steps d => exact (onlySelects_stepCaret e d false).root_eq ▸ hr
  | removesSelection => exact h.consistsOf_removeSelection hP hr
  | removes hb => exact h.consistsOf_removeAtom hP hr hb _
  | removesNext hb =>
      rw [(onlySelects_keepCaret ..).root_eq]
      exact h.consistsOf_removeAtom hP hr hb _
  | hoists hb hs => exact h.consistsOf_hoistScript hr hb hs
  | unwraps hb hi hc hu =>
      have ha := (hb.wellFormed h.isWellFormed).wellFormed _ (List.mem_of_getElem? hi)
      exact h.consistsOf_unwrapAtom hP hr hb hi (not_isGridBody_of_isUnwrappedAt hu ha hc) _

theorem Sound.consistsOf_deleteTimes (h : e.Sound) (hr : e.root.ConsistsOf P) (d : Direction)
    (n : Nat) : (Editor.deleteTimes d n e).root.ConsistsOf P := by
  induction n generalizing e with
  | zero => exact hr
  | succ n ih => exact ih (h.deleteOnce d) (h.consistsOf_deleteOnce hP hr d)

/-! ## Insertion -/

omit hP in
theorem items_withInserted {inserted : List Atom} (hc : Items P content) (hi : Items P inserted)
    (p : Path) : Items P (withInserted content p inserted) := by
  have hpoint : Items P (insertionPoint p content).2 := by
    unfold insertionPoint
    split
    · exact Atom.items_nil
    · exact hc
  exact fun a ha => (mem_of_mem_splice ha).elim (hpoint a) (hi a)

theorem OpenedAtCaret.consistsOf_insertAtoms
    (h : e.OpenedAtCaret root q slot owner atoms content offset) (hr : root.ConsistsOf P)
    {inserted : List Atom} (hwf : ∀ a ∈ inserted, a.isWellFormed = true) (hc : Items P content)
    (hi : Items P inserted) (mode : SelectionMode) :
    (e.insertAtoms inserted mode).state.root.ConsistsOf P := by
  by_cases hne : inserted = []
  · subst hne
    simp only [Editor.insertAtoms, h.caret_eq, h.branch?, List.isEmpty_nil, if_true]
    exact h.toOpened.consistsOf_settleCaret hP hr hc _ _
  · rw [h.root_insertAtoms hwf hne]
    exact h.branch.consistsOf_fill hr (items_withInserted hc hi _)

end

/-- Inserting the text puts items with the property `P` into a formula that consists of such. -/
def Yields (P : Label → Prop) (text : String) (format : InsertFormat) : Prop :=
  ∀ (e : Editor) (args : List (List Atom)), e.root.ConsistsOf P → (∀ atoms ∈ args, Items P atoms) →
    Items P (e.textAtoms text format (if e.inText then .text else .math) args).1

section

variable {P : Label → Prop} {root owner : Atom} {q : Path} {slot : Slot} {atoms : List Atom}
  {base : Path} (hP : Label.Lasting P)

include hP

theorem Sound.consistsOf_insert (h : e.Sound) (hr : e.root.ConsistsOf P) {text : String}
    {options : InsertOptions} (hy : Yields P text options.format) :
    (e.insert text options).state.root.ConsistsOf P := by
  obtain ⟨q, slot, owner, atoms, content, offset, htaken⟩ := h.takeArgument text
  have hitems := htaken.branch.items hr
  have hcontent := hitems.of_subset htaken.left
  have hargs : ∀ atoms ∈ [(e.takeArgument text).1], Items P atoms := fun atoms ha =>
    List.mem_singleton.1 ha ▸ hitems.of_subset htaken.taken
  have hread := hy (e.takeArgument text).2 _ (htaken.toOpened.consistsOf hr hcontent) hargs
  have hwell : ∀ atoms ∈ [(e.takeArgument text).1], ∀ a ∈ atoms, a.isWellFormed = true := by
    simpa using htaken.wellFormed_taken
  have hreads := readsInto_textAtoms (e := (e.takeArgument text).2)
    (Latex.isWellFormed_parseFragment hwell) (fun _ => id) text options.format
    (if (e.takeArgument text).2.inText then .text else .math)
  unfold Editor.insert
  rw [h.whenValid]
  exact (htaken.toOpenedAtCaret.of_eq hreads.root_eq hreads.selection_eq).consistsOf_insertAtoms hP hr
    hreads.forall_mem hcontent hread options.selectionMode

/-! ## Scripts -/

omit hP in
theorem mode_enterScript (e : Editor) (slot : Slot) : (e.enterScript slot).state.mode = e.mode := by
  have hbase (e : Editor) (p : Path) : (e.scriptBase p).2.mode = e.mode := by
    unfold scriptBase
    split
    · rfl
    split
    · rfl
    · split <;> rfl
  have hensure : ((((e.collapse .forward).scriptBase (e.collapse .forward).caret).2.ensureScript
      ((e.collapse .forward).scriptBase (e.collapse .forward).caret).1 slot)).2.mode = e.mode :=
    (hbase ..).trans (onlySelects_collapse ..).mode_eq
  unfold enterScript
  simp only
  split <;> rename_i heq <;> rw [heq] at hensure <;> exact hensure

omit hP in
theorem mode_promote (e : Editor) (slot : Slot) : (e.promote slot).state.mode = e.mode := by
  have htake (branch : List Atom) : (e.takeForScript branch).2.mode = e.mode := by
    unfold takeForScript
    simp only
    split <;> rfl
  unfold promote
  split
  · exact mode_enterScript e slot
  · simp only
    split
    · rfl
    · rename_i branch _
      have hensure : ((e.takeForScript branch).2.ensureScript (e.takeForScript branch).1 slot).2.mode =
          e.mode := htake branch
      split <;> rename_i heq <;> rw [heq] at hensure <;> exact hensure

theorem Opened.consistsOf_putPlaceholder {content : List Atom}
    (h : e.Opened root q slot owner atoms content) (hr : root.ConsistsOf P) (hc : Items P content)
    (offset : Int) (start stop : Nat) :
    ((e.mint Atom.newPlaceholder).2.putBranch (q.child slot offset)
      (splice content start stop [Atom.placeholder e.supply])).root.ConsistsOf P :=
  (h.putPlaceholder offset start stop).consistsOf hr fun a ha =>
    (mem_of_mem_splice ha).elim (hc a) (Atom.items_placeholder hP e.supply a)

theorem Sound.consistsOf_scriptBase (h : e.Sound) (hr : e.root.ConsistsOf P) :
    (e.scriptBase e.caret).2.root.ConsistsOf P := by
  obtain ⟨q, slot, offset, owner, atoms, hp, hb, ho⟩ := h.caret
  rw [hp]
  rcases scriptBase_cases hb ho with ⟨_, _, -, -, heq⟩ | ⟨i, -, heq⟩
  · rw [heq]
    exact hr
  · rw [heq]
    exact (h.opened hb).consistsOf_putPlaceholder hP hr (hb.items hr) _ _ _

theorem HasBase.consistsOf_ensureScript (h : e.HasBase base) (hr : e.root.ConsistsOf P)
    (hs : slot.isScript = true) : (e.ensureScript base slot).2.root.ConsistsOf P := by
  obtain ⟨q, slot', owner, atoms, a, i, rfl, hb, hi, hk⟩ := h.exists_base
  have hitems := hb.items hr
  obtain ⟨hitem, ha⟩ := hitems a (List.mem_of_getElem? hi)
  have hensured : (a.ensureBranch slot e.supply).ConsistsOf P ∧
      (a.ensureBranch slot e.supply).kind = a.kind := by
    rw [Atom.ensureBranch_of_isScript hs hk]
    split
    · exact ⟨ha.putBranch ((Atom.items_placeholder hP _).fits (Atom.isGridBody_of_isScript _ hs)), rfl⟩
    · exact ⟨ha, rfl⟩
  show ((q.child slot' i).modifyAtom (fun a => a.ensureBranch slot e.supply) e.root).ConsistsOf P
  rw [Path.modifyAtom_child hb hi]
  exact hb.consistsOf_fill hr (Atom.forall_mem_set hitems ⟨hensured.2 ▸ hitem, hensured.1⟩)

theorem Sound.consistsOf_enterScript (h : e.Sound) (hr : e.root.ConsistsOf P)
    (hs : slot.isScript = true) : (e.enterScript slot).state.root.ConsistsOf P := by
  have hcollapsed : (e.collapse .forward).root.ConsistsOf P :=
    (onlySelects_collapse e .forward).root_eq ▸ hr
  have hbase := (h.collapse .forward).hasBase_scriptBase
  obtain ⟨script, e', a, hensure, -⟩ := hbase.ensureScript hs
  have hensured := hbase.consistsOf_ensureScript hP
    ((h.collapse .forward).consistsOf_scriptBase hP hcollapsed) hs
  rw [hensure] at hensured
  unfold Editor.enterScript
  simp only [hensure]
  exact hensured

theorem Sound.consistsOf_takeForScript (h : e.Sound) (hr : e.root.ConsistsOf P)
    {anchor focus : Int} (hsel : e.SelectsIn q slot owner atoms anchor focus) :
    (e.takeForScript atoms).2.root.ConsistsOf P := by
  have hopened := h.opened hsel.branch
  have hitems := hsel.branch.items hr
  rcases hsel.takeForScript_cases with ⟨_, _, -, -, heq⟩ | ⟨-, heq⟩
  · rw [heq]
    exact (hopened.remove _ _ _).consistsOf hr (hitems.of_subset fun _ => mem_of_mem_splice_nil)
  · rw [heq]
    exact hopened.consistsOf_putPlaceholder hP hr hitems _ _ _

theorem Sound.consistsOf_promote (h : e.Sound) (hr : e.root.ConsistsOf P)
    (hs : slot.isScript = true) : (e.promote slot).state.root.ConsistsOf P := by
  unfold Editor.promote
  split
  · exact h.consistsOf_enterScript hP hr hs
  · obtain ⟨q, slot', owner, atoms, anchor, focus, hsel⟩ := h.exists_selectsIn
    obtain ⟨hstart, -, -, -⟩ := hsel.start_stop
    have hbase := h.hasBase_takeForScript hsel
    obtain ⟨script, e', a, hensure, hk, hw, hb⟩ := hbase.ensureScript hs
    have hensured := hbase.consistsOf_ensureScript hP (h.consistsOf_takeForScript hP hr hsel) hs
    have hmoved : Items P (slice atoms e.selection.startIndex e.selection.stopIndex) :=
      (hsel.branch.items hr).of_subset fun _ => mem_of_mem_slice
    rw [hensure] at hensured
    simp only [hstart, hsel.branch.branch?, hensure]
    generalize hcontent : (if isPlaceholderOnly script then
      slice atoms e.selection.startIndex e.selection.stopIndex
      else script ++ slice atoms e.selection.startIndex e.selection.stopIndex) = content
    have hitems : Items P content := by
      rw [← hcontent]
      split
      · exact hmoved
      · exact Atom.items_append (hb.items hensured) hmoved
    show (((e.takeForScript atoms).1.child slot (lastOffset content)).putBranch content
      e'.root).ConsistsOf P
    rw [Path.putBranch_child hb]
    exact hb.consistsOf_fill hensured hitems

end

/-! ## Editing a formula -/

/-- A formula is being edited, and consists of what has the property `P`. -/
structure InMath (P : Label → Prop) (e : Editor) : Prop where
  sound : e.Sound
  consistsOf : e.root.ConsistsOf P
  mode_eq : e.mode = .math

end Editor

/-- Whether a command keeps what a formula consists of: one that edits it and leaves the mode as it is.
-/
def Command.Keeps (P : Label → Prop) : Command → Prop
  | insert text options => Editor.Yields P text options.format
  | delete .. | promoteToSuperscript | promoteToSubscript | moveToSuperscript | moveToSubscript => True
  | c => c.isMovement = true ∧ c.isSetRange = false

namespace Editor

variable {P : Label → Prop} {e e' : Editor}

theorem InMath.of_eq (h : e.InMath P) (hr : e'.root = e.root) (hs : e'.selection = e.selection)
    (hm : e'.mode = e.mode) : e'.InMath P :=
  ⟨h.sound.of_eq hr hs, hr ▸ h.consistsOf, hm.trans h.mode_eq⟩

theorem InMath.onlySelects (h : e.InMath P) (ho : e.OnlySelects e') (hs : e'.Sound) : e'.InMath P :=
  ⟨hs, ho.root_eq ▸ h.consistsOf, ho.mode_eq.trans h.mode_eq⟩

theorem InMath.enterScript (hP : Label.Lasting P) (h : e.InMath P) {slot : Slot}
    (hs : slot.isScript = true) : (e.enterScript slot).state.InMath P :=
  ⟨(h.sound.enterScript hs).2, h.sound.consistsOf_enterScript hP h.consistsOf hs,
    (mode_enterScript e slot).trans h.mode_eq⟩

theorem InMath.promote (hP : Label.Lasting P) (h : e.InMath P) {slot : Slot}
    (hs : slot.isScript = true) : (e.promote slot).state.InMath P :=
  ⟨(h.sound.promote hs).2, h.sound.consistsOf_promote hP h.consistsOf hs,
    (mode_promote e slot).trans h.mode_eq⟩

theorem InMath.insert (hP : Label.Lasting P) (h : e.InMath P) {text : String}
    {options : InsertOptions} (hy : Yields P text options.format) :
    (e.insert text options).state.InMath P :=
  ⟨(h.sound.insert text options).2, h.sound.consistsOf_insert hP h.consistsOf hy,
    (mode_insert e text options).trans h.mode_eq⟩

theorem InMath.delete (hP : Label.Lasting P) (h : e.InMath P) (d : Direction) (count : Nat) :
    (e.delete d count).state.InMath P := by
  have hmode := (mode_deleteTimes d count e).trans h.mode_eq
  have hleft : (deleteTimes d count e).leaveEmptyCommand = deleteTimes d count e := by
    simp [leaveEmptyCommand, hmode]
  unfold Editor.delete
  rw [h.sound.whenValid, Outcome.state_done, hleft]
  exact ⟨h.sound.deleteTimes d count, h.sound.consistsOf_deleteTimes hP h.consistsOf d count, hmode⟩

/-- A formula that is edited goes on consisting of what it consisted of. -/
theorem InMath.applyTo (hP : Label.Lasting P) (h : e.InMath P) {c : Command} (hc : c.Keeps P) :
    (c.applyTo e).state.InMath P := by
  have hmove (hm : c.isMovement = true ∧ c.isSetRange = false) : (c.applyTo e).state.InMath P := by
    refine h.onlySelects (onlySelects_applyTo e hm.1) (h.sound.applyTo hm.2 ?_).2
    cases c <;> first | rfl | cases hm.1
  have hscript {operation : Editor → Outcome Editor Unit} (ho : (operation e).state.InMath P) :
      (e.whenValid operation).state.InMath P := by
    rwa [h.sound.whenValid]
  cases c with
  | insert text options => exact h.insert hP hc
  | delete d count => exact h.delete hP d count
  | promoteToSuperscript => exact hscript (h.promote hP rfl)
  | promoteToSubscript => exact hscript (h.promote hP rfl)
  | moveToSuperscript => exact hscript (h.enterScript hP rfl)
  | moveToSubscript => exact hscript (h.enterScript hP rfl)
  | _ => exact hmove hc

end Editor

end FormulaEditor

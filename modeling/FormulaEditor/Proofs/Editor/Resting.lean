import FormulaEditor.Field.Command
import FormulaEditor.Proofs.Editor.Navigation
import FormulaEditor.Proofs.Editor.Scripting
import FormulaEditor.Proofs.Editor.Selecting

/-!
# Where the caret rests

A caret that rests at a stop moves on to the next one. The caret of a sound editor is at a position,
which is a stop unless it lies behind a placeholder that is all its branch holds; from there a step
leads to the first stop of the formula. Edits can leave the caret behind a lone placeholder, but every
movement leads it to a stop.
-/

namespace FormulaEditor

/-- Whether a command moves the caret, wherever it is, and leaves no selection. -/
def Command.movesCaret : Command → Bool
  | moveToNextChar | moveToPreviousChar | moveToSuperscript | moveToSubscript
  | moveToGroupStart | moveToGroupEnd | moveToFieldStart | moveToFieldEnd => true
  | _ => false

namespace Editor

/-- There is no selection, and the caret is at a stop. -/
structure AtStop (e : Editor) : Prop where
  isCollapsed : e.selection.isCollapsed = true
  mem_caretStops : e.caret ∈ e.root.caretStops

variable {e : Editor}

/-- The caret is at a stop unless it is behind a lone placeholder. -/
theorem Sound.caret_mem_caretStops_iff (h : e.Sound) :
    e.caret ∈ e.root.caretStops ↔ isBehindLonePlaceholder e.root e.caret = false := by
  rw [mem_caretStops_iff h.isWellFormed]
  exact and_iff_right h.caret

theorem atStop_setCaret {p : Path} (hp : p ∈ e.root.caretStops) : (e.setCaret p).AtStop :=
  ⟨beq_self_eq_true p, hp⟩

theorem AtStop.of_eq {e' : Editor} (h : e.AtStop) (hr : e'.root = e.root)
    (hs : e'.selection = e.selection) : e'.AtStop :=
  ⟨hs ▸ h.isCollapsed, by
    have hmem := h.mem_caretStops
    rw [caret] at hmem ⊢
    rwa [hr, hs]⟩

/-! ## Steps -/

theorem Sound.caretStops_ne_nil (h : e.Sound) : e.root.caretStops ≠ [] :=
  List.ne_nil_of_mem (h.rootBranch.leadingGap_mem_caretStops h.isWellFormed)

/-- A step from a caret that is at no stop leads to the first stop. -/
theorem stepCaret_of_not_mem (h : e.caret ∉ e.root.caretStops) (d : Direction) (wrap : Bool) :
    e.stepCaret d wrap = e.moveTo? e.root.caretStops.head? := by
  have hnone : e.root.caretStops.findIdx? (· == e.caret) = none := by
    rw [List.findIdx?_eq_none_iff]
    intro p hp
    rw [beq_eq_false_iff_ne]
    rintro rfl
    exact h hp
  simp only [stepCaret, hnone]

/-- A step leads to a stop, or stays at one. -/
theorem Sound.atStop_stepCaret (h : e.Sound) (hc : e.selection.isCollapsed = true) (d : Direction)
    (wrap : Bool) : (e.stepCaret d wrap).AtStop := by
  unfold Editor.stepCaret
  simp only
  split
  · obtain ⟨p, hp⟩ := Option.isSome_iff_exists.1 (List.isSome_head?.2 h.caretStops_ne_nil)
    rw [hp]
    exact atStop_setCaret (List.mem_of_head? hp)
  · rename_i i hi
    have hstay : e.AtStop := by
      refine ⟨hc, ?_⟩
      obtain ⟨hlt, hget, -⟩ := List.findIdx?_eq_some_iff_getElem.1 hi
      rw [← beq_iff_eq.1 hget]
      exact List.getElem_mem hlt
    split
    · rename_i p hp
      exact atStop_setCaret (mem_of_neighbour? hp)
    · split
      · split
        · cases hw : wrapped? d e.root.caretStops with
          | none => exact hstay.of_eq rfl rfl
          | some p => exact atStop_setCaret (e := (e.ask d).2) (mem_of_wrapped? hw)
        · exact hstay.of_eq rfl rfl
      · exact hstay

/-! ## Collapsing -/

/-- The leading gap takes the place of a position behind a lone placeholder. -/
theorem isBehindLonePlaceholder_led (root : Atom) (p : Path) :
    isBehindLonePlaceholder root
      (if (p.branch? root).any isPlaceholderOnly then p.withOffset leadingGap else p) = false := by
  unfold isBehindLonePlaceholder
  split
  · cases hp : p.isRoot with
    | true =>
        rw [Path.eq_root_of_isRoot hp]
        rfl
    | false =>
        obtain ⟨q, slot, offset, rfl⟩ := Path.exists_child hp
        simp
  · rename_i hfree
    rw [Bool.not_eq_true] at hfree
    rw [hfree, Bool.and_false]

/-- An end of a selection is a stop, or else the leading gap takes its place. -/
theorem Sound.edge_mem_caretStops (h : e.Sound) (d : Direction) :
    e.edge d ∈ e.root.caretStops :=
  (mem_caretStops_iff h.isWellFormed).2 ⟨h.placed.isPosition_edge d, isBehindLonePlaceholder_led _ _⟩

theorem Sound.atStop_move (h : e.Sound) (d : Direction) : (e.move d).AtStop := by
  unfold Editor.move Editor.collapse
  split
  · rename_i hc
    exact h.atStop_stepCaret hc d true
  · exact atStop_setCaret (h.edge_mem_caretStops d)

/-! ## Ends and scripts -/

theorem Sound.atStop_enterScript (h : e.Sound) {slot : Slot} (hs : slot.isScript = true) :
    (e.enterScript slot).state.AtStop := by
  obtain ⟨script, e', a, hensure, hk, hw, hb⟩ :=
    (h.collapse .forward).hasBase_scriptBase.ensureScript hs
  unfold Editor.enterScript
  simp only [hensure]
  exact atStop_setCaret (hb.lastOffset_mem_caretStops hw)

theorem Sound.atStop_branchStart (h : e.Sound) :
    (e.setCaret (e.caret.withOffset leadingGap)).AtStop := by
  obtain ⟨q, slot, offset, owner, atoms, hp, hb, ho⟩ := h.caret
  rw [hp, Path.withOffset_child]
  exact atStop_setCaret (hb.leadingGap_mem_caretStops h.isWellFormed)

theorem Sound.atStop_branchEnd (h : e.Sound) : (e.setCaret (e.branchEnd e.caret)).AtStop := by
  obtain ⟨q, slot, offset, owner, atoms, hp, hb, ho⟩ := h.caret
  rw [hp, branchEnd, hb.branch?, Path.withOffset_child]
  exact atStop_setCaret (hb.lastOffset_mem_caretStops h.isWellFormed)

/-- Every movement leads the caret to a stop. -/
theorem Sound.atStop_applyTo (h : e.Sound) {c : Command} (hc : c.movesCaret = true) :
    (c.applyTo e).state.AtStop := by
  cases c with
  | moveToNextChar =>
      have hdone := h.atStop_move .forward
      rwa [Command.applyTo, Editor.moveToNext, h.whenValid]
  | moveToPreviousChar =>
      have hdone := h.atStop_move .backward
      rwa [Command.applyTo, Editor.moveToPrevious, h.whenValid]
  | moveToSuperscript =>
      rw [Command.applyTo, Editor.moveToSuperscript, h.whenValid]
      exact h.atStop_enterScript rfl
  | moveToSubscript =>
      rw [Command.applyTo, Editor.moveToSubscript, h.whenValid]
      exact h.atStop_enterScript rfl
  | moveToGroupStart =>
      rw [Command.applyTo, Editor.moveToGroupStart, h.whenValid]
      exact h.atStop_branchStart
  | moveToGroupEnd =>
      rw [Command.applyTo, Editor.moveToGroupEnd, h.whenValid]
      exact h.atStop_branchEnd
  | moveToFieldStart =>
      rw [Command.applyTo, Editor.moveToFieldStart, h.whenValid]
      exact atStop_setCaret (h.rootBranch.leadingGap_mem_caretStops h.isWellFormed)
  | moveToFieldEnd =>
      rw [Command.applyTo, Editor.moveToFieldEnd, h.whenValid]
      exact atStop_setCaret (h.rootBranch.lastOffset_mem_caretStops h.isWellFormed)
  | _ => cases hc

/-- The first stop of a formula is the gap before everything else. -/
theorem Sound.head?_caretStops (h : e.Sound) :
    e.root.caretStops.head? = some (Path.inRoot leadingGap) := by
  obtain ⟨-, hbody, hgrid⟩ := h.rootBranch
  generalize e.root.body = atoms at hbody
  generalize e.root = root at hbody hgrid ⊢
  obtain ⟨label, body, sup, sub, numerator, denominator, index, radicand⟩ := root
  cases hbody
  replace hgrid : isGridBody label.kind .body = false := hgrid
  simp [Atom.caretStops, Atom.stops, Atom.stopsInside, branchStops, CaretStop.caret?, Path.inRoot,
    hgrid]

/-- From behind a lone placeholder a step in either direction leads to the start of the formula. -/
theorem Sound.move_of_isBehindLonePlaceholder (h : e.Sound) (hc : e.selection.isCollapsed = true)
    (hb : isBehindLonePlaceholder e.root e.caret = true) (d : Direction) :
    e.move d = e.setCaret (Path.inRoot leadingGap) := by
  have hmem : e.caret ∉ e.root.caretStops := by
    rw [h.caret_mem_caretStops_iff, hb]
    exact Bool.noConfusion
  rw [Editor.move, if_pos hc, stepCaret_of_not_mem hmem, h.head?_caretStops]
  rfl

/-- Putting the caret at a position leads to a stop of its branch. -/
theorem Sound.atStop_select (h : e.Sound) {p : Path} (hp : IsPosition e.root p) :
    (e.select p p).state.AtStop := by
  have hposition : e.isPosition p = true := (e.isPosition_iff p).2 hp
  obtain ⟨q, slot, offset, owner, atoms, rfl, hb, ho⟩ := hp
  have hsame : (q.child slot offset).sameBranch (q.child slot offset) = true :=
    (Path.sameBranch_child ..).2 ⟨rfl, rfl⟩
  unfold Editor.select
  simp only [hposition, hsame, hb.branch?, Bool.not_true, Bool.false_eq_true, if_false, if_true,
    decide_true, Bool.true_and, Option.any_some, Path.withOffset_child]
  split
  · exact atStop_setCaret (hb.leadingGap_mem_caretStops h.isWellFormed)
  · rename_i hlone
    refine atStop_setCaret ((mem_caretStops_iff h.isWellFormed).2 ⟨hb.isPosition ho, ?_⟩)
    rw [← Bool.not_eq_true, hb.isBehindLonePlaceholder_iff]
    exact fun hbehind => hlone hbehind.2

end Editor

end FormulaEditor

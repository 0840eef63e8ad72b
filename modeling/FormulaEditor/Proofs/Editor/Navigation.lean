import FormulaEditor.Editor.Movement
import FormulaEditor.Proofs.Editor.Placed
import FormulaEditor.Proofs.Editor.Stops

/-!
# Movement keeps an editor placed

A movement changes nothing but the selection. Where the caret goes is a stop, an end of its branch or
of the formula, or the end of a neighbouring branch, and each of these is a position. So a movement
keeps an editor placed, and sound if it was sound.
-/

namespace FormulaEditor.Editor

variable {e : Editor}

theorem Placed.ask (h : e.Placed) (d : Direction) : (e.ask d).2.Placed :=
  h.of_eq rfl rfl

theorem Placed.moveTo? (h : e.Placed) {p? : Option Path}
    (hp : ∀ p, p? = some p → IsPosition e.root p) : (e.moveTo? p?).Placed := by
  cases p? with
  | none => exact h
  | some p => exact h.setCaret (hp p rfl)

/-! ## Steps -/

theorem mem_of_neighbour? {d : Direction} {stops : List Path} {i : Nat} {p : Path}
    (h : neighbour? d stops i = some p) : p ∈ stops := by
  cases d with
  | forward => exact List.mem_of_getElem? h
  | backward =>
      simp only [neighbour?] at h
      split at h
      · cases h
      · exact List.mem_of_getElem? h

theorem mem_of_wrapped? {d : Direction} {stops : List Path} {p : Path}
    (h : wrapped? d stops = some p) : p ∈ stops := by
  cases d with
  | forward => exact List.mem_of_head? h
  | backward => exact List.mem_of_getLast? h

theorem Placed.stepCaret (h : e.Placed) (d : Direction) (wrap : Bool) :
    (e.stepCaret d wrap).Placed := by
  unfold Editor.stepCaret
  simp only
  split
  · exact h.moveTo? fun p hp => isPosition_of_mem_caretStops (List.mem_of_head? hp)
  · split
    · rename_i p hp
      exact h.setCaret (isPosition_of_mem_caretStops (mem_of_neighbour? hp))
    · split
      · split
        · exact (h.ask d).moveTo? fun p hp => isPosition_of_mem_caretStops (mem_of_wrapped? hp)
        · exact h.ask d
      · exact h

theorem onlySelects_moveTo? (e : Editor) (p? : Option Path) : e.OnlySelects (e.moveTo? p?) := by
  cases p? <;> exact ⟨rfl, rfl⟩

theorem onlySelects_stepCaret (e : Editor) (d : Direction) (wrap : Bool) :
    e.OnlySelects (e.stepCaret d wrap) := by
  unfold stepCaret
  simp only
  split
  · exact onlySelects_moveTo? e _
  split
  · exact ⟨rfl, rfl⟩
  split
  · split
    · exact (onlySelects_moveTo? (e.ask d).2 _).of_eq rfl rfl
    · exact ⟨rfl, rfl⟩
  · exact ⟨rfl, rfl⟩

theorem Sound.stepCaret (h : e.Sound) (d : Direction) (wrap : Bool) :
    (e.stepCaret d wrap).Sound :=
  h.onlySelects (onlySelects_stepCaret e d wrap) (h.placed.stepCaret d wrap)

/-! ## Collapsing -/

theorem Placed.isPosition_edge (h : e.Placed) (d : Direction) : IsPosition e.root (e.edge d) := by
  obtain ⟨q, slot, owner, atoms, anchor, focus, hsel⟩ := h.exists_selectsIn
  obtain ⟨hstart, hstop, hmin, hmax⟩ := hsel.start_stop
  have hedge (offset : Int) (ho : IsOffset atoms offset) :
      IsPosition e.root (if ((q.child slot offset).branch? e.root).any isPlaceholderOnly then
        (q.child slot offset).withOffset leadingGap else q.child slot offset) := by
    split
    · rw [Path.withOffset_child]
      exact hsel.branch.isPosition (isOffset_leadingGap atoms)
    · exact hsel.branch.isPosition ho
  cases d with
  | forward =>
      simp only [edge, hstop]
      exact hedge _ hmax
  | backward =>
      simp only [edge, hstart]
      exact hedge _ hmin

theorem Placed.collapse (h : e.Placed) (d : Direction) : (e.collapse d).Placed := by
  unfold Editor.collapse
  split
  · exact h
  · exact h.setCaret (h.isPosition_edge d)

theorem onlySelects_collapse (e : Editor) (d : Direction) : e.OnlySelects (e.collapse d) := by
  unfold collapse
  split <;> exact ⟨rfl, rfl⟩

theorem Sound.collapse (h : e.Sound) (d : Direction) : (e.collapse d).Sound :=
  h.onlySelects (onlySelects_collapse e d) (h.placed.collapse d)

theorem Placed.move (h : e.Placed) (d : Direction) : (e.move d).Placed := by
  unfold Editor.move
  split
  · exact h.stepCaret d true
  · exact h.collapse d

theorem onlySelects_move (e : Editor) (d : Direction) : e.OnlySelects (e.move d) := by
  unfold move
  split
  · exact onlySelects_stepCaret e d true
  · exact onlySelects_collapse e d

theorem Sound.move (h : e.Sound) (d : Direction) : (e.move d).Sound :=
  h.onlySelects (onlySelects_move e d) (h.placed.move d)

/-! ## Placeholders -/

theorem exists_of_findSome? {stops : List CaretStop} {p : Path}
    (h : stops.findSome? CaretStop.placeholder? = some p) :
    ∃ s ∈ stops, s.placeholder? = some p :=
  List.exists_of_findSome?_eq_some h

theorem exists_of_nextPlaceholder? {d : Direction} {stops : List CaretStop} {i : Nat} {p : Path}
    (h : nextPlaceholder? d stops i = some p) : ∃ s ∈ stops, s.placeholder? = some p := by
  cases d with
  | forward =>
      obtain ⟨s, hs, hp⟩ := exists_of_findSome? h
      exact ⟨s, List.mem_of_mem_drop hs, hp⟩
  | backward =>
      obtain ⟨s, hs, hp⟩ := exists_of_findSome? h
      exact ⟨s, List.mem_of_mem_take (List.mem_reverse.1 hs), hp⟩

theorem exists_of_outermostPlaceholder? {d : Direction} {stops : List CaretStop} {p : Path}
    (h : outermostPlaceholder? d stops = some p) : ∃ s ∈ stops, s.placeholder? = some p := by
  cases d with
  | forward => exact exists_of_findSome? h
  | backward =>
      obtain ⟨s, hs, hp⟩ := exists_of_findSome? h
      exact ⟨s, List.mem_reverse.1 hs, hp⟩

theorem Placed.stepPlaceholder (h : e.Placed) (d : Direction) : (e.stepPlaceholder d).Placed := by
  have hat {p : Path} (hp : ∃ s ∈ e.root.stops, s.placeholder? = some p) :
      IsAtomPosition e.root p := by
    obtain ⟨s, hs, hp⟩ := hp
    exact isAtomPosition_of_placeholder? hs hp
  unfold Editor.stepPlaceholder
  simp only
  split
  · rename_i p hp
    obtain ⟨i, -, hi⟩ := Option.bind_eq_some_iff.1 hp
    exact h.selectAtom (hat (exists_of_nextPlaceholder? hi))
  · split
    · cases ho : outermostPlaceholder? d e.root.stops with
      | none => exact h.ask d
      | some p => exact (h.ask d).selectAtom (hat (exists_of_outermostPlaceholder? ho))
    · exact h.ask d

theorem onlySelects_stepPlaceholder (e : Editor) (d : Direction) :
    e.OnlySelects (e.stepPlaceholder d) := by
  unfold stepPlaceholder
  simp only
  split
  · exact ⟨rfl, rfl⟩
  split
  · cases outermostPlaceholder? d e.root.stops <;> exact ⟨rfl, rfl⟩
  · exact ⟨rfl, rfl⟩

theorem Sound.stepPlaceholder (h : e.Sound) (d : Direction) : (e.stepPlaceholder d).Sound :=
  h.onlySelects (onlySelects_stepPlaceholder e d) (h.placed.stepPlaceholder d)

/-! ## Up and down -/

theorem isPosition_of_verticalMove? {d : Direction} {level : Nat} {p : Path}
    (h : e.verticalMove? d level = some p) : IsPosition e.root p := by
  simp only [verticalMove?, Option.bind_eq_bind, Option.bind_eq_some_iff, Option.pure_def,
    Option.some.injEq] at h
  obtain ⟨step, -, slot, hslot, atom, ha, branch, hb, rfl⟩ := h
  have hbody : slot ≠ .body := by
    rintro rfl
    cases d <;> cases hs : step.slot <;> rw [hs] at hslot <;> cases hslot
  exact IsBranch.isPosition ⟨ha, hb, by simp [isGridBody, hbody]⟩ (isOffset_lastOffset branch)

theorem Placed.moveVertically (h : e.Placed) (d : Direction) : (e.moveVertically d).Placed := by
  refine h.moveTo? fun p hp => ?_
  obtain ⟨level, -, hl⟩ := List.exists_of_findSome?_eq_some hp
  exact isPosition_of_verticalMove? hl

theorem Sound.moveVertically (h : e.Sound) (d : Direction) : (e.moveVertically d).Sound :=
  h.onlySelects (onlySelects_moveTo? e _) (h.placed.moveVertically d)

/-! ## Ends -/

theorem Placed.isPosition_branchEnd (h : e.Placed) : IsPosition e.root (e.branchEnd e.caret) := by
  obtain ⟨q, slot, offset, owner, atoms, hp, hb, ho⟩ := h.caret
  rw [hp, branchEnd, hb.branch?, Path.withOffset_child]
  exact hb.isPosition (isOffset_lastOffset atoms)

theorem Placed.isPosition_branchStart (h : e.Placed) :
    IsPosition e.root (e.caret.withOffset leadingGap) := by
  obtain ⟨q, slot, offset, owner, atoms, hp, hb, ho⟩ := h.caret
  rw [hp, Path.withOffset_child]
  exact hb.isPosition (isOffset_leadingGap atoms)

theorem Placed.isPosition_fieldStart (h : e.Placed) : IsPosition e.root (Path.inRoot leadingGap) :=
  h.formula.isBranch_body.isPosition (isOffset_leadingGap _)

theorem Placed.isPosition_fieldEnd (h : e.Placed) : IsPosition e.root e.fieldEnd :=
  h.formula.isBranch_body.isPosition (isOffset_lastOffset _)

end FormulaEditor.Editor

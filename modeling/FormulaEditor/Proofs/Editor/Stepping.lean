import Mathlib.Data.List.Nodup
import Mathlib.Data.List.Perm.Subperm
import Mathlib.Data.Nat.ModEq
import Mathlib.Logic.Function.Iterate
import FormulaEditor.Proofs.Editor.Navigation
import FormulaEditor.Proofs.Editor.StopOrder

/-!
# Stepping through the stops

The arrow keys look the caret up among the stops and go to a neighbour. No stop is met twice, so that
from the stop with index `i` they go to the one with index `i + 1` or `i - 1`; at either end the
boundary is asked. If it always goes on at the other end, the stops form a ring: each key takes back
what the other did, and as many presses as there are stops visit each stop once.
-/

namespace FormulaEditor

/-- The other direction. -/
def Direction.opposite : Direction → Direction
  | forward => backward
  | backward => forward

namespace Editor

/-- The arrow key of a direction. -/
def press (d : Direction) (e : Editor) : Outcome Editor Unit :=
  match d with
  | .forward => e.moveToNext
  | .backward => e.moveToPrevious

/-- The editor after an arrow key was pressed a number of times. -/
def pressed (d : Direction) (times : Nat) : Editor → Editor :=
  (fun e => (e.press d).state)^[times]

/-- The index of the neighbour in a ring of `n` stops. -/
def ringStep (n : Nat) : Direction → Nat → Nat
  | .forward, i => (i + 1) % n
  | .backward, i => (i + n - 1) % n

/-- Whether there is no stop further in a direction. -/
def isOutermost (n : Nat) : Direction → Nat → Bool
  | .forward, i => i + 1 == n
  | .backward, i => i == 0

/-- The caret is at the stop with an index. -/
structure AtNthStop (e : Editor) (i : Nat) : Prop where
  lt : i < e.root.caretStops.length
  selection_eq : e.selection = Selection.caret e.root.caretStops[i]

/-- Nothing changed but the caret, which is now at the stop with an index, and what the boundary was
asked. -/
structure GoesTo (e : Editor) (i : Nat) (e' : Editor) : Prop where
  rest : e' = { e with selection := e'.selection, asked := e'.asked }
  atStop : e'.AtNthStop i

variable {e e' : Editor} {d : Direction} {i j n : Nat}

/-! ## Rings -/

theorem ringStep_lt (hi : i < n) (d : Direction) : ringStep n d i < n := by
  have hn : 0 < n := by omega
  cases d <;> exact Nat.mod_lt _ hn

theorem ringStep_opposite (hi : i < n) (d : Direction) :
    ringStep n d.opposite (ringStep n d i) = i := by
  cases d with
  | forward =>
      simp only [ringStep, Direction.opposite]
      by_cases hend : i + 1 = n
      · rw [hend, Nat.mod_self, Nat.zero_add, Nat.mod_eq_of_lt (by omega)]
        omega
      · rw [Nat.mod_eq_of_lt (show i + 1 < n by omega),
          show i + 1 + n - 1 = i + n by omega, Nat.add_mod_right, Nat.mod_eq_of_lt hi]
  | backward =>
      simp only [ringStep, Direction.opposite]
      rw [Nat.mod_add_mod, show i + n - 1 + 1 = i + n by omega, Nat.add_mod_right,
        Nat.mod_eq_of_lt hi]

/-- The distance that a step covers, counted forward. -/
def ringShift (n : Nat) : Direction → Nat
  | .forward => 1
  | .backward => n - 1

theorem ringStep_eq (hi : i < n) (d : Direction) : ringStep n d i = (i + ringShift n d) % n := by
  cases d with
  | forward => rfl
  | backward => rw [ringStep, ringShift, Nat.add_sub_assoc (by omega)]

theorem iterate_ringStep (hi : i < n) (d : Direction) (times : Nat) :
    (ringStep n d)^[times] i = (i + times * ringShift n d) % n := by
  induction times with
  | zero => simp [Nat.mod_eq_of_lt hi]
  | succ times ih =>
      rw [Function.iterate_succ_apply', ih, ringStep_eq (Nat.mod_lt _ (by omega)), Nat.mod_add_mod,
        Nat.add_assoc, Nat.succ_mul]

theorem iterate_ringStep_lt (hi : i < n) (d : Direction) (times : Nat) :
    (ringStep n d)^[times] i < n := by
  rw [iterate_ringStep hi]
  exact Nat.mod_lt _ (by omega)

theorem iterate_ringStep_self (hi : i < n) (d : Direction) : (ringStep n d)^[n] i = i := by
  rw [iterate_ringStep hi, Nat.add_mul_mod_self_left, Nat.mod_eq_of_lt hi]

theorem coprime_ringShift (hn : 0 < n) (d : Direction) : n.gcd (ringShift n d) = 1 := by
  cases d with
  | forward => exact Nat.gcd_one_right n
  | backward =>
      have hself : n.gcd (n - (n - 1)) = 1 := by
        rw [Nat.sub_sub_self hn]
        exact Nat.gcd_one_right n
      rwa [Nat.gcd_self_sub_right (Nat.sub_le n 1)] at hself

/-- Going around a ring once, every place is met exactly once. -/
theorem existsUnique_iterate_ringStep (hi : i < n) (d : Direction) (hj : j < n) :
    ∃! k, k < n ∧ (ringStep n d)^[k + 1] i = j := by
  have hinjective {k l : Nat} (hk : k < n) (hl : l < n)
      (h : (ringStep n d)^[k + 1] i = (ringStep n d)^[l + 1] i) : k = l := by
    rw [iterate_ringStep hi, iterate_ringStep hi] at h
    have hshifted : k + 1 ≡ l + 1 [MOD n] :=
      (Nat.ModEq.add_left_cancel' i h).cancel_right_of_coprime (coprime_ringShift (by omega) d)
    exact Nat.ModEq.eq_of_lt_of_lt (Nat.ModEq.add_right_cancel' 1 hshifted) hk hl
  -- As many different places as there are, so none is left out.
  have hnodup : ((List.range n).map fun k => (ringStep n d)^[k + 1] i).Nodup :=
    List.Nodup.map_on (fun k hk l hl => hinjective (List.mem_range.1 hk) (List.mem_range.1 hl))
      List.nodup_range
  have hplaces : ((List.range n).map fun k => (ringStep n d)^[k + 1] i).Perm (List.range n) := by
    refine (List.subperm_of_subset hnodup fun j hj => ?_).perm_of_length_le (by simp)
    obtain ⟨k, -, rfl⟩ := List.mem_map.1 hj
    exact List.mem_range.2 (iterate_ringStep_lt hi d (k + 1))
  obtain ⟨k, hk, hmet⟩ := List.mem_map.1 (hplaces.mem_iff.2 (List.mem_range.2 hj))
  refine ⟨k, ⟨List.mem_range.1 hk, hmet⟩, fun l hl => ?_⟩
  exact hinjective hl.1 (List.mem_range.1 hk) (hl.2.trans hmet.symm)

/-! ## One press -/

theorem getElem_eq_iff_of_nodup {α : Type} {xs : List α} (hd : xs.Nodup) {x : α}
    (hi : xs[i]? = some x) (hj : j < xs.length) : x = xs[j] ↔ i = j := by
  obtain ⟨hlt, rfl⟩ := List.getElem?_eq_some_iff.1 hi
  exact List.Nodup.getElem_inj_iff hd

theorem whenValid_of_validate (h : e.validate = .ok ()) (operation : Editor → Outcome Editor Unit) :
    e.whenValid operation = operation e := by
  simp [whenValid, h]

namespace AtNthStop

theorem getElem? (h : e.AtNthStop i) : e.root.caretStops[i]? = some e.caret := by
  rw [List.getElem?_eq_getElem h.lt, caret, h.selection_eq]
  rfl

theorem isCollapsed (h : e.AtNthStop i) : e.selection.isCollapsed = true := by
  rw [h.selection_eq]
  exact beq_self_eq_true _

theorem validate (h : e.AtNthStop i) : e.validate = .ok () := by
  obtain ⟨q, slot, offset, owner, atoms, hp, hb, ho⟩ :=
    isPosition_of_mem_caretStops (List.getElem_mem h.lt)
  exact (validate_eq_ok_iff e).2
    ⟨q, slot, owner, atoms, offset, offset, hb, by rw [h.selection_eq, hp]; rfl, ho, ho⟩

/-- As no stop is met twice, the caret is found where it is. -/
theorem findIdx? (h : e.AtNthStop i) : e.root.caretStops.findIdx? (· == e.caret) = some i := by
  refine List.findIdx?_eq_some_iff_getElem.2 ⟨h.lt, ?_, fun j hj => ?_⟩
  · rw [beq_iff_eq]
    exact ((getElem_eq_iff_of_nodup e.root.nodup_caretStops h.getElem? h.lt).2 rfl).symm
  · have hne := (getElem_eq_iff_of_nodup e.root.nodup_caretStops h.getElem?
      (Nat.lt_trans hj h.lt)).not.2 (Nat.ne_of_gt hj)
    rw [beq_iff_eq]
    exact fun heq => hne heq.symm

end AtNthStop

theorem press_eq_move (h : e.validate = .ok ()) (d : Direction) : e.press d = .done (e.move d) := by
  cases d with
  | forward => exact whenValid_of_validate h fun e => .done (e.move .forward)
  | backward => exact whenValid_of_validate h fun e => .done (e.move .backward)

theorem neighbour?_of_isOutermost {stops : List Path} (h : isOutermost stops.length d i = true) :
    neighbour? d stops i = none := by
  cases d with
  | forward =>
      have hend : i + 1 = stops.length := by simpa [isOutermost] using h
      rw [neighbour?, hend, List.getElem?_length]
  | backward =>
      have hend : i = 0 := by simpa [isOutermost] using h
      rw [neighbour?, if_pos hend]

theorem neighbour?_of_not_isOutermost {stops : List Path} (hi : i < stops.length)
    (h : isOutermost stops.length d i = false) :
    neighbour? d stops i = stops[ringStep stops.length d i]? := by
  cases d with
  | forward =>
      have hne : i + 1 ≠ stops.length := by simpa [isOutermost] using h
      rw [neighbour?, ringStep, Nat.mod_eq_of_lt (by omega)]
  | backward =>
      have hne : i ≠ 0 := by simpa [isOutermost] using h
      rw [neighbour?, if_neg hne, ringStep, show i + stops.length - 1 = i - 1 + stops.length by omega,
        Nat.add_mod_right, Nat.mod_eq_of_lt (by omega)]

theorem wrapped?_of_isOutermost {stops : List Path} (hi : i < stops.length)
    (h : isOutermost stops.length d i = true) :
    wrapped? d stops = stops[ringStep stops.length d i]? := by
  cases d with
  | forward =>
      have hend : i + 1 = stops.length := by simpa [isOutermost] using h
      rw [wrapped?, ringStep, hend, Nat.mod_self, List.head?_eq_getElem?]
  | backward =>
      have hend : i = 0 := by simpa [isOutermost] using h
      rw [wrapped?, ringStep, hend, Nat.zero_add, Nat.mod_eq_of_lt (by omega),
        List.getLast?_eq_getElem?]

/-- What the boundary is asked when the caret leaves the stop with index `i`. -/
def asks (n : Nat) (d : Direction) (i : Nat) : List Direction :=
  if isOutermost n d i then [d] else []

/-- The boundary is asked exactly if there is no stop further on. -/
theorem AtNthStop.asked_press (h : e.AtNthStop i) (d : Direction) :
    (e.press d).state.asked = e.asked ++ asks e.root.caretStops.length d i := by
  rw [press_eq_move h.validate, asks]
  simp only [Outcome.done, move, h.isCollapsed, stepCaret, h.findIdx?, if_true]
  cases ho : isOutermost e.root.caretStops.length d i with
  | true =>
      rw [neighbour?_of_isOutermost ho]
      cases hw : e.boundary d <;> simp [ask, hw, wrapped?_of_isOutermost h.lt ho,
        List.getElem?_eq_getElem (ringStep_lt h.lt d), moveTo?, setCaret]
  | false =>
      rw [neighbour?_of_not_isOutermost h.lt ho, List.getElem?_eq_getElem (ringStep_lt h.lt d)]
      simp [setCaret]

/-- A press goes to the neighbour, around the end if the boundary says so. -/
theorem AtNthStop.goesTo_press (h : e.AtNthStop i)
    (hwrap : isOutermost e.root.caretStops.length d i = true → e.boundary d = .wrap) :
    (e.press d).answer = .ok () ∧ e.GoesTo (ringStep e.root.caretStops.length d i) (e.press d).state := by
  have hlt := ringStep_lt h.lt d
  have hcaret (e' : Editor) (hr : e' = { e with selection := e'.selection, asked := e'.asked }) :
      e.GoesTo (ringStep e.root.caretStops.length d i)
        (e'.setCaret (e.root.caretStops.get ⟨_, hlt⟩)) := by
    refine ⟨?_, ?_⟩
    · rw [hr]
      rfl
    · rw [hr]
      exact ⟨hlt, rfl⟩
  rw [press_eq_move h.validate]
  refine ⟨rfl, ?_⟩
  simp only [Outcome.done, move, h.isCollapsed, stepCaret, h.findIdx?, if_true]
  cases ho : isOutermost e.root.caretStops.length d i with
  | true =>
      simp only [neighbour?_of_isOutermost ho, ask, hwrap ho, beq_self_eq_true, if_true,
        wrapped?_of_isOutermost h.lt ho, List.getElem?_eq_getElem hlt, moveTo?]
      exact hcaret _ rfl
  | false =>
      simp only [neighbour?_of_not_isOutermost h.lt ho, List.getElem?_eq_getElem hlt]
      exact hcaret e rfl

/-- At the outermost stop the caret stays, if the boundary says so. -/
theorem AtNthStop.press_stay (h : e.AtNthStop i) (hstay : e.boundary d = .stay)
    (ho : isOutermost e.root.caretStops.length d i = true) :
    e.press d = .done { e with asked := e.asked ++ [d] } := by
  rw [press_eq_move h.validate]
  simp only [move, h.isCollapsed, stepCaret, h.findIdx?, if_true, neighbour?_of_isOutermost ho, ask,
    hstay]
  rfl

/-! ## Many presses -/

theorem GoesTo.root_eq (h : e.GoesTo i e') : e'.root = e.root := by
  rw [h.rest]

theorem GoesTo.trans {e'' : Editor} (h : e.GoesTo i e') (h' : e'.GoesTo j e'') : e.GoesTo j e'' := by
  refine ⟨?_, h'.atStop⟩
  rw [h'.rest, h.rest]

theorem GoesTo.boundary_eq (h : e.GoesTo i e') : e'.boundary = e.boundary := by
  rw [h.rest]

/-- However often an arrow key is pressed, the caret goes around the ring of stops. -/
theorem AtNthStop.goesTo_pressed (h : e.AtNthStop i) (hwrap : e.boundary d = .wrap) (times : Nat) :
    e.GoesTo ((ringStep e.root.caretStops.length d)^[times] i) (e.pressed d times) := by
  induction times with
  | zero => exact ⟨rfl, h⟩
  | succ times ih =>
      have hnext := (ih.atStop.goesTo_press (d := d) fun _ => ih.boundary_eq ▸ hwrap).2
      rw [ih.root_eq] at hnext
      unfold pressed
      rw [Function.iterate_succ_apply', Function.iterate_succ_apply']
      exact ih.trans hnext

/-- The stops as the arrow keys reach them from the stop with index `i`, if the boundary always goes on
at the other end. -/
structure GoesAround (e : Editor) (i : Nat) : Prop where
  next : e.moveToNext.answer = .ok () ∧
    e.GoesTo ((i + 1) % e.root.caretStops.length) e.moveToNext.state
  previous : e.moveToPrevious.answer = .ok () ∧
    e.GoesTo ((i + e.root.caretStops.length - 1) % e.root.caretStops.length) e.moveToPrevious.state
  previous_next : e.GoesTo i e.moveToNext.state.moveToPrevious.state
  next_previous : e.GoesTo i e.moveToPrevious.state.moveToNext.state
  /-- As many presses as there are stops visit each of them once. -/
  visits (d : Direction) {p : Path} : p ∈ e.root.caretStops →
    ∃! k, k < e.root.caretStops.length ∧ (e.pressed d (k + 1)).caret = p
  returns (d : Direction) : e.GoesTo i (e.pressed d e.root.caretStops.length)

theorem AtNthStop.goesAround (h : e.AtNthStop i) (hwrap : ∀ d, e.boundary d = .wrap) :
    e.GoesAround i := by
  have hback (d : Direction) : e.GoesTo i ((e.press d).state.press d.opposite).state := by
    have hfirst := (h.goesTo_press fun _ => hwrap d).2
    have hsecond := (hfirst.atStop.goesTo_press (d := d.opposite)
      fun _ => hfirst.boundary_eq ▸ hwrap _).2
    rw [hfirst.root_eq, ringStep_opposite h.lt] at hsecond
    exact hfirst.trans hsecond
  refine ⟨h.goesTo_press (d := .forward) fun _ => hwrap _,
    h.goesTo_press (d := .backward) fun _ => hwrap _, hback .forward, hback .backward,
    fun d p hp => ?_, fun d => ?_⟩
  · obtain ⟨j, hj, rfl⟩ := List.getElem_of_mem hp
    obtain ⟨k, ⟨hk, hmet⟩, hunique⟩ := existsUnique_iterate_ringStep h.lt d hj
    have hat (k : Nat) : (e.pressed d (k + 1)).caret = e.root.caretStops[j] ↔
        (ringStep e.root.caretStops.length d)^[k + 1] i = j := by
      have hgoes := h.goesTo_pressed (hwrap d) (k + 1)
      have hcaret := hgoes.atStop.getElem?
      rw [hgoes.root_eq] at hcaret
      exact getElem_eq_iff_of_nodup e.root.nodup_caretStops hcaret hj
    exact ⟨k, ⟨hk, (hat k).2 hmet⟩, fun l hl => hunique l ⟨hl.1, (hat l).1 hl.2⟩⟩
  · have hround := h.goesTo_pressed (hwrap d) e.root.caretStops.length
    rwa [iterate_ringStep_self h.lt] at hround

/-- The arrow keys take the caret from stop to stop. If the boundary goes on at the other end, they go
around all stops; where it stays, the caret does. It is asked exactly if there is no stop further on. -/
theorem AtNthStop.arrowKeys (h : e.AtNthStop i) :
    ((∀ d, e.boundary d = .wrap) → e.GoesAround i) ∧
      ∀ d, (e.press d).state.asked = e.asked ++ asks e.root.caretStops.length d i ∧
        (isOutermost e.root.caretStops.length d i = false → (e.press d).answer = .ok () ∧
          e.GoesTo (ringStep e.root.caretStops.length d i) (e.press d).state) ∧
        (isOutermost e.root.caretStops.length d i = true → e.boundary d = .stay →
          e.press d = .done { e with asked := e.asked ++ [d] }) :=
  ⟨h.goesAround, fun d => ⟨h.asked_press d,
    fun hinner => h.goesTo_press fun houter => absurd (hinner.symm.trans houter) Bool.false_ne_true,
    fun houter hstay => h.press_stay hstay houter⟩⟩

/-- The caret before the superscript in a cell of a matrix. -/
def cellEditor : Editor :=
  (ofRoot matrixOfPower 6).setCaret
    ⟨[⟨.body, 0⟩, ⟨.body, 0⟩, ⟨.body, 0⟩, ⟨.body, 0⟩, ⟨.superscript, leadingGap⟩]⟩

/-- The caret at the end of the formula, where it stays. -/
def stayingEditor : Editor :=
  { ofRoot matrixOfPower 6 with boundary := fun _ => .stay }

theorem arrowKeys_matrixOfPower :
    cellEditor.AtNthStop 2 ∧ (∀ d, cellEditor.boundary d = .wrap) ∧ cellEditor.GoesAround 2 ∧
      stayingEditor.AtNthStop 4 ∧ isOutermost 5 .forward 4 = true ∧
      stayingEditor.moveToNext = .done { stayingEditor with asked := [.forward] } := by
  have hcell : cellEditor.AtNthStop 2 := ⟨by decide, by decide⟩
  have hstays : stayingEditor.AtNthStop 4 := ⟨by decide, by decide⟩
  have hlast : isOutermost 5 .forward 4 = true := by decide
  exact ⟨hcell, fun _ => rfl, hcell.arrowKeys.1 fun _ => rfl, hstays, hlast,
    (hstays.arrowKeys.2 .forward).2.2 hlast rfl⟩

end Editor

end FormulaEditor

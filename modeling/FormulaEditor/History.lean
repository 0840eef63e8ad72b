/-!
# History

A bounded history of states that can be stepped through in both directions. The cursor is the index
of the state that is shown, or the number of recorded states while the shown state is not recorded.
Stepping back from there records the shown state first, so that it can be redone.
-/

namespace FormulaEditor

/-- The recorded states, oldest first, and the position among them. -/
structure History (σ : Type) where
  states : List σ
  cursor : Nat
  /-- The number of states that are kept. -/
  limit : Nat
  cursor_le : cursor ≤ states.length
  limit_pos : 0 < limit

namespace History

variable {σ : Type}

/-- The number of states that are kept unless another is asked for. -/
def defaultLimit : Nat :=
  1000

/-- A history without states. At least one state can be kept. -/
def empty (limit : Nat) : History σ :=
  ⟨[], 0, max limit 1, Nat.le_refl 0, Nat.lt_of_lt_of_le Nat.zero_lt_one (Nat.le_max_right _ _)⟩

/-- Whether there is a state to go back to. -/
def canUndo (h : History σ) : Bool :=
  0 < h.cursor

/-- Whether there is a state to go forward to. -/
def canRedo (h : History σ) : Bool :=
  h.cursor + 1 < h.states.length

/-- Forgets all states. -/
def reset (h : History σ) : History σ :=
  { h with states := [], cursor := 0, cursor_le := Nat.le_refl 0 }

/-- Whether the latest of some states is the same as the shown one. -/
def endsWith (same : σ → σ → Bool) (states : List σ) (shown : σ) : Bool :=
  states.getLast?.any fun s => same s shown

/-- The states without the oldest if there are too many. -/
def trimmed (limit : Nat) (states : List σ) : List σ :=
  if limit < states.length then states.tail else states

/-- Records a state to come back to and forgets what could be redone. A state that is the same as
the latest one is not recorded again; the second component tells whether it was recorded. -/
def record (same : σ → σ → Bool) (h : History σ) (shown : σ) : History σ × Bool :=
  let past := h.states.take h.cursor
  let states := if endsWith same past shown then past else trimmed h.limit (past ++ [shown])
  (⟨states, states.length, h.limit, Nat.le_refl _, h.limit_pos⟩, !endsWith same past shown)

/-- The history with the shown state recorded, and the cursor on it. -/
def settle (same : σ → σ → Bool) (h : History σ) (shown : σ) : History σ :=
  if h.cursor = h.states.length then
    let states := if endsWith same h.states shown then h.states else h.states ++ [shown]
    ⟨states, states.length - 1, h.limit, Nat.sub_le _ _, h.limit_pos⟩
  else h

/-- Steps back to the state before the shown one. -/
def undo (same : σ → σ → Bool) (h : History σ) (shown : σ) : History σ × Option σ :=
  let h := h.settle same shown
  if h.cursor = 0 then (h, none)
  else
    (⟨h.states, h.cursor - 1, h.limit, Nat.le_trans (Nat.sub_le _ _) h.cursor_le, h.limit_pos⟩,
      h.states[h.cursor - 1]?)

/-- Steps forward to the state after the shown one. -/
def redo (h : History σ) : History σ × Option σ :=
  if hr : h.cursor + 1 < h.states.length then
    (⟨h.states, h.cursor + 1, h.limit, Nat.le_of_lt hr, h.limit_pos⟩, some h.states[h.cursor + 1])
  else (h, none)

end History

end FormulaEditor

import FormulaEditor.Proofs.Editor.Growing
import FormulaEditor.Proofs.Editor.Tabbing
import Mathlib.Data.Nat.Find

/-!
# The selection between two positions

Two positions are joined by the smallest run of atoms that covers both, in a branch around them. In
that branch a position is a gap, or it is inside an atom and stands for the whole of it. The main
statement is `select_spans`. The branch is the innermost one outside of grid bodies, unless a grid
owns it: out of a script of a grid the selection is lifted as if that were the body.
-/

namespace FormulaEditor

variable {root owner : Atom} {p p' q q' : Path} {slot slot' : Slot} {place place' : BranchPosition}
  {x y i : Int}

namespace Path

/-- Where a position lies in the branch `slot` of the atom at `q`. -/
inductive LiesIn (p q : Path) (slot : Slot) : BranchPosition → Prop where
  | gap {i : Int} : p = q.child slot i → LiesIn p q slot (.gap i)
  | inside {i : Int} : p.IsInside (q.child slot i) → LiesIn p q slot (.inside i)

/-- The innermost branch with a property that both positions lie in. -/
structure Innermost (P : Path → Slot → Prop) (p p' q : Path) (slot : Slot) : Prop where
  property : P q slot
  liesIn : ∃ place, p.LiesIn q slot place
  liesIn' : ∃ place, p'.LiesIn q slot place
  depth_le {q' : Path} {slot' : Slot} : P q' slot' → (∃ place, p.LiesIn q' slot' place) →
    (∃ place, p'.LiesIn q' slot' place) → q'.depth ≤ q.depth

end Path

/-- Whether the run of atoms between two gaps covers a gap, or an atom that a position is in. -/
def BranchPosition.CoveredBy (x y : Int) : BranchPosition → Prop
  | gap i => x ≤ i ∧ i ≤ y
  | inside i => x < i ∧ i ≤ y

/-- The gaps from `x` to `y` bound the smallest run that covers two places of a branch. It leads from
the first position to the second one in document order, and forward if both are in the same atom. -/
structure BoundsRun (x y : Int) (place place' : BranchPosition) (p p' : Path) : Prop where
  ne : x ≠ y
  covers : place.CoveredBy (min x y) (max x y)
  covers' : place'.CoveredBy (min x y) (max x y)
  smallest {x' y' : Int} : place.CoveredBy x' y' → place'.CoveredBy x' y' →
    x' ≤ min x y ∧ max x y ≤ y'
  forward_iff : x < y ↔ p.Precedes p' ∨ ∃ i, place = .inside i ∧ place' = .inside i

/-- A selection is the smallest run of a branch that covers two positions. -/
def Selection.Spans (s : Selection) (q : Path) (slot : Slot) (p p' : Path) : Prop :=
  ∃ x y place place', s = ⟨q.child slot x, q.child slot y⟩ ∧ p.LiesIn q slot place ∧
    p'.LiesIn q slot place' ∧ BoundsRun x y place place' p p'

/-- A branch is no body of a grid. -/
def OutsideGridBodies (root : Atom) (q : Path) (slot : Slot) : Prop :=
  ∀ owner, q.atom? root = some owner → isGridBody owner.kind slot = false

/-- A branch is not owned by a grid. -/
def OutsideGrids (root : Atom) (q : Path) (_ : Slot) : Prop :=
  ∀ owner, q.atom? root = some owner → owner.kind.isGrid = false

theorem OutsideGrids.outsideGridBodies (h : OutsideGrids root q slot) :
    OutsideGridBodies root q slot := fun owner ha => by
  rw [isGridBody, h owner ha, Bool.false_and]

/-! ## Document order -/

namespace Path

theorem IsInside.asymm (h : p.IsInside q) : ¬q.IsInside p := by
  rintro ⟨t, rest', hq⟩
  obtain ⟨s, rest, hp⟩ := h
  have hlength := congrArg List.length hp
  rw [hq] at hlength
  simp only [List.length_append, List.length_cons] at hlength
  omega

theorem Precedes.asymm (h : p.Precedes q) : ¬q.Precedes p := by
  rcases h with hleft | hinside
  · rintro (hright | hinside)
    · exact hleft.asymm hright
    · exact hleft.not_isInside.2 hinside
  · rintro (hleft | hinside')
    · exact hleft.not_isInside.2 hinside
    · exact hinside.asymm hinside'

/-! ## Places in a branch -/

namespace LiesIn

/-- The steps to a position go through the branch that it lies in. -/
theorem isPrefix (h : p.LiesIn q slot place) : (q.child slot place.after).steps <+: p.steps := by
  cases h with
  | gap h => exact h ▸ List.prefix_refl _
  | inside h => exact h.isPrefix

theorem goesInto (h : p.LiesIn q slot place) : q.GoesInto slot place.after p :=
  goesInto_of_isPrefix h.isPrefix

theorem depth_lt (h : p.LiesIn q slot place) : q.depth < p.depth := by
  have hle := h.isPrefix.length_le
  rw [steps_child, List.length_append] at hle
  exact hle

/-- At every depth there is one branch that a position lies in. -/
theorem eq_of_depth_eq (h : p.LiesIn q slot place) (h' : p.LiesIn q' slot' place')
    (hd : q.depth = q'.depth) : q = q' ∧ slot = slot' := by
  obtain ⟨i, rest, hp, -⟩ := h.goesInto
  obtain ⟨j, rest', hp', -⟩ := h'.goesInto
  obtain ⟨hq, hrest⟩ := List.append_inj (hp.symm.trans hp') hd
  obtain ⟨steps⟩ := q
  obtain ⟨steps'⟩ := q'
  exact ⟨congrArg mk hq, congrArg Step.slot (List.cons.inj hrest).1⟩

/-- What ranks lower comes first. -/
theorem precedes (h : p.LiesIn q slot place) (h' : p'.LiesIn q slot place')
    (hr : place.rank < place'.rank) : p.Precedes p' := by
  by_cases hlt : place.after < place'.after
  · exact .inl (h'.goesInto.leftOf h.isPrefix hlt)
  · cases h with
    | gap hp =>
        cases h' <;> simp only [BranchPosition.rank, BranchPosition.after] at hr hlt <;> omega
    | @inside i hp =>
        cases h' with
        | inside hp' =>
            simp only [BranchPosition.rank, BranchPosition.after] at hr hlt
            omega
        | @gap j hp' =>
            simp only [BranchPosition.rank, BranchPosition.after] at hr hlt
            have heq : i = j := by omega
            rw [hp', ← heq]
            exact .inr hp

/-- Places of the same rank are the same gap, or in the same atom. -/
theorem eq_or_inside (h : p.LiesIn q slot place) (h' : p'.LiesIn q slot place')
    (hr : place.rank = place'.rank) :
    p = p' ∨ ∃ i, place = .inside i ∧ place' = .inside i := by
  cases h with
  | @gap i hp =>
      cases h' with
      | @gap j hp' =>
          simp only [BranchPosition.rank] at hr
          have heq : i = j := by omega
          exact .inl (by rw [hp, hp', heq])
      | inside =>
          simp only [BranchPosition.rank] at hr
          omega
  | @inside i hp =>
      cases h' with
      | gap =>
          simp only [BranchPosition.rank] at hr
          omega
      | @inside j hp' =>
          simp only [BranchPosition.rank] at hr
          have heq : i = j := by omega
          exact .inr ⟨i, rfl, by rw [heq]⟩

end LiesIn

end Path

/-! ## Smallest runs -/

theorem boundsRun_forward (h : p.LiesIn q slot place) (h' : p'.LiesIn q slot place')
    (hr : place.rank < place'.rank) : BoundsRun place.before place'.after place place' p p' := by
  have hlt : place.before < place'.after := by
    cases place <;> cases place' <;>
      simp only [BranchPosition.rank, BranchPosition.before, BranchPosition.after] at hr ⊢ <;> omega
  constructor
  case ne => exact Int.ne_of_lt hlt
  case forward_iff => exact iff_of_true hlt (.inl (h.precedes h' hr))
  all_goals
    cases place <;> cases place' <;>
      simp only [BranchPosition.rank, BranchPosition.before, BranchPosition.after,
        BranchPosition.CoveredBy] at hr ⊢ <;> omega

theorem boundsRun_backward (h : p.LiesIn q slot place) (h' : p'.LiesIn q slot place')
    (hr : place'.rank < place.rank) : BoundsRun place.after place'.before place place' p p' := by
  have hlt : place'.before < place.after := by
    cases place <;> cases place' <;>
      simp only [BranchPosition.rank, BranchPosition.before, BranchPosition.after] at hr ⊢ <;> omega
  constructor
  case ne => exact Int.ne_of_gt hlt
  case forward_iff =>
    refine iff_of_false (Int.not_lt.2 (Int.le_of_lt hlt)) ?_
    rintro (hprecedes | ⟨i, rfl, rfl⟩)
    · exact (h'.precedes h hr).asymm hprecedes
    · exact Int.lt_irrefl _ hr
  all_goals
    cases place <;> cases place' <;>
      simp only [BranchPosition.rank, BranchPosition.before, BranchPosition.after,
        BranchPosition.CoveredBy] at hr ⊢ <;> omega

/-- Two positions in one atom are covered by that atom. -/
theorem boundsRun_atom (p p' : Path) (i : Int) :
    BoundsRun (i - 1) i (.inside i) (.inside i) p p' := by
  constructor
  case ne => omega
  case forward_iff => exact iff_of_true (by omega) (.inr ⟨i, rfl, rfl⟩)
  all_goals
    simp only [BranchPosition.CoveredBy]
    omega

/-! ## Lifting -/

/-- The place of a path in the branch that its first steps lead into. -/
theorem liesIn_ofPath (above : List Step) (s : Step) (rest : List Step) :
    (⟨above ++ s :: rest⟩ : Path).LiesIn ⟨above⟩ s.slot
      (BranchPosition.ofPath ⟨above ++ s :: rest⟩ (above.length + 1)) := by
  cases rest with
  | nil =>
      have hplace : BranchPosition.ofPath ⟨above ++ [s]⟩ (above.length + 1) = .gap s.offset := by
        simp [BranchPosition.ofPath, Path.depth]
      rw [hplace]
      exact .gap rfl
  | cons t rest =>
      have hplace : BranchPosition.ofPath ⟨above ++ s :: t :: rest⟩ (above.length + 1) =
          .inside s.offset := by
        simp [BranchPosition.ofPath, Path.depth]
      rw [hplace]
      refine .inside ⟨t, rest, ?_⟩
      rw [Path.steps_child, List.append_assoc]
      rfl

/-- A lifted selection is the smallest run around both positions in the branch it is lifted to. -/
theorem liftedSelection_spans {above rest rest' : List Step} {s t : Step} (hslot : s.slot = t.slot)
    (hne : (⟨above ++ s :: rest⟩ : Path) ≠ ⟨above ++ t :: rest'⟩) :
    (liftedSelection ⟨above ++ s :: rest⟩ ⟨above ++ t :: rest'⟩ (above.length + 1)).Spans ⟨above⟩
      s.slot ⟨above ++ s :: rest⟩ ⟨above ++ t :: rest'⟩ := by
  have hplace := liesIn_ofPath above s rest
  have hplace' := liesIn_ofPath above t rest'
  have htake : (⟨above ++ s :: rest⟩ : Path).take (above.length + 1) =
      (⟨above⟩ : Path).child s.slot s.offset := by
    simp [Path.take, Path.child, List.take_append, List.take_of_length_le]
  rw [← hslot] at hplace'
  unfold liftedSelection
  simp only [htake, Path.withOffset_child]
  generalize BranchPosition.ofPath ⟨above ++ s :: rest⟩ (above.length + 1) = place at *
  generalize BranchPosition.ofPath ⟨above ++ t :: rest'⟩ (above.length + 1) = place' at *
  by_cases hlt : place.rank < place'.rank
  · rw [if_pos hlt]
    exact ⟨_, _, place, place', rfl, hplace, hplace', boundsRun_forward hplace hplace' hlt⟩
  · rw [if_neg hlt]
    by_cases hgt : place'.rank < place.rank
    · rw [if_pos hgt]
      exact ⟨_, _, place, place', rfl, hplace, hplace', boundsRun_backward hplace hplace' hgt⟩
    · rw [if_neg hgt]
      have heq : place.rank = place'.rank := by omega
      obtain ⟨i, rfl, rfl⟩ := (hplace.eq_or_inside hplace' heq).resolve_left hne
      exact ⟨_, _, _, _, rfl, hplace, hplace', boundsRun_atom _ _ i⟩

/-- In one branch, a selection is the run between its ends. -/
theorem spans_of_same_branch (q : Path) (slot : Slot) (hne : x ≠ y) :
    (⟨q.child slot x, q.child slot y⟩ : Selection).Spans q slot (q.child slot x) (q.child slot y) := by
  have hplace : (q.child slot x).LiesIn q slot (.gap x) := .gap rfl
  have hplace' : (q.child slot y).LiesIn q slot (.gap y) := .gap rfl
  refine ⟨x, y, .gap x, .gap y, rfl, hplace, hplace', ?_⟩
  by_cases hlt : x < y
  · exact boundsRun_forward hplace hplace' (by simp only [BranchPosition.rank]; omega)
  · exact boundsRun_backward hplace hplace' (by simp only [BranchPosition.rank]; omega)

/-- A selection spans two positions in one branch at most. -/
theorem Selection.Spans.unique {s : Selection} (h : s.Spans q slot p p')
    (h' : s.Spans q' slot' p p') : q = q' ∧ slot = slot' := by
  obtain ⟨x, y, -, -, rfl, -⟩ := h
  obtain ⟨x', y', -, -, heq, -⟩ := h'
  obtain ⟨hq, hslot, -⟩ := Path.child_injective (congrArg Selection.anchor heq)
  exact ⟨hq, hslot⟩

/-! ## Innermost branches -/

/-- If both positions lie in a branch of the root that has a property, there is an innermost such
branch. -/
theorem exists_innermost {P : Path → Slot → Prop} (hP : P Path.root slot)
    (h : p.LiesIn Path.root slot place) (h' : p'.LiesIn Path.root slot place') :
    ∃ q slot, Path.Innermost P p p' q slot := by
  classical
  let AtDepth (n : Nat) : Prop := ∃ q slot, q.depth = n ∧ P q slot ∧
    (∃ place, p.LiesIn q slot place) ∧ ∃ place, p'.LiesIn q slot place
  have hzero : AtDepth 0 := ⟨Path.root, slot, rfl, hP, ⟨place, h⟩, ⟨place', h'⟩⟩
  obtain ⟨q, slot, hd, hq, hplace, hplace'⟩ :=
    Nat.findGreatest_spec (P := AtDepth) (Nat.zero_le p.depth) hzero
  refine ⟨q, slot, hq, hplace, hplace', ?_⟩
  intro q' slot' hq' hlies hlies'
  obtain ⟨_, hin⟩ := hlies
  rw [hd]
  exact Nat.le_findGreatest (Nat.le_of_lt hin.depth_lt) ⟨q', slot', rfl, hq', ⟨_, hin⟩, hlies'⟩

namespace Path.Innermost

variable {P P' : Path → Slot → Prop}

theorem unique (h : Innermost P p p' q slot) (h' : Innermost P p p' q' slot') :
    q = q' ∧ slot = slot' := by
  obtain ⟨_, hin⟩ := h.liesIn
  obtain ⟨_, hin'⟩ := h'.liesIn
  exact hin.eq_of_depth_eq hin' (Nat.le_antisymm
    (h'.depth_le h.property h.liesIn h.liesIn') (h.depth_le h'.property h'.liesIn h'.liesIn'))

/-- An innermost branch of more branches is also innermost among fewer ones, if it is one of them. -/
theorem mono (h : Innermost P p p' q slot) (hP : P' q slot)
    (himp : ∀ {q slot}, P' q slot → P q slot) : Innermost P' p p' q slot :=
  ⟨hP, h.liesIn, h.liesIn', fun hq' => h.depth_le (himp hq')⟩

end Path.Innermost

theorem length_lt_commonDepth (above : List Step) {s t : Step} {rest rest' : List Step}
    (h : s.slot = t.slot) : above.length < commonDepth (above ++ s :: rest) (above ++ t :: rest') := by
  induction above with
  | nil =>
      simp only [List.nil_append, List.length_nil, commonDepth, h, ne_eq, not_true_eq_false, if_false]
      split <;> omega
  | cons u above ih =>
      simp only [List.cons_append, List.length_cons, commonDepth, ne_eq, not_true_eq_false, if_false]
      omega

/-- The branches around both positions are those above the common depth. -/
theorem depth_lt_commonDepth (h : p.LiesIn q slot place) (h' : p'.LiesIn q slot place') :
    q.depth < commonDepth p.steps p'.steps := by
  obtain ⟨i, rest, hp, -⟩ := h.goesInto
  obtain ⟨j, rest', hp', -⟩ := h'.goesInto
  rw [hp, hp']
  exact length_lt_commonDepth q.steps rfl

theorem take_depth_of_liesIn (h : p.LiesIn q slot place) : p.take q.depth = q := by
  obtain ⟨i, rest, hp, -⟩ := h.goesInto
  rw [Path.take, hp]
  exact congrArg Path.mk (List.take_left' rfl)

/-- Going up out of grids passes grids only. -/
theorem isGrid_of_depthOutsideGrids {d k j : Nat} (h : depthOutsideGrids root p (d + 1) = k + 1)
    (hk : k < j) (hj : j ≤ d) : ((p.take j).atom? root).any (fun a => a.kind.isGrid) = true := by
  induction d with
  | zero => omega
  | succ d ih =>
      simp only [depthOutsideGrids] at h
      by_cases hgrid : ((p.take (d + 1)).atom? root).any (fun a => a.kind.isGrid) = true
      · rw [if_pos hgrid] at h
        by_cases hd : j = d + 1
        · rw [hd]
          exact hgrid
        · exact ih h (by omega)
      · rw [if_neg hgrid] at h
        omega

/-- A selection is lifted to the innermost branch around both positions that no grid owns. -/
theorem innermost_lifted (hk : root.kind = .root) {above rest rest' : List Step} {s t : Step} {d : Nat}
    (hslot : s.slot = t.slot)
    (hd : commonDepth (above ++ s :: rest) (above ++ t :: rest') = d + 1)
    (hlift : depthOutsideGrids root ⟨above ++ s :: rest⟩ (d + 1) = above.length + 1) :
    Path.Innermost (OutsideGrids root) ⟨above ++ s :: rest⟩ ⟨above ++ t :: rest'⟩ ⟨above⟩ s.slot := by
  have htake : (⟨above ++ s :: rest⟩ : Path).take above.length = ⟨above⟩ := by
    simp [Path.take]
  refine ⟨?_, ⟨_, liesIn_ofPath above s rest⟩, ⟨_, hslot ▸ liesIn_ofPath above t rest'⟩, ?_⟩
  · intro owner howner
    obtain ⟨k, hk', -, hgrid⟩ := Editor.depthOutsideGrids_succ root ⟨above ++ s :: rest⟩ d
    have heq : k = above.length := by omega
    rw [heq] at hgrid
    rcases hgrid with hzero | hgrid
    · rw [List.eq_nil_of_length_eq_zero hzero] at howner
      cases howner
      rw [hk]
      rfl
    · rw [htake, howner] at hgrid
      exact hgrid
  · intro q' slot' hq' hlies hlies'
    obtain ⟨_, hin⟩ := hlies
    obtain ⟨_, hin'⟩ := hlies'
    have hlt := depth_lt_commonDepth hin hin'
    dsimp only at hlt
    by_contra hdeep
    have hgrid := isGrid_of_depthOutsideGrids hlift (Nat.lt_of_not_le hdeep) (by omega)
    rw [take_depth_of_liesIn hin] at hgrid
    obtain ⟨a, ha, hisGrid⟩ := (Option.any_eq_true ..).1 hgrid
    rw [hq' a ha] at hisGrid
    cases hisGrid

/-! ## Selecting -/

namespace Editor

variable {e : Editor} {anchor focus : Path}

/-- Every position lies in the content of its formula. -/
theorem liesIn_body (h : IsFormula root) (hp : IsPosition root p) :
    ∃ place, p.LiesIn Path.root .body place := by
  obtain ⟨⟨steps⟩, slot, offset, owner, atoms, rfl, hb, -⟩ := hp
  have hd : root.descend? steps = some owner := hb.atom?_eq
  cases steps with
  | nil =>
      cases hd
      rw [h.slot_eq_body hb.branch_eq]
      exact ⟨_, .gap rfl⟩
  | cons s rest =>
      obtain ⟨content, -, -, hc, -, -, -⟩ := Atom.descend?_cons_eq_some hd
      have hlies := liesIn_ofPath [] s (rest ++ [⟨slot, offset⟩])
      rw [h.slot_eq_body hc] at hlies
      exact ⟨_, hlies⟩

theorem outsideGridBodies_root (h : IsFormula root) (slot : Slot) :
    OutsideGridBodies root Path.root slot := by
  intro owner howner
  cases howner
  rw [isGridBody, h.kind_root]
  rfl

/-- What selecting one position does: the caret goes there, or to the leading gap of a branch that
holds a placeholder only. -/
theorem select_self (hp : IsPosition e.root p) :
    e.select p p = .done (e.setCaret
      (if (p.branch? e.root).any isPlaceholderOnly then p.withOffset leadingGap else p)) := by
  have hposition := (e.isPosition_iff p).2 hp
  obtain ⟨q, slot, offset, owner, atoms, rfl, hb, -⟩ := hp
  have hsame : (q.child slot offset).sameBranch (q.child slot offset) = true :=
    (Path.sameBranch_child ..).2 ⟨rfl, rfl⟩
  unfold Editor.select
  simp only [hposition, Bool.not_true, Bool.false_eq_true, if_false, decide_true, Bool.true_and, hsame,
    if_true]
  split <;> rfl

theorem sound_select_self (hk : e.root.kind = .root) (hw : e.root.isWellFormed = true)
    (hp : IsPosition e.root p) : (e.setCaret
      (if (p.branch? e.root).any isPlaceholderOnly then p.withOffset leadingGap else p)).Sound := by
  apply sound_setCaret hk hw
  split
  · obtain ⟨q, slot, offset, owner, atoms, rfl, hb, -⟩ := hp
    rw [Path.withOffset_child]
    exact hb.isPosition (isOffset_leadingGap atoms)
  · exact hp

theorem select_of_not_position (h : ¬(IsPosition e.root anchor ∧ IsPosition e.root focus)) :
    ∃ reason, e.select anchor focus = .refused e reason := by
  rw [← e.isPosition_iff, ← e.isPosition_iff] at h
  unfold Editor.select
  by_cases ha : e.isPosition anchor = true
  · have hf : e.isPosition focus = false := by
      rw [← Bool.not_eq_true]
      exact fun hf => h ⟨ha, hf⟩
    rw [if_neg (by simp [ha]), if_pos (by simp [hf])]
    exact ⟨_, rfl⟩
  · rw [if_pos (by simpa using ha)]
    exact ⟨_, rfl⟩

/-- Two positions of one branch are joined there. -/
theorem select_of_sameBranch (ha : IsPosition e.root anchor) (hf : IsPosition e.root focus)
    (hne : anchor ≠ focus) (hsame : anchor.sameBranch focus = true) :
    e.select anchor focus = .done { e with selection := ⟨anchor, focus⟩ } := by
  rw [← e.isPosition_iff] at ha hf
  unfold Editor.select
  simp [ha, hf, hne, hsame]

theorem sound_of_sameBranch (hk : e.root.kind = .root) (hw : e.root.isWellFormed = true)
    (ha : IsPosition e.root anchor) (hf : IsPosition e.root focus)
    (hsame : anchor.sameBranch focus = true) : Sound { e with selection := ⟨anchor, focus⟩ } := by
  obtain ⟨q, slot, x, owner, atoms, rfl, hb, hx⟩ := ha
  obtain ⟨y, rfl⟩ := Path.sameBranch_exists hsame
  obtain ⟨owner', atoms', hb', hy⟩ := (e.isPosition_child ..).1 ((e.isPosition_iff _).2 hf)
  obtain ⟨rfl, rfl⟩ := hb.unique hb'
  exact SelectsIn.sound ⟨hb, rfl, hx, hy⟩ hk hw

/-- Two positions of different branches are joined in the innermost branch around both that no grid
owns. -/
theorem select_of_not_sameBranch (hk : e.root.kind = .root) (hw : e.root.isWellFormed = true)
    (ha : IsPosition e.root anchor) (hf : IsPosition e.root focus)
    (hsame : anchor.sameBranch focus = false) :
    ∃ s q slot, e.select anchor focus = .done { e with selection := s } ∧
      Sound { e with selection := s } ∧ Path.Innermost (OutsideGrids e.root) anchor focus q slot ∧
      s.Spans q slot anchor focus := by
  have hform := isFormula_of_isWellFormed hk hw
  have hne : anchor ≠ focus := by
    rintro rfl
    obtain ⟨q, slot, offset, -, -, rfl, -⟩ := ha
    rw [(Path.sameBranch_child ..).2 ⟨rfl, rfl⟩] at hsame
    cases hsame
  obtain ⟨_, hbody⟩ := liesIn_body hform ha
  obtain ⟨_, hbody'⟩ := liesIn_body hform hf
  have hpos := depth_lt_commonDepth hbody hbody'
  obtain ⟨d, hd⟩ := Nat.exists_eq_add_of_lt hpos
  have hcommon : commonDepth anchor.steps focus.steps = d + 1 := by
    rw [hd]
    simp [Path.root, Path.depth]
  obtain ⟨k, hlift, hle, hgrid⟩ := depthOutsideGrids_succ e.root anchor d
  have hplaced := (placed_setCaret_endOf hform).liftedSelection ha hf hcommon hle hgrid
  obtain ⟨above, s, t, rest, rest', hs, ht, hslot, rfl⟩ :=
    exists_of_lt_commonDepth (show k < commonDepth anchor.steps focus.steps by omega)
  rw [← e.isPosition_iff] at ha hf
  have hselect : e.select anchor focus =
      .done { e with selection := liftedSelection anchor focus (above.length + 1) } := by
    unfold Editor.select
    simp [ha, hf, hne, hsame, hcommon, hlift]
  obtain ⟨steps⟩ := anchor
  obtain ⟨steps'⟩ := focus
  dsimp only at hs ht
  subst hs ht
  exact ⟨_, ⟨above⟩, s.slot, hselect, ⟨hk, hw, hplaced.valid⟩, innermost_lifted hk hslot hcommon hlift,
    liftedSelection_spans hslot hne⟩

/-- How a selection joins two different positions: by the smallest run that covers both in a branch
around them. That is the innermost one outside of grid bodies exactly if no grid owns it or the
positions are gaps of it; positions of different branches are joined in the innermost one that no grid
owns. -/
structure Joins (root : Atom) (s : Selection) (p p' q : Path) (slot : Slot) (owner : Atom) :
    Prop where
  innermost : Path.Innermost (OutsideGridBodies root) p p' q slot
  atom?_eq : q.atom? root = some owner
  spans_iff : s.Spans q slot p p' ↔ owner.kind.isGrid = false ∨ p.sameBranch p' = true
  lifted : p.sameBranch p' = false → ∃ q' slot',
    Path.Innermost (OutsideGrids root) p p' q' slot' ∧ s.Spans q' slot' p p'

theorem joins_of_sameBranch (ha : IsPosition e.root anchor) (hne : anchor ≠ focus)
    (hsame : anchor.sameBranch focus = true) :
    ∃ q slot owner, Joins e.root ⟨anchor, focus⟩ anchor focus q slot owner := by
  obtain ⟨q, slot, x, owner, atoms, rfl, hb, -⟩ := ha
  obtain ⟨y, rfl⟩ := Path.sameBranch_exists hsame
  have hxy : x ≠ y := by
    rintro rfl
    exact hne rfl
  refine ⟨q, slot, owner, ⟨?_, ⟨_, .gap rfl⟩, ⟨_, .gap rfl⟩, ?_⟩, hb.atom?_eq,
    iff_of_true (spans_of_same_branch q slot hxy) (.inr hsame), fun hnot => ?_⟩
  · intro a hq
    cases hb.atom?_eq.symm.trans hq
    exact hb.not_grid
  · intro q' slot' _ hlies _
    obtain ⟨_, hin⟩ := hlies
    have hlt := hin.depth_lt
    rw [Path.depth_child] at hlt
    exact Nat.lt_succ_iff.1 hlt
  · rw [hsame] at hnot
    cases hnot

theorem joins_of_lifted {s : Selection} (hform : IsFormula e.root) (ha : IsPosition e.root anchor)
    (hf : IsPosition e.root focus) (hsame : anchor.sameBranch focus = false)
    (hinner : Path.Innermost (OutsideGrids e.root) anchor focus q' slot')
    (hspans : s.Spans q' slot' anchor focus) :
    ∃ q slot owner, Joins e.root s anchor focus q slot owner := by
  obtain ⟨_, hbody⟩ := liesIn_body hform ha
  obtain ⟨_, hbody'⟩ := liesIn_body hform hf
  obtain ⟨q, slot, hinnermost⟩ :=
    exists_innermost (outsideGridBodies_root hform .body) hbody hbody'
  obtain ⟨_, hin⟩ := hinnermost.liesIn
  obtain ⟨owner, howner⟩ := atom?_take_of_lt ha hin.depth_lt
  rw [take_depth_of_liesIn hin] at howner
  refine ⟨q, slot, owner, hinnermost, howner, ?_, fun _ => ⟨q', slot', hinner, hspans⟩⟩
  constructor
  · intro hs
    obtain ⟨rfl, rfl⟩ := hs.unique hspans
    exact .inl (hinner.property owner howner)
  · rintro (hgrid | htrue)
    · have houtside : OutsideGrids e.root q slot := by
        intro a ha
        cases howner.symm.trans ha
        exact hgrid
      obtain ⟨rfl, rfl⟩ := (hinnermost.mono houtside OutsideGrids.outsideGridBodies).unique hinner
      exact hspans
    · rw [hsame] at htrue
      cases htrue

/-- A selection set to two positions is refused unless both are positions of the formula. Otherwise
only the selection changes, and it is valid. One position becomes a caret there, or in the leading gap
of a branch that holds a placeholder only. Two positions are joined by the run of atoms around them,
directed from the first to the second. -/
theorem select_spans (hk : e.root.kind = .root) (hw : e.root.isWellFormed = true)
    (anchor focus : Path) :
    (¬(IsPosition e.root anchor ∧ IsPosition e.root focus) →
      ∃ reason, e.select anchor focus = .refused e reason) ∧
    (IsPosition e.root anchor → IsPosition e.root focus →
      ∃ s, e.select anchor focus = .done { e with selection := s } ∧
        Sound { e with selection := s } ∧
        (anchor = focus → s = Selection.caret
          (if (focus.branch? e.root).any isPlaceholderOnly then focus.withOffset leadingGap
            else focus)) ∧
        (anchor ≠ focus → ∃ q slot owner, Joins e.root s anchor focus q slot owner)) := by
  have hform := isFormula_of_isWellFormed hk hw
  refine ⟨select_of_not_position, fun ha hf => ?_⟩
  by_cases heq : anchor = focus
  · subst heq
    exact ⟨_, select_self ha, sound_select_self hk hw ha, fun _ => rfl, fun hne => absurd rfl hne⟩
  · cases hsame : anchor.sameBranch focus with
    | true =>
        exact ⟨_, select_of_sameBranch ha hf heq hsame, sound_of_sameBranch hk hw ha hf hsame,
          fun h => absurd h heq, fun _ => joins_of_sameBranch ha heq hsame⟩
    | false =>
        obtain ⟨s, q', slot', hselect, hsound, hinner, hspans⟩ :=
          select_of_not_sameBranch hk hw ha hf hsame
        exact ⟨s, hselect, hsound, fun h => absurd h heq,
          fun _ => joins_of_lifted hform ha hf hsame hinner hspans⟩

/-- A matrix with a letter and a fraction in its superscript. -/
def matrixWithScript : Editor :=
  let letter (id : Nat) (c : Char) : Atom := .leaf id .ordinary (some (String.singleton c)) (some c)
  let wrap (id : Nat) (kind : Kind) (value : Option String) (body : List Atom) : Atom :=
    .node ⟨id, kind, value, none, Marks.none⟩ { Branches.none with body := some body }
  let fraction : Atom := .node ⟨6, .fraction, some "\\frac", none, Marks.none⟩
    { Branches.none with numerator := some [letter 7 'b'], denominator := some [letter 8 'c'] }
  let matrix := wrap 1 .array (some "matrix") [wrap 2 .row none [wrap 3 .cell none [letter 4 'a']]]
  ofRoot (wrap 0 .root none [matrix.putBranch .superscript (some [letter 5 'x', fraction])]) 9

/-- The start of the superscript. -/
def scriptStart : Path :=
  ⟨[⟨.body, 0⟩, ⟨.superscript, leadingGap⟩]⟩

/-- The end of the numerator in the superscript. -/
def scriptNumerator : Path :=
  ⟨[⟨.body, 0⟩, ⟨.superscript, 1⟩, ⟨.numerator, 0⟩]⟩

theorem select_spans_matrixWithScript :
    matrixWithScript.root.kind = .root ∧ matrixWithScript.root.isWellFormed = true ∧
    ∃ s q slot, matrixWithScript.select scriptStart scriptNumerator =
        .done { matrixWithScript with selection := s } ∧
      s = ⟨Path.inRoot leadingGap, Path.inRoot 0⟩ ∧
      Path.Innermost (OutsideGridBodies matrixWithScript.root) scriptStart scriptNumerator q slot ∧
      ¬s.Spans q slot scriptStart scriptNumerator := by
  have hwf : matrixWithScript.root.isWellFormed = true := by decide
  have hstart : IsPosition matrixWithScript.root scriptStart :=
    (matrixWithScript.isPosition_iff _).1 (by decide)
  have hnumerator : IsPosition matrixWithScript.root scriptNumerator :=
    (matrixWithScript.isPosition_iff _).1 (by decide)
  obtain ⟨s, hselect, -, -, hjoins⟩ :=
    (select_spans rfl hwf scriptStart scriptNumerator).2 hstart hnumerator
  obtain ⟨q, slot, owner, hjoined⟩ := hjoins (by decide)
  have hs : s = ⟨Path.inRoot leadingGap, Path.inRoot 0⟩ :=
    (congrArg (fun o : Outcome Editor Unit => o.state.selection) hselect).symm
  refine ⟨rfl, hwf, s, q, slot, hselect, hs, hjoined.innermost, ?_⟩
  rintro ⟨x, y, place, place', hspanned, -⟩
  rw [hs] at hspanned
  obtain ⟨rfl, -⟩ := Path.child_injective (congrArg Selection.anchor hspanned)
  have hscript : OutsideGridBodies matrixWithScript.root ⟨[⟨.body, 0⟩]⟩ .superscript :=
    fun owner _ => Atom.isGridBody_of_isScript owner.kind rfl
  have hdepth := hjoined.innermost.depth_le hscript ⟨_, .gap rfl⟩ ⟨_, .inside ⟨_, [], rfl⟩⟩
  exact absurd hdepth (by decide)

end Editor

end FormulaEditor

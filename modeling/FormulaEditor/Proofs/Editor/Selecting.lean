import FormulaEditor.Editor.Selecting
import FormulaEditor.Proofs.Editor.Navigation

/-!
# Selecting keeps an editor placed

A selection that is grown, extended or lifted lies in one branch around the positions it is made
from. The branch is found by going up from them, and the search ends below a grid or above it, never
in its body. So selecting keeps an editor placed, and sound if it was sound.
-/

namespace FormulaEditor.Editor

variable {e : Editor}

/-! ## Runs and owners -/

/-- A run of atoms of a branch may be selected. -/
theorem Placed.selectRun (h : e.Placed) {q : Path} {slot : Slot} {owner : Atom} {atoms : List Atom}
    (hb : IsBranch e.root q slot owner atoms) (offset : Int) {first last : Nat}
    (hf : first ≤ atoms.length) (hl : last < atoms.length) :
    (e.selectRun (q.child slot offset) first last).Placed := by
  have hs : (e.selectRun (q.child slot offset) first last).selection =
      ⟨q.child slot (first - 1), q.child slot last⟩ := by
    simp [Editor.selectRun]
  refine SelectsIn.placed ⟨hb, hs, ⟨?_, ?_⟩, isOffset_natCast hl⟩ h.formula
  · simp only [leadingGap]
    omega
  · omega

theorem Sound.selectRun (h : e.Sound) {q : Path} {slot : Slot} {owner : Atom} {atoms : List Atom}
    (hb : IsBranch e.root q slot owner atoms) (offset : Int) {first last : Nat}
    (hf : first ≤ atoms.length) (hl : last < atoms.length) :
    (e.selectRun (q.child slot offset) first last).Sound :=
  h.onlySelects ⟨rfl, rfl⟩ (h.placed.selectRun hb offset hf hl)

theorem Placed.selectContent (h : e.Placed) : e.selectContent.Placed := by
  unfold Editor.selectContent
  split
  · exact h
  · rename_i hne
    have hpos : 0 < e.root.body.length := List.length_pos_iff.2 (by simpa [atoms] using hne)
    exact h.selectRun h.formula.isBranch_body leadingGap (Nat.zero_le _) (Nat.sub_lt hpos Nat.zero_lt_one)

theorem onlySelects_selectContent (e : Editor) : e.OnlySelects e.selectContent := by
  unfold selectContent
  split <;> exact ⟨rfl, rfl⟩

theorem Sound.selectContent (h : e.Sound) : e.selectContent.Sound :=
  h.onlySelects (onlySelects_selectContent e) h.placed.selectContent

theorem atom?_take_of_lt {root : Atom} {p : Path} (h : IsPosition root p) {d : Nat}
    (hd : d < p.depth) : ∃ a, (p.take d).atom? root = some a := by
  obtain ⟨q, slot, offset, owner, atoms, rfl, hb, -⟩ := h
  have hle : d ≤ q.steps.length := by
    rw [Path.depth_child] at hd
    exact Nat.lt_succ_iff.1 hd
  have htake : ((q.child slot offset).take d).steps = q.steps.take d := by
    rw [Path.take, Path.steps_child, List.take_append_of_le_length hle]
  have hq : root.descend? (q.steps.take d ++ q.steps.drop d) = some owner := by
    rw [List.take_append_drop]
    exact hb.atom?_eq
  rw [Atom.descend?_append] at hq
  obtain ⟨a, ha, -⟩ := Option.bind_eq_some_iff.1 hq
  exact ⟨a, by rw [Path.atom?, htake, ha]⟩

/-- The owner of a branch, or the array around it, is an atom of a branch, unless it is the top. -/
theorem isAtomPosition_ownerOutsideGrid (hform : IsFormula e.root) {p : Path}
    (hp : IsPosition e.root p) (hr : (ownerOutsideGrid e.root p).isRoot = false) :
    IsAtomPosition e.root (ownerOutsideGrid e.root p) := by
  unfold ownerOutsideGrid at hr ⊢
  simp only at hr ⊢
  cases hf : ((List.range p.depth).reverse.map p.take).find? fun q =>
      !((q.atom? e.root).any fun a => a.kind == .row || a.kind == .cell) with
  | none =>
      rw [hf] at hr
      cases hr
  | some q =>
      rw [hf, Option.getD_some] at hr
      have hmem := List.mem_of_find?_eq_some hf
      have hkind := List.find?_some hf
      simp only [List.mem_map, List.mem_reverse, List.mem_range] at hmem
      obtain ⟨d, hd, rfl⟩ := hmem
      obtain ⟨a, ha⟩ := atom?_take_of_lt hp hd
      simp only [ha, Option.any_some, Bool.not_eq_true', Bool.or_eq_false_iff,
        beq_eq_false_iff_ne] at hkind
      obtain ⟨q', slot, i, owner, atoms, hq, hb, hi⟩ :=
        exists_isBranch hform.regular hr ha hkind.1 hkind.2
      rw [Option.getD_some, hq]
      exact hb.isAtomPosition (Atom.lt_length_of_getElem?_eq_some hi)

theorem Placed.selectOwner (h : e.Placed) {p : Path} (hp : IsPosition e.root p) (d : Direction) :
    (e.selectOwner p d).Placed := by
  unfold Editor.selectOwner
  cases hr : (ownerOutsideGrid e.root p).isRoot with
  | true => simpa [hr] using h.selectContent
  | false =>
      obtain ⟨q, slot, owner, atoms, i, hq, hb, hi⟩ :=
        isAtomPosition_ownerOutsideGrid h.formula hp hr
      have hbefore : IsOffset atoms ((i : Int) - 1) := by
        refine ⟨?_, by omega⟩
        simp only [leadingGap]
        omega
      simp only [hq, Path.isRoot_child, Bool.false_eq_true, if_false, Path.offset_child,
        Path.withOffset_child]
      cases d with
      | forward =>
          exact SelectsIn.placed ⟨hb, rfl, hbefore, isOffset_natCast hi⟩ h.formula
      | backward =>
          exact SelectsIn.placed ⟨hb, rfl, isOffset_natCast hi, hbefore⟩ h.formula

theorem onlySelects_selectOwner (e : Editor) (p : Path) (d : Direction) :
    e.OnlySelects (e.selectOwner p d) := by
  unfold selectOwner
  simp only
  split
  · exact onlySelects_selectContent e
  · cases d <;> exact ⟨rfl, rfl⟩

/-! ## Growing and extending -/

theorem Placed.growSelection (h : e.Placed) {q : Path} {slot : Slot} {owner : Atom}
    {atoms : List Atom} {anchor focus : Int}
    (hsel : e.SelectsIn q slot owner atoms anchor focus) : (e.growSelection atoms).Placed := by
  obtain ⟨hstart, hstop⟩ := hsel.startIndex_le
  have hfocus : e.selection.focus = q.child slot focus := by rw [hsel.selection_eq]
  have hcount := countAtStart_le (fun a => !isSeparator a) (atoms.drop e.selection.stopIndex)
  rw [List.length_drop] at hcount
  unfold Editor.growSelection
  simp only [hfocus]
  split
  · rename_i hrun
    simp only [Bool.and_eq_true, decide_eq_true_eq] at hrun
    exact h.selectRun hsel.branch focus (by omega) (by omega)
  · split
    · rename_i hne
      simp only [Bool.and_eq_true, Bool.not_eq_true', List.isEmpty_eq_false_iff] at hne
      have hpos := List.length_pos_iff.2 hne.1
      exact h.selectRun hsel.branch focus (Nat.zero_le _) (Nat.sub_lt hpos Nat.zero_lt_one)
    · exact h.selectOwner (hsel.branch.isPosition hsel.focus) .forward

theorem onlySelects_growSelection (e : Editor) (branch : List Atom) :
    e.OnlySelects (e.growSelection branch) := by
  unfold growSelection
  simp only
  split
  · exact ⟨rfl, rfl⟩
  split
  · exact ⟨rfl, rfl⟩
  · exact onlySelects_selectOwner ..

theorem Sound.growSelection (h : e.Sound) {q : Path} {slot : Slot} {owner : Atom}
    {atoms : List Atom} {anchor focus : Int}
    (hsel : e.SelectsIn q slot owner atoms anchor focus) : (e.growSelection atoms).Sound :=
  h.onlySelects (onlySelects_growSelection e atoms) (h.placed.growSelection hsel)

theorem Placed.extend (h : e.Placed) (d : Direction) : (e.extend d).Placed := by
  obtain ⟨q, slot, owner, atoms, anchor, focus, hsel⟩ := h.exists_selectsIn
  have hfocus : e.selection.focus = q.child slot focus := by rw [hsel.selection_eq]
  have hanchor : e.selection.anchor = q.child slot anchor := by rw [hsel.selection_eq]
  have hstep (next : Int) (d : Direction) :
      (if leadingGap ≤ next && next < (atoms.length : Nat) then
        { e with selection := ⟨q.child slot anchor, q.child slot next⟩ }
      else e.selectOwner (q.child slot focus) d).Placed := by
    split
    · rename_i hnext
      simp only [Bool.and_eq_true, decide_eq_true_eq] at hnext
      exact SelectsIn.placed ⟨hsel.branch, rfl, hsel.anchor, hnext⟩ h.formula
    · exact h.selectOwner (hsel.branch.isPosition hsel.focus) d
  unfold Editor.extend
  simp only [hfocus, hsel.branch.branch?, Path.offset_child, Path.withOffset_child, hanchor,
    Option.map_some, Option.getD_some]
  exact hstep _ d

theorem onlySelects_extend (e : Editor) (d : Direction) : e.OnlySelects (e.extend d) := by
  unfold extend
  cases d <;> simp only <;> split
  · exact ⟨rfl, rfl⟩
  · exact onlySelects_selectOwner ..
  · exact ⟨rfl, rfl⟩
  · exact onlySelects_selectOwner ..

theorem Sound.extend (h : e.Sound) (d : Direction) : (e.extend d).Sound :=
  h.onlySelects (onlySelects_extend e d) (h.placed.extend d)

/-! ## From one position to another -/

/-- Up to their common depth two positions run through the same branches. -/
theorem exists_of_lt_commonDepth {d : Nat} {steps steps' : List Step}
    (h : d < commonDepth steps steps') :
    ∃ above s t rest rest', steps = above ++ s :: rest ∧ steps' = above ++ t :: rest' ∧
      s.slot = t.slot ∧ above.length = d := by
  induction steps generalizing d steps' with
  | nil => simp [commonDepth] at h
  | cons s rest ih =>
      cases steps' with
      | nil => simp [commonDepth] at h
      | cons t rest' =>
          simp only [commonDepth] at h
          split at h
          · cases h
          · rename_i hslot
            have heq : s.slot = t.slot := Classical.not_not.1 hslot
            split at h
            · exact ⟨[], s, t, rest, rest', rfl, rfl, heq, by simp; omega⟩
            · rename_i hoffset
              cases d with
              | zero => exact ⟨[], s, t, rest, rest', rfl, rfl, heq, rfl⟩
              | succ d =>
                  obtain ⟨above, s', t', rest₁, rest₂, rfl, rfl, hs, hl⟩ :=
                    ih (Nat.lt_of_succ_lt_succ h)
                  refine ⟨s :: above, s', t', rest₁, rest₂, rfl, ?_, hs, by simp [hl]⟩
                  have : s = t := by
                    cases s
                    cases t
                    simp only [Step.mk.injEq]
                    exact ⟨heq, Classical.not_not.1 hoffset⟩
                  rw [this]
                  rfl

/-- Going up out of grids ends at the top level or below an atom that is no grid. -/
theorem depthOutsideGrids_succ (root : Atom) (p : Path) (d : Nat) :
    ∃ k, depthOutsideGrids root p (d + 1) = k + 1 ∧ k ≤ d ∧
      (k = 0 ∨ ((p.take k).atom? root).any (fun a => a.kind.isGrid) = false) := by
  induction d with
  | zero => exact ⟨0, rfl, Nat.le_refl 0, Or.inl rfl⟩
  | succ d ih =>
      simp only [depthOutsideGrids]
      split
      · obtain ⟨k, hk, hle, hg⟩ := ih
        exact ⟨k, hk, Nat.le_succ_of_le hle, hg⟩
      · rename_i hg
        exact ⟨d + 1, rfl, Nat.le_refl _, Or.inr (by simpa using hg)⟩

/-- A position has an offset in each branch that it runs through. -/
theorem isOffset_level {root : Atom} {q : Path} {s : Step} {rest : List Step}
    (h : IsPosition root ⟨q.steps ++ s :: rest⟩) :
    ∃ owner atoms, q.atom? root = some owner ∧ owner.branch s.slot = some atoms ∧
      let at' := BranchPosition.ofPath ⟨q.steps ++ s :: rest⟩ (q.steps.length + 1)
      IsOffset atoms at'.before ∧ IsOffset atoms at'.after := by
  have hof : BranchPosition.ofPath ⟨q.steps ++ s :: rest⟩ (q.steps.length + 1) =
      if rest = [] then .gap s.offset else .inside s.offset := by
    cases rest <;> simp [BranchPosition.ofPath, Path.depth]
  obtain ⟨q', slot, offset, owner, atoms, hp, hb, ho⟩ := h
  simp only [hof]
  rcases List.eq_nil_or_concat rest with rfl | ⟨rest, last, rfl⟩
  · obtain ⟨rfl, hlast⟩ : q = q' ∧ s = ⟨slot, offset⟩ := by
      have hsteps := congrArg Path.steps hp
      rw [Path.steps_child] at hsteps
      obtain ⟨hq, hl⟩ := List.append_inj' hsteps rfl
      cases q
      cases q'
      exact ⟨congrArg Path.mk hq, by simpa using hl⟩
    subst hlast
    exact ⟨owner, atoms, hb.atom?_eq, hb.branch_eq, by simpa [BranchPosition.before] using ho,
      by simpa [BranchPosition.after] using ho⟩
  · have hsteps : q.steps ++ s :: rest = q'.steps := by
      have hsteps := congrArg Path.steps hp
      rw [Path.steps_child, List.concat_eq_append, ← List.cons_append, ← List.append_assoc] at hsteps
      exact (List.append_inj' hsteps rfl).1
    have hd := hb.atom?_eq
    rw [Path.atom?, ← hsteps, Atom.descend?_append] at hd
    obtain ⟨a, ha, hd⟩ := Option.bind_eq_some_iff.1 hd
    obtain ⟨atoms', i, child, hbr, hi, hc, -⟩ := Atom.descend?_cons_eq_some hd
    have hlt := Atom.lt_length_of_getElem?_eq_some hc
    simp only [Step.index?] at hi
    split at hi
    · rename_i hnonneg
      cases hi
      have hne : rest.concat last ≠ [] := by simp
      refine ⟨a, atoms', ha, hbr, ?_⟩
      simp only [hne, if_false, BranchPosition.before, BranchPosition.after, IsOffset, leadingGap]
      omega
    · cases hi

/-- The lifted selection lies in the branch that both positions run through. -/
theorem liftedSelection_eq (q : Path) (s t : Step) (rest rest' : List Step) :
    ∃ x y, (liftedSelection ⟨q.steps ++ s :: rest⟩ ⟨q.steps ++ t :: rest'⟩ (q.steps.length + 1)) =
        ⟨q.child s.slot x, q.child s.slot y⟩ ∧
      let at' := BranchPosition.ofPath ⟨q.steps ++ s :: rest⟩ (q.steps.length + 1)
      let towards := BranchPosition.ofPath ⟨q.steps ++ t :: rest'⟩ (q.steps.length + 1)
      (x = at'.before ∨ x = at'.after) ∧
        (y = at'.before ∨ y = at'.after ∨ y = towards.before ∨ y = towards.after) := by
  have htake : (⟨q.steps ++ s :: rest⟩ : Path).take (q.steps.length + 1) =
      q.child s.slot s.offset := by
    simp [Path.take, Path.child, List.take_append, List.take_of_length_le]
  simp only [liftedSelection, htake, Path.withOffset_child]
  split
  · exact ⟨_, _, rfl, Or.inl rfl, Or.inr (Or.inr (Or.inr rfl))⟩
  · split
    · exact ⟨_, _, rfl, Or.inr rfl, Or.inr (Or.inr (Or.inl rfl))⟩
    · exact ⟨_, _, rfl, Or.inl rfl, Or.inr (Or.inl rfl)⟩

theorem Placed.liftedSelection (h : e.Placed) {anchor focus : Path} (ha : IsPosition e.root anchor)
    (hf : IsPosition e.root focus) {d k : Nat}
    (hd : commonDepth anchor.steps focus.steps = d + 1)
    (hk : k ≤ d)
    (hg : k = 0 ∨ ((anchor.take k).atom? e.root).any (fun a => a.kind.isGrid) = false) :
    { e with selection := FormulaEditor.liftedSelection anchor focus (k + 1) }.Placed := by
  have hlt : k < commonDepth anchor.steps focus.steps := by omega
  obtain ⟨above, s, t, rest, rest', hs, ht, hslot, rfl⟩ := exists_of_lt_commonDepth hlt
  obtain ⟨steps⟩ := anchor
  obtain ⟨steps'⟩ := focus
  dsimp only at hs ht
  subst hs ht
  obtain ⟨owner, atoms, ho, hb, hab, haa⟩ := isOffset_level (q := ⟨above⟩) ha
  obtain ⟨owner', atoms', ho', hb', hfb, hfa⟩ := isOffset_level (q := ⟨above⟩) hf
  cases ho.symm.trans ho'
  rw [← hslot] at hb'
  cases hb.symm.trans hb'
  have hgrid : owner.kind.isGrid = false := by
    rcases hg with hzero | hg
    · have hroot : above = [] := List.eq_nil_of_length_eq_zero hzero
      subst hroot
      cases ho
      rw [h.formula.kind_root]
      rfl
    · have htake : (⟨above ++ s :: rest⟩ : Path).take above.length = ⟨above⟩ := by
        simp [Path.take]
      rw [htake, ho] at hg
      exact hg
  have hbranch : IsBranch e.root ⟨above⟩ s.slot owner atoms := ⟨ho, hb, by simp [isGridBody, hgrid]⟩
  obtain ⟨x, y, hsel, hx, hy⟩ := liftedSelection_eq ⟨above⟩ s t rest rest'
  have hxo : IsOffset atoms x := by
    rcases hx with rfl | rfl
    · exact hab
    · exact haa
  have hyo : IsOffset atoms y := by
    rcases hy with rfl | rfl | rfl | rfl
    · exact hab
    · exact haa
    · exact hfb
    · exact hfa
  exact SelectsIn.placed ⟨hbranch, hsel, hxo, hyo⟩ h.formula

/-- Selecting from one position to another is carried out, or refused without any change. -/
theorem Placed.select (h : e.Placed) (anchor focus : Path) :
    ((e.select anchor focus).answer = .ok () ∧ (e.select anchor focus).state.Placed) ∨
      ∃ reason, e.select anchor focus = .refused e reason := by
  unfold Editor.select
  split
  · exact Or.inr ⟨_, rfl⟩
  split
  · exact Or.inr ⟨_, rfl⟩
  rename_i ha hf
  simp only [Bool.not_eq_true', Bool.not_eq_false] at ha hf
  rw [isPosition_iff] at ha hf
  split
  · obtain ⟨q, slot, offset, owner, atoms, rfl, hb, -⟩ := hf
    rw [Path.withOffset_child]
    exact Or.inl ⟨rfl, h.setCaret (hb.isPosition (isOffset_leadingGap atoms))⟩
  split
  · rename_i hsame
    obtain ⟨q, slot, offset, owner, atoms, rfl, hb, ho⟩ := ha
    obtain ⟨offset', rfl⟩ := Path.sameBranch_exists hsame
    obtain ⟨q', slot', offset'', owner', atoms', heq, hb', ho'⟩ := hf
    obtain ⟨rfl, rfl, rfl⟩ := Path.child_injective heq
    obtain ⟨rfl, rfl⟩ := hb.unique hb'
    exact Or.inl ⟨rfl, SelectsIn.placed ⟨hb, rfl, ho, ho'⟩ h.formula⟩
  simp only
  cases hd : commonDepth anchor.steps focus.steps with
  | zero => exact Or.inr ⟨_, rfl⟩
  | succ d =>
      obtain ⟨k, hk, hle, hg⟩ := depthOutsideGrids_succ e.root anchor d
      rw [hk, if_neg (Nat.succ_ne_zero k)]
      exact Or.inl ⟨rfl, h.liftedSelection ha hf hd hle hg⟩

theorem onlySelects_select (e : Editor) (anchor focus : Path) :
    e.OnlySelects (e.select anchor focus).state := by
  unfold select
  simp only
  repeat' split
  all_goals exact ⟨rfl, rfl⟩

theorem Sound.select (h : e.Sound) (anchor focus : Path) :
    ((e.select anchor focus).answer = .ok () ∧ (e.select anchor focus).state.Sound) ∨
      ∃ reason, e.select anchor focus = .refused e reason :=
  (h.placed.select anchor focus).imp_left fun ⟨hanswer, hplaced⟩ =>
    ⟨hanswer, h.onlySelects (onlySelects_select e anchor focus) hplaced⟩

end FormulaEditor.Editor

import FormulaEditor.Editor.Scripts
import FormulaEditor.Proofs.Editor.Inserting

/-!
# Scripts keep an editor sound

A script is attached to an atom that may carry one: the atom before the caret or the selection, or
else a placeholder that is put there. The script holds a placeholder until something is moved or
typed into it, so that no branch is left empty.
-/

namespace FormulaEditor

namespace Atom

theorem allowsSlot_of_isScript {k : Kind} {slot : Slot} (h : slot.isScript = true) :
    k.allowsSlot slot = k.allowsScripts := by
  cases slot <;> first | rfl | cases h

theorem ensureBranch_of_isScript {a : Atom} {slot : Slot} (hs : slot.isScript = true)
    (hk : a.kind.allowsScripts = true) (filler : Nat) :
    a.ensureBranch slot filler =
      if a.branch slot = none then a.putBranch slot (some [placeholder filler]) else a := by
  cases slot with
  | superscript => simp [ensureBranch, hk]
  | subscript => simp [ensureBranch, hk]
  | _ => cases hs

/-- An atom that may carry a script has it afterwards. -/
theorem exists_branch_ensureBranch {a : Atom} {slot : Slot} (hs : slot.isScript = true)
    (hk : a.kind.allowsScripts = true) (filler : Nat) :
    (a.ensureBranch slot filler).kind = a.kind ∧
      ∃ script, (a.ensureBranch slot filler).branch slot = some script := by
  rw [ensureBranch_of_isScript hs hk]
  cases hb : a.branch slot with
  | none =>
      rw [if_pos rfl]
      exact ⟨rfl, _, branch_putBranch_self _ _ _⟩
  | some script =>
      rw [if_neg (by simp)]
      exact ⟨rfl, script, hb⟩

theorem isWellFormed_ensureBranch {a : Atom} {slot : Slot} (hw : a.isWellFormed = true)
    (hs : slot.isScript = true) (hk : a.kind.allowsScripts = true) (filler : Nat) :
    (a.ensureBranch slot filler).isWellFormed = true := by
  rw [ensureBranch_of_isScript hs hk]
  split
  · refine isWellFormed_putBranch hw ⟨?_, by simp, fun b _ => ?_, ?_⟩
    · rwa [allowsSlot_of_isScript hs]
    · exact Kind.admits_of_not_isGrid (isGridBody_of_isScript a.kind hs) b.kind
    · simp [isWellFormed_placeholder]
  · exact hw

theorem Regular.ensureBranch {a : Atom} {slot : Slot} (h : a.Regular) (hs : slot.isScript = true)
    (hk : a.kind.allowsScripts = true) (filler : Nat) : (a.ensureBranch slot filler).Regular := by
  rw [ensureBranch_of_isScript hs hk]
  split
  · refine h.putBranch (branchRegular_of_not_grid ?_ (isGridBody_of_isScript a.kind hs) ?_)
    · rwa [allowsSlot_of_isScript hs]
    · simp [regular_placeholder]
  · exact h

end Atom

namespace Editor

variable {e : Editor}

/-! ## What the operations do -/

section

variable {q : Path} {slot inner : Slot} {owner a : Atom} {atoms : List Atom} {i : Nat}
  {offset anchor focus : Int}

theorem getElem?_splice_singleton {start : Nat} (h : start ≤ atoms.length) (stop : Nat) (a : Atom) :
    (splice atoms start stop [a])[start]? = some a := by
  simp [splice, Nat.min_eq_left h]

/-- An atom of a branch that may carry the script gets it, unless it has it. -/
theorem ensureScript_eq (hb : IsBranch e.root q inner owner atoms) (hi : atoms[i]? = some a)
    (hk : a.kind.allowsScripts = true) (hs : slot.isScript = true) :
    ∃ script e', e.ensureScript (q.child inner i) slot = (some script, e') ∧
      e'.root = q.fill inner (atoms.set i (a.ensureBranch slot e.supply)) e.root ∧
      IsBranch e'.root (q.child inner i) slot (a.ensureBranch slot e.supply) script := by
  obtain ⟨-, script, hscript⟩ := Atom.exists_branch_ensureBranch hs hk e.supply
  have hlt := Atom.lt_length_of_getElem?_eq_some hi
  have hroot := Path.modifyAtom_child hb hi fun a => a.ensureBranch slot e.supply
  have hat : (q.child inner i).atom? (q.fill inner (atoms.set i (a.ensureBranch slot e.supply))
      e.root) = some (a.ensureBranch slot e.supply) := by
    rw [(hb.fill _).atom?, List.getElem?_set_self hlt]
  refine ⟨script, { e with root := q.fill inner (atoms.set i (a.ensureBranch slot e.supply)) e.root
                           supply := e.supply + 1 }, ?_, rfl, hat, hscript,
    Atom.isGridBody_of_isScript _ hs⟩
  simp only [Editor.ensureScript, mint, newIdentity_apply, withRoot, hroot, hat, Option.bind_some,
    hscript]

/-- What may carry a script at a gap stands there already, or a placeholder is put there. -/
theorem scriptBase_cases (hb : IsBranch e.root q inner owner atoms) (ho : IsOffset atoms offset) :
    (∃ a, ∃ i : Nat, atoms[i]? = some a ∧ a.kind.allowsScripts = true ∧
      e.scriptBase (q.child inner offset) = (q.child inner i, e)) ∨
    ∃ i : Nat, i ≤ atoms.length ∧
      e.scriptBase (q.child inner offset) = (q.child inner i,
        (e.mint Atom.newPlaceholder).2.putBranch (q.child inner offset)
          (splice atoms i i [Atom.placeholder e.supply])) := by
  unfold scriptBase
  split
  · rename_i hany
    obtain ⟨a, ha, hk⟩ := (Option.any_eq_true ..).1 hany
    obtain ⟨i, rfl, hi⟩ := hb.exists_of_atom?_child ha
    exact .inl ⟨a, i, hi, hk, rfl⟩
  · simp only [hb.branch?, Path.withOffset_child, Path.offset_child]
    split
    · rename_i hlone
      obtain ⟨a, rfl, hplaceholder, -⟩ := isPlaceholderOnly_iff.1 hlone
      have hk : a.kind = .placeholder := beq_iff_eq.1 hplaceholder
      exact .inl ⟨a, 0, rfl, by rw [hk]; rfl, rfl⟩
    · have hle : (offset + 1).toNat ≤ atoms.length := by
        have hlt := ho.2
        omega
      exact .inr ⟨_, hle, rfl⟩

/-- What may carry the script of a selection stands before it, or a placeholder takes its place. -/
theorem SelectsIn.takeForScript_cases (h : e.SelectsIn q inner owner atoms anchor focus) :
    (∃ a, ∃ i : Nat,
      (splice atoms e.selection.startIndex e.selection.stopIndex [])[i]? = some a ∧
      a.kind.allowsScripts = true ∧
      e.takeForScript atoms = (q.child inner i, e.putBranch (q.child inner i)
        (splice atoms e.selection.startIndex e.selection.stopIndex []))) ∨
    e.selection.startIndex ≤ atoms.length ∧
      e.takeForScript atoms = (q.child inner e.selection.startIndex,
        (e.mint Atom.newPlaceholder).2.putBranch (q.child inner (min anchor focus))
          (splice atoms e.selection.startIndex e.selection.stopIndex
            [Atom.placeholder e.supply])) := by
  obtain ⟨hstart, -, -, -⟩ := h.start_stop
  obtain ⟨hle, hlen⟩ := h.startIndex_le
  obtain ⟨hindex, -⟩ := h.indices
  unfold takeForScript
  simp only [hstart]
  split
  · rename_i hany
    obtain ⟨a, ha, hk⟩ := (Option.any_eq_true ..).1 hany
    obtain ⟨i, hi, ha⟩ := h.branch.exists_of_atom?_child ha
    rw [hi] at hindex ⊢
    have hlt : i < e.selection.startIndex := by omega
    refine .inl ⟨a, i, ?_, hk, rfl⟩
    rw [splice, List.append_nil, List.getElem?_append_left (by simp; omega),
      List.getElem?_take_of_lt hlt, ha]
  · rw [Path.withOffset_child]
    exact .inr ⟨Nat.le_trans hle hlen, rfl⟩

end

/-! ## Giving an atom a script -/

/-- At the path stands an atom of a branch that may carry scripts. -/
structure HasBase (e : Editor) (base : Path) : Prop where
  kind_root : e.root.kind = .root
  isWellFormed : e.root.isWellFormed = true
  exists_base : ∃ q slot owner atoms a, ∃ i : Nat, base = q.child slot i ∧
    IsBranch e.root q slot owner atoms ∧ atoms[i]? = some a ∧ a.kind.allowsScripts = true

theorem Opened.hasBase {root : Atom} {q : Path} {slot : Slot} {owner a : Atom}
    {atoms content : List Atom} (h : e.Opened root q slot owner atoms content) {i : Nat}
    (hi : content[i]? = some a) (hk : a.kind.allowsScripts = true) : e.HasBase (q.child slot i) := by
  have hlt := Atom.lt_length_of_getElem?_eq_some hi
  exact ⟨h.kind_root_eq, h.isWellFormed_root fun _ => List.ne_nil_of_length_pos (by omega),
    q, slot, _, content, a, i, rfl, h.isBranch, hi, hk⟩

theorem Opened.putPlaceholder {root : Atom} {q : Path} {slot : Slot} {owner : Atom}
    {atoms content : List Atom} (h : e.Opened root q slot owner atoms content) (offset : Int)
    (start stop : Nat) :
    ((e.mint Atom.newPlaceholder).2.putBranch (q.child slot offset)
        (splice content start stop [Atom.placeholder e.supply])).Opened root q slot owner atoms
      (splice content start stop [Atom.placeholder e.supply]) := by
  have hminted : (e.mint Atom.newPlaceholder).2.Opened root q slot owner atoms content :=
    h.of_root_eq rfl
  exact hminted.putBranch offset
    (isWellFormed_splice h.wellFormed (by simp [Atom.isWellFormed_placeholder]))

/-- The base gets the script, unless it has it. -/
theorem HasBase.ensureScript {base : Path} (h : e.HasBase base) {slot : Slot}
    (hs : slot.isScript = true) :
    ∃ script e' a, e.ensureScript base slot = (some script, e') ∧ e'.root.kind = .root ∧
      e'.root.isWellFormed = true ∧ IsBranch e'.root base slot a script := by
  obtain ⟨q, slot', owner, atoms, a, i, rfl, hb, hi, hk⟩ := h.exists_base
  have hbranch := hb.wellFormed h.isWellFormed
  have hw := Atom.isWellFormed_ensureBranch (hbranch.wellFormed a (List.mem_of_getElem? hi)) hs hk
    e.supply
  have hset := hbranch.set hi (Atom.exists_branch_ensureBranch hs hk e.supply).1 hw
  obtain ⟨script, e', hensure, hroot, hscript⟩ := ensureScript_eq hb hi hk hs
  refine ⟨script, e', _, hensure, ?_, ?_, hscript⟩
  · rw [hroot]
    exact (hb.kind_fill _).trans h.kind_root
  · rw [hroot]
    exact hb.isWellFormed_fill h.isWellFormed hset.filled hset.wellFormed

/-! ## Entering a script -/

theorem Sound.hasBase_scriptBase (h : e.Sound) :
    (e.scriptBase e.caret).2.HasBase (e.scriptBase e.caret).1 := by
  obtain ⟨q, slot, offset, owner, atoms, hp, hb, ho⟩ := h.caret
  have hopened := h.opened hb
  rw [hp]
  rcases scriptBase_cases hb ho with ⟨a, i, hi, hk, heq⟩ | ⟨i, hle, heq⟩
  · rw [heq]
    exact hopened.hasBase hi hk
  · rw [heq]
    exact (hopened.putPlaceholder offset i i).hasBase (getElem?_splice_singleton hle i _) rfl

theorem Sound.enterScript (h : e.Sound) {slot : Slot} (hs : slot.isScript = true) :
    CarriedOut (e.enterScript slot) := by
  obtain ⟨script, e', a, hensure, hk, hw, hb⟩ :=
    (h.collapse .forward).hasBase_scriptBase.ensureScript hs
  unfold Editor.enterScript
  simp only [hensure]
  exact carriedOut_done (sound_setCaret hk hw (hb.isPosition (isOffset_lastOffset script)))

/-! ## Moving a selection into a script -/

theorem SelectsIn.startIndex_lt {q : Path} {slot : Slot} {owner : Atom} {atoms : List Atom}
    {anchor focus : Int} (h : e.SelectsIn q slot owner atoms anchor focus)
    (hne : ¬e.selection.isCollapsed = true) : e.selection.startIndex < e.selection.stopIndex := by
  obtain ⟨hstart, hstop⟩ := h.indices
  have hoffset : anchor ≠ focus := by
    rintro rfl
    rw [h.selection_eq] at hne
    exact hne (beq_self_eq_true _)
  omega

theorem Sound.hasBase_takeForScript (h : e.Sound) {q : Path} {slot : Slot} {owner : Atom}
    {atoms : List Atom} {anchor focus : Int} (hsel : e.SelectsIn q slot owner atoms anchor focus) :
    (e.takeForScript atoms).2.HasBase (e.takeForScript atoms).1 := by
  have hopened := h.opened hsel.branch
  rcases hsel.takeForScript_cases with ⟨a, i, hi, hk, heq⟩ | ⟨hle, heq⟩
  · rw [heq]
    exact (hopened.remove i e.selection.startIndex e.selection.stopIndex).hasBase hi hk
  · rw [heq]
    exact (hopened.putPlaceholder (min anchor focus) _ _).hasBase
      (getElem?_splice_singleton hle _ _) rfl

theorem Sound.promote (h : e.Sound) {slot : Slot} (hs : slot.isScript = true) :
    CarriedOut (e.promote slot) := by
  unfold Editor.promote
  split
  · exact h.enterScript hs
  · rename_i hne
    obtain ⟨q, slot', owner, atoms, anchor, focus, hsel⟩ := h.exists_selectsIn
    obtain ⟨hstart, -, -, -⟩ := hsel.start_stop
    obtain ⟨-, hlen⟩ := hsel.startIndex_le
    have hlt := hsel.startIndex_lt hne
    have hmoved := isWellFormed_slice (hsel.branch.wellFormed h.isWellFormed).wellFormed
      e.selection.startIndex e.selection.stopIndex
    have hmoved_ne : slice atoms e.selection.startIndex e.selection.stopIndex ≠ [] := by
      apply List.ne_nil_of_length_pos
      simp only [slice, List.length_drop, List.length_take]
      omega
    obtain ⟨script, e', a, hensure, hk, hw, hb⟩ := (h.hasBase_takeForScript hsel).ensureScript hs
    simp only [hstart, hsel.branch.branch?, hensure]
    generalize hcontent : (if isPlaceholderOnly script then
      slice atoms e.selection.startIndex e.selection.stopIndex
      else script ++ slice atoms e.selection.startIndex e.selection.stopIndex) = content
    have hwf : ∀ b ∈ content, b.isWellFormed = true := by
      rw [← hcontent]
      split
      · exact hmoved
      · intro b hmem
        exact (List.mem_append.1 hmem).elim ((hb.wellFormed hw).wellFormed b) (hmoved b)
    have hcontent_ne : content ≠ [] := by
      rw [← hcontent]
      split
      · exact hmoved_ne
      · simp [hmoved_ne]
    have hopened := (opened_self hk hw hb).putBranch (lastOffset content) hwf
    exact carriedOut_done (sound_setCaret hopened.kind_root_eq
      (hopened.isWellFormed_root fun _ => hcontent_ne)
      (hopened.isBranch.isPosition (isOffset_lastOffset content)))

end Editor

end FormulaEditor

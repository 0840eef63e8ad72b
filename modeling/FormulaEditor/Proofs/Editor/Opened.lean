import FormulaEditor.Proofs.Editor.Sound

/-!
# Opened branches

While a branch is edited it may be empty although it must not stay so. The formula is then a
well-formed one with other atoms in that branch. Whatever is put there next, the rest of the formula
is the same; once the branch is settled or holds what it needs, the formula is well formed again.
-/

namespace FormulaEditor.Editor

/-- The formula of the editor is the well-formed formula `root` with `content` in place of the
branch `atoms`. -/
structure Opened (e : Editor) (root : Atom) (q : Path) (slot : Slot) (owner : Atom)
    (atoms content : List Atom) : Prop where
  kind_root : root.kind = .root
  isWellFormed : root.isWellFormed = true
  branch : IsBranch root q slot owner atoms
  root_eq : e.root = q.fill slot content root
  wellFormed : ∀ a ∈ content, a.isWellFormed = true

theorem opened_self {e : Editor} (hk : e.root.kind = .root) (hw : e.root.isWellFormed = true)
    {q : Path} {slot : Slot} {owner : Atom} {atoms : List Atom}
    (hb : IsBranch e.root q slot owner atoms) : e.Opened e.root q slot owner atoms atoms :=
  ⟨hk, hw, hb, hb.fill_self.symm, (hb.wellFormed hw).wellFormed⟩

theorem Sound.opened {e : Editor} (h : e.Sound) {q : Path} {slot : Slot} {owner : Atom}
    {atoms : List Atom} (hb : IsBranch e.root q slot owner atoms) :
    e.Opened e.root q slot owner atoms atoms :=
  opened_self h.kind_root h.isWellFormed hb

/-- Settling a branch does not change what kind of atom owns it. -/
theorem exists_owner_settleCaret {e : Editor} {q : Path} {owner : Atom}
    (hq : q.atom? e.root = some owner) (slot : Slot) (at' offset : Int) :
    ∃ a, q.atom? (e.settleCaret (q.child slot at') offset).root = some a ∧ a.kind = owner.kind := by
  unfold settleCaret settle
  simp only [Path.slot?_child, Path.owner?_child, hq, Path.modifyOwner_child]
  split
  · split
    · refine ⟨_, Path.atom?_modifyAtom hq _, ?_⟩
      unfold Atom.removeBranch
      split <;> rfl
    · exact ⟨_, Path.atom?_modifyAtom hq _, Atom.kind_setBranch_getD ..⟩
  · exact ⟨owner, hq, rfl⟩

/-- What is in the branch after it was settled can be edited as before. -/
theorem isBranch_settleCaret {e : Editor} {q : Path} {slot : Slot} {owner : Atom}
    {atoms : List Atom} (h : IsBranch e.root q slot owner atoms) (at' offset : Int)
    {branch : List Atom} {offset' : Int}
    (hb : (q.child slot offset').branch? (e.settleCaret (q.child slot at') offset).root =
      some branch) :
    ∃ a, IsBranch (e.settleCaret (q.child slot at') offset).root q slot a branch := by
  obtain ⟨a, ha, hk⟩ := exists_owner_settleCaret h.atom?_eq slot at' offset
  rw [Path.branch?_child, ha] at hb
  exact ⟨a, ha, hb, hk ▸ h.not_grid⟩

namespace Opened

variable {e : Editor} {root : Atom} {q : Path} {slot : Slot} {owner : Atom}
  {atoms content : List Atom}

theorem isBranch (h : e.Opened root q slot owner atoms content) :
    IsBranch e.root q slot (owner.putBranch slot (some content)) content :=
  h.root_eq ▸ h.branch.fill content

theorem branch? (h : e.Opened root q slot owner atoms content) (offset : Int) :
    (q.child slot offset).branch? e.root = some content :=
  h.isBranch.branch? offset

theorem of_root_eq (h : e.Opened root q slot owner atoms content) {e' : Editor}
    (he : e'.root = e.root) : e'.Opened root q slot owner atoms content :=
  ⟨h.kind_root, h.isWellFormed, h.branch, he.trans h.root_eq, h.wellFormed⟩

/-- Filling an opened branch opens it with the new content. -/
theorem putBranch (h : e.Opened root q slot owner atoms content) (offset : Int)
    {content' : List Atom} (hc : ∀ a ∈ content', a.isWellFormed = true) :
    (e.putBranch (q.child slot offset) content').Opened root q slot owner atoms content' := by
  refine ⟨h.kind_root, h.isWellFormed, h.branch, ?_, hc⟩
  show (q.child slot offset).putBranch content' e.root = _
  rw [Path.putBranch_child h.isBranch, h.root_eq, h.branch.fill_fill]

theorem setCaret (h : e.Opened root q slot owner atoms content) (p : Path) :
    (e.setCaret p).Opened root q slot owner atoms content :=
  h.of_root_eq rfl

/-- Changing an opened branch opens it with the changed content. -/
theorem modifyBranch (h : e.Opened root q slot owner atoms content) (offset : Int)
    {f : List Atom → List Atom} (hc : ∀ a ∈ f content, a.isWellFormed = true) :
    (e.withRoot ((q.child slot offset).modifyBranch f e.root)).Opened root q slot owner atoms
      (f content) := by
  refine ⟨h.kind_root, h.isWellFormed, h.branch, ?_, hc⟩
  show (q.child slot offset).modifyBranch f e.root = _
  rw [Path.modifyBranch_child h.isBranch, h.root_eq, h.branch.fill_fill]

theorem kind_root_eq (h : e.Opened root q slot owner atoms content) : e.root.kind = .root := by
  rw [h.root_eq, h.branch.kind_fill, h.kind_root]

theorem isWellFormed_root (h : e.Opened root q slot owner atoms content)
    (hf : owner.kind.fillsSlot slot = true → content ≠ []) : e.root.isWellFormed = true :=
  h.root_eq ▸ h.branch.isWellFormed_fill h.isWellFormed hf h.wellFormed

/-- An opened branch that holds what it needs makes the editor sound. -/
theorem sound (h : e.Opened root q slot owner atoms content)
    (hf : owner.kind.fillsSlot slot = true → content ≠ []) {anchor focus : Int}
    (hs : e.selection = ⟨q.child slot anchor, q.child slot focus⟩) (ha : IsOffset content anchor)
    (hfo : IsOffset content focus) : e.Sound :=
  SelectsIn.sound ⟨h.isBranch, hs, ha, hfo⟩ h.kind_root_eq (h.isWellFormed_root hf)

theorem sound_of_ne_nil (h : e.Opened root q slot owner atoms content) (hne : content ≠ [])
    {anchor focus : Int} (hs : e.selection = ⟨q.child slot anchor, q.child slot focus⟩)
    (ha : IsOffset content anchor) (hfo : IsOffset content focus) : e.Sound :=
  h.sound (fun _ => hne) hs ha hfo

/-- The owner of an optional branch stands in a branch of its own, which is refilled when the
optional branch goes. -/
theorem exists_removed (h : e.Opened root q slot owner atoms content)
    (hs : slot.isOptional = true) :
    ∃ q' slot' i owner' atoms', q = q'.child slot' (i : Nat) ∧
      IsBranch root q' slot' owner' atoms' ∧ atoms'[i]? = some owner ∧
      q.modifyAtom (fun a => (a.removeBranch slot).2) e.root =
        q'.fill slot' (atoms'.set i (owner.putBranch slot none)) root := by
  have hallowed := (h.branch.wellFormed h.isWellFormed).allowed
  obtain ⟨hroot, hrow, hcell⟩ := Kind.ne_of_allowsSlot hallowed hs
  have hform := isFormula_of_isWellFormed h.kind_root h.isWellFormed
  have hq := hform.isRoot_eq_false h.branch.atom?_eq hroot
  obtain ⟨q', slot', i, owner', atoms', rfl, hb, hi⟩ :=
    exists_isBranch hform.regular hq h.branch.atom?_eq hrow hcell
  refine ⟨q', slot', i, owner', atoms', rfl, hb, hi, ?_⟩
  rw [h.root_eq, Path.fill, Path.modifyAtom_modifyAtom h.branch.atom?_eq,
    Path.modifyAtom_child hb hi]
  simp [Atom.removeBranch, hs]

/-- An emptied branch that stays is refilled with what it needs. -/
theorem refill_eq (h : e.Opened root q slot owner atoms []) (hs : slot.isOptional = false)
    (filler : Nat) :
    q.modifyAtom (fun a => (a.setBranch slot [] filler).getD a) e.root =
      q.fill slot (if owner.requiresContent slot then [Atom.placeholder filler] else []) root := by
  have hpresent : (owner.putBranch slot (some [])).branch slot = some [] :=
    Atom.branch_putBranch_self _ _ _
  have hset : (owner.putBranch slot (some [])).setBranch slot [] filler =
      some (owner.putBranch slot
        (some (if owner.requiresContent slot then [Atom.placeholder filler] else []))) := by
    have hrequires : (owner.putBranch slot (some [])).requiresContent slot =
        owner.requiresContent slot := by
      cases slot <;> rfl
    simp only [Atom.setBranch, hs, hrequires, hpresent, List.isEmpty_nil, Bool.and_false,
      Bool.true_and, Bool.false_eq_true, if_false, Atom.putBranch_putBranch]
    cases slot <;> first | rfl | cases hs
  rw [h.root_eq, Path.fill, Path.modifyAtom_modifyAtom h.branch.atom?_eq]
  exact Path.modifyAtom_congr h.branch.atom?_eq (by rw [hset]; rfl)

/-- Settling an opened branch makes the editor sound, whatever is left in the branch. -/
theorem sound_settleCaret (h : e.Opened root q slot owner atoms content) (at' : Int) {offset : Int}
    (ho : content ≠ [] → IsOffset content offset) :
    (e.settleCaret (q.child slot at') offset).Sound := by
  cases content with
  | cons a rest =>
      rw [settleCaret_of_ne_nil h.isBranch (List.cons_ne_nil a rest)]
      exact sound_setCaret h.kind_root_eq (h.isWellFormed_root fun _ => List.cons_ne_nil a rest)
        (h.isBranch.isPosition (ho (List.cons_ne_nil a rest)))
  | nil =>
      cases hs : slot.isOptional with
      | true =>
          rw [settleCaret_of_isOptional h.isBranch hs]
          obtain ⟨q', slot', i, owner', atoms', rfl, hb, hi, hroot⟩ := h.exists_removed hs
          have howner := h.branch.isWellFormed_owner h.isWellFormed
          have hset := (hb.wellFormed h.isWellFormed).set hi (c := owner.putBranch slot none) rfl
            (Atom.isWellFormed_putBranch_none howner hs)
          have hlt := Atom.lt_length_of_getElem?_eq_some hi
          have hbranch := hroot ▸ hb.fill (atoms'.set i (owner.putBranch slot none))
          refine sound_setCaret ?_ ?_ (hbranch.isPosition (isOffset_natCast (by simpa using hlt)))
          · exact hroot ▸ (hb.kind_fill _).trans h.kind_root
          · exact hroot ▸ hb.isWellFormed_fill h.isWellFormed hset.filled hset.wellFormed
      | false =>
          rw [settleCaret_of_not_isOptional h.isBranch hs]
          have hroot := h.refill_eq hs e.supply
          have hfill : owner.kind.fillsSlot slot = true →
              (if owner.requiresContent slot then [Atom.placeholder e.supply] else []) ≠ [] := by
            cases slot <;> simp_all [Slot.isOptional, Kind.fillsSlot, Atom.requiresContent]
          have hcontent : ∀ a ∈ (if owner.requiresContent slot then
              [Atom.placeholder e.supply] else []), a.isWellFormed = true := by
            split <;> simp [Atom.isWellFormed_placeholder]
          refine sound_setCaret ?_ ?_ (IsBranch.isPosition (hroot ▸ h.branch.fill _) (isOffset_leadingGap _))
          · exact hroot ▸ (h.branch.kind_fill _).trans h.kind_root
          · exact hroot ▸ h.branch.isWellFormed_fill h.isWellFormed hfill hcontent

end Opened

end FormulaEditor.Editor

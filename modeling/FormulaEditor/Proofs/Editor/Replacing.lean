import FormulaEditor.Proofs.Editor.Placing

/-!
# Taking out and inserting

Some operations take atoms out of the branch of the caret, settle the branch, and insert a fragment
where the caret is then. This replaces the atoms in their branch as long as settling keeps the
branch. An optional branch in which nothing else was is dissolved: the fragment goes behind the atom
that owned it, so the formula is never the one with the atoms replaced.
-/

namespace FormulaEditor

theorem slice_append_append {α : Type} (xs ys zs : List α) :
    slice (xs ++ ys ++ zs) xs.length (xs.length + ys.length) = ys := by
  rw [slice, ← List.length_append, List.take_left, List.drop_left]

theorem splice_append_append {α : Type} (xs ys zs middle : List α) :
    splice (xs ++ ys ++ zs) xs.length (xs.length + ys.length) middle = xs ++ middle ++ zs := by
  rw [splice, List.append_assoc xs, List.take_left, ← List.append_assoc, ← List.length_append,
    List.drop_left]

namespace Editor

/-! ## The atoms around a gap -/

/-- The atoms before the gap at which an insertion goes. A lone placeholder counts as nothing. -/
def beforeGap (p : Path) (content : List Atom) : List Atom :=
  (insertionPoint p content).2.take (insertionPoint p content).1

/-- The atoms behind the gap at which an insertion goes. -/
def afterGap (p : Path) (content : List Atom) : List Atom :=
  (insertionPoint p content).2.drop (insertionPoint p content).1

section

variable {e e₀ : Editor} {root owner : Atom} {q : Path} {slot : Slot}
  {atoms content before after inserted : List Atom} {offset offset₀ at' : Int} {fragment : String}
  {mode : SelectionMode}

theorem withInserted_eq (p : Path) (content inserted : List Atom) :
    withInserted content p inserted = beforeGap p content ++ inserted ++ afterGap p content := rfl

theorem gap_of_isPlaceholderOnly (p : Path) (h : isPlaceholderOnly content = true) :
    beforeGap p content = [] ∧ afterGap p content = [] := by
  simp [beforeGap, afterGap, insertionPoint, h]

/-- Unless there is a placeholder only, the atoms around the gap are all of the branch. -/
theorem gap_of_not_isPlaceholderOnly (q : Path) (slot : Slot)
    (h : isPlaceholderOnly content = false) (ho : IsOffset content offset) :
    beforeGap (q.child slot offset) content ++ afterGap (q.child slot offset) content = content ∧
      ((beforeGap (q.child slot offset) content).length : Int) - 1 = offset := by
  obtain ⟨hl, hr⟩ := ho
  simp only [leadingGap] at hl
  simp only [beforeGap, afterGap, insertionPoint, h, Bool.false_eq_true, if_false,
    Path.offset_child, List.take_append_drop, List.length_take, true_and]
  omega

theorem isPlaceholderOnly_gap (ho : IsOffset content offset) :
    isPlaceholderOnly (beforeGap (q.child slot offset) content ++
      afterGap (q.child slot offset) content) = false := by
  cases h : isPlaceholderOnly content with
  | true =>
      obtain ⟨hbefore, hafter⟩ := gap_of_isPlaceholderOnly (q.child slot offset) h
      rw [hbefore, hafter]
      rfl
  | false => rwa [(gap_of_not_isPlaceholderOnly q slot h ho).1]

/-- An insertion between atoms that are more than a placeholder. -/
theorem insertionPoint_append (h : isPlaceholderOnly (before ++ after) = false) :
    insertionPoint (q.child slot ((before.length : Int) - 1)) (before ++ after) =
      (before.length, before ++ after) := by
  unfold insertionPoint
  rw [h, Path.offset_child, Int.sub_add_cancel, Int.toNat_natCast]
  rfl

theorem gap_append (q : Path) (slot : Slot) (h : isPlaceholderOnly (before ++ after) = false) :
    beforeGap (q.child slot ((before.length : Int) - 1)) (before ++ after) = before ∧
      afterGap (q.child slot ((before.length : Int) - 1)) (before ++ after) = after := by
  rw [beforeGap, afterGap, insertionPoint_append h, List.take_left, List.drop_left]
  exact ⟨rfl, rfl⟩

theorem withInserted_append (h : isPlaceholderOnly (before ++ after) = false) :
    withInserted (before ++ after) (q.child slot ((before.length : Int) - 1)) inserted =
      before ++ inserted ++ after := by
  rw [withInserted, insertionPoint_append h, splice, List.take_left, List.drop_left]

theorem isOffset_length_sub_one (before after : List Atom) :
    IsOffset (before ++ after) ((before.length : Int) - 1) := by
  refine ⟨?_, ?_⟩
  · simp only [leadingGap]
    omega
  · rw [List.length_append]
    omega

/-! ## A branch that stays -/

/-- If its branch stays, the fragment is inserted where the atoms were taken out. -/
theorem Opened.root_insert_settleCaret
    (h₀ : e₀.OpenedAtCaret root q slot owner atoms content offset₀)
    (h : e.Opened root q slot owner atoms (before ++ after))
    (hlone : isPlaceholderOnly (before ++ after) = false)
    (hkeep : before ++ after = [] → slot.isOptional = false)
    (hf : takesImplicitArgument fragment.toList = false) :
    ((e.settleCaret (q.child slot at') ((before.length : Int) - 1)).insert fragment
        (InsertOptions.latex mode)).state.root.bare =
      (q.fill slot (if e₀.reading fragment = [] then settled owner slot 0 (before ++ after)
        else before ++ e₀.reading fragment ++ after) root).bare := by
  have hoffset := isOffset_length_sub_one before after
  have hsettled := h.openedAtCaret_settleCaret at' hoffset hkeep
  have hsound := h.sound_settleCaret at' fun _ => hoffset
  obtain ⟨e₁, hr₁, hs₁, he₁⟩ := hsettled.insert_eq hsound hf mode
  have hread := map_bare_reading (hsettled.inText_eq h₀) fragment
  generalize e.settleCaret (q.child slot at') ((before.length : Int) - 1) = e' at *
  have h₁ := hsettled.of_eq hr₁ hs₁
  rw [he₁]
  by_cases hnil : e'.reading fragment = []
  · have hnil₀ : e₀.reading fragment = [] := (Atom.nil_of_map_bare_eq hread).1 hnil
    rw [if_pos hnil₀, hnil, (h₁.insertAtoms_nil (fun hempty =>
      hkeep (eq_nil_of_settled_eq_nil hempty)) mode).root_eq]
    exact Path.bare_fill_congr (map_bare_settled_settled owner slot _ _ _)
  · have hne₀ : e₀.reading fragment ≠ [] := fun hnil₀ =>
      hnil ((Atom.nil_of_map_bare_eq hread).2 hnil₀)
    rw [if_neg hne₀, h₁.root_insertAtoms (e'.isWellFormed_reading fragment) hnil]
    refine Path.bare_fill_congr ?_
    by_cases hne : before ++ after = []
    · obtain ⟨rfl, rfl⟩ := List.append_eq_nil_iff.1 hne
      have hpoint := insertionPoint_settled_nil (q.child slot leadingGap) (Path.offset_child ..) owner
        slot e.supply
      show (withInserted (settled owner slot e.supply []) (q.child slot leadingGap) _).map _ = _
      rw [withInserted, hpoint]
      simpa [splice] using hread
    · rw [settled_of_ne_nil owner slot _ hne, withInserted_append hlone]
      simp only [List.map_append, hread]

/-! ## A branch that is dissolved -/

/-- Inside a placeholder that stands alone, the caret is in text exactly if the placeholder is. -/
theorem inText_of_placeholder {e' : Editor} {q' : Path} {slot' : Slot} {i : Nat} {offset' : Int}
    {a : Atom} (h : e.caret = (q'.child slot' i).child slot offset) (h' : e'.caret = q'.child slot' offset')
    (ha : ((q'.child slot' i).atom? e.root) = some a) (hk : a.kind ≠ .text)
    (hkinds : ∀ d, ((q'.take (d + 1)).atom? e'.root).map Atom.kind =
      ((q'.take (d + 1)).atom? e.root).map Atom.kind) : e.inText = e'.inText := by
  have hlast : ((q'.child slot' i).take (q'.depth + 1)) = q'.child slot' i := by
    unfold Path.take Path.child Path.depth
    rw [List.take_of_length_le (by simp)]
  have hinit (d : Nat) (hd : d < q'.depth) :
      (q'.child slot' i).take (d + 1) = q'.take (d + 1) := by
    unfold Path.depth at hd
    unfold Path.take Path.child
    rw [List.take_append_of_le_length (by omega)]
  have htext (root : Atom) (p : Path) : ((p.atom? root).any fun a => a.kind == .text) =
      ((p.atom? root).map Atom.kind).any fun k => k == .text := by
    rw [Option.any_map]
  rw [inText_child h, inText_child h', Path.depth_child, List.range_succ, List.any_append]
  simp only [List.any_cons, List.any_nil, Bool.or_false, hlast, ha, Option.any_some,
    beq_eq_false_iff_ne.2 hk]
  rw [Bool.eq_iff_iff, List.any_eq_true, List.any_eq_true]
  refine exists_congr fun d => and_congr_right fun hd => ?_
  rw [hinit d (List.mem_range.1 hd), htext, htext, hkinds]

/-- An optional branch that is emptied goes, and the caret is behind its owner then. -/
theorem Opened.openedAtCaret_dissolved (h : e.Opened root q slot owner atoms [])
    (hopt : slot.isOptional = true) (at' offset : Int) :
    ∃ q' slot' i owner' atoms', q = q'.child slot' (i : Nat) ∧ atoms'[i]? = some owner ∧
      IsBranch root q' slot' owner' atoms' ∧
      (e.settleCaret (q.child slot at') offset).OpenedAtCaret root q' slot' owner' atoms'
        (atoms'.set i (owner.putBranch slot none)) i := by
  obtain ⟨q', slot', i, owner', atoms', hq, hb, hi, hroot⟩ := h.exists_removed hopt
  have howner := h.branch.isWellFormed_owner h.isWellFormed
  have hset := (hb.wellFormed h.isWellFormed).set hi (c := owner.putBranch slot none) rfl
    (Atom.isWellFormed_putBranch_none howner hopt)
  have hlt := Atom.lt_length_of_getElem?_eq_some hi
  refine ⟨q', slot', i, owner', atoms', hq, hi, hb, ?_⟩
  rw [settleCaret_of_isOptional h.isBranch hopt]
  exact ⟨⟨h.kind_root, h.isWellFormed, hb, hroot, hset.wellFormed⟩, congrArg Selection.caret hq,
    isOffset_natCast (by simpa using hlt)⟩

theorem eq_singleton_of_isPlaceholderOnly_set {i : Nat} {a b : Atom} (hi : atoms[i]? = some a)
    (h : isPlaceholderOnly (atoms.set i b) = true) :
    i = 0 ∧ atoms = [a] ∧ b.kind = .placeholder := by
  match atoms, i, hi with
  | [c], 0, hi =>
      cases hi
      simp only [List.set_cons_zero, isPlaceholderOnly, Bool.and_eq_true] at h
      exact ⟨rfl, rfl, by simpa [Atom.isPlaceholder] using h.1⟩
  | _ :: _ :: _, 0, _ => simp [isPlaceholderOnly] at h
  | _ :: _ :: _, _ + 1, _ => simp [isPlaceholderOnly] at h

/-- An atom does not hold itself in a branch. -/
theorem putBranch_singleton_ne (a : Atom) (slot : Slot) (b : Atom) :
    b ≠ a.putBranch slot (some [b]) := fun h => by
  have hlt := Atom.sizeOf_lt_of_mem_branch (Atom.branch_putBranch_self a slot (some [b]))
    (List.mem_singleton_self b)
  rw [← h] at hlt
  exact Nat.lt_irrefl _ hlt

theorem fill_child {q' : Path} {slot' : Slot} {i : Nat} {owner' : Atom} {atoms' : List Atom}
    (hb : IsBranch root q' slot' owner' atoms') (hi : atoms'[i]? = some owner) (slot : Slot)
    (branch : List Atom) :
    (q'.child slot' i).fill slot branch root =
      q'.fill slot' (atoms'.set i (owner.putBranch slot (some branch))) root :=
  Path.modifyAtom_child hb hi _

/-- A fragment is read alike in a branch of a placeholder and in the branch with the placeholder. -/
theorem OpenedAtCaret.map_bare_reading_placeholder {e' : Editor} {q' : Path} {slot' : Slot} {i : Nat}
    {owner' : Atom} {atoms' opened : List Atom}
    (h₀ : e₀.OpenedAtCaret root (q'.child slot' i) slot owner atoms content offset₀)
    (h : e'.OpenedAtCaret root q' slot' owner' atoms' opened i)
    (hb : IsBranch root q' slot' owner' atoms') (hi : atoms'[i]? = some owner)
    (hk : owner.kind = .placeholder) (fragment : String) :
    (e₀.reading fragment).map Atom.bare = (e'.reading fragment).map Atom.bare := by
  have howner : ((q'.child slot' i).atom? e₀.root) = some (owner.putBranch slot (some content)) :=
    h₀.isBranch.atom?_eq
  refine map_bare_reading (inText_of_placeholder h₀.caret_eq h.caret_eq howner ?_ fun d => ?_) fragment
  · rw [Atom.kind_putBranch, hk]
    exact Kind.noConfusion
  · rw [h₀.root_eq, h.root_eq, fill_child hb hi, Path.kind_atom?_take_fill,
      Path.kind_atom?_take_fill]

/-- Where the branch is dissolved, the formula is not one with that branch. -/
theorem Opened.root_insert_dissolved_ne
    (h₀ : e₀.OpenedAtCaret root q slot owner atoms content offset₀)
    (h : e.Opened root q slot owner atoms []) (hopt : slot.isOptional = true)
    (hf : takesImplicitArgument fragment.toList = false) {content' : List Atom}
    (hread : e₀.reading fragment ≠ [] →
      content'.map Atom.bare = (e₀.reading fragment).map Atom.bare) :
    ((e.settleCaret (q.child slot at') offset).insert fragment
        (InsertOptions.latex mode)).state.root.bare ≠ (q.fill slot content' root).bare := by
  obtain ⟨q', slot', i, owner', atoms', rfl, hi, hb, hsettled⟩ :=
    h.openedAtCaret_dissolved hopt at' offset
  have hsound : (e.settleCaret ((q'.child slot' i).child slot at') offset).Sound :=
    h.sound_settleCaret at' fun hne => absurd rfl hne
  obtain ⟨e₁, hr₁, hs₁, he₁⟩ := hsettled.insert_eq hsound hf mode
  generalize e.settleCaret ((q'.child slot' i).child slot at') offset = e' at *
  have h₁ := hsettled.of_eq hr₁ hs₁
  have hlt := Atom.lt_length_of_getElem?_eq_some hi
  -- Both formulas are `root` with another branch at `q'`, so it is enough to compare the branches.
  have hbranch {branch : List Atom} (hne : branch.map Atom.bare ≠
      (atoms'.set i (owner.putBranch slot (some content'))).map Atom.bare)
      (hroot : (e₁.insertAtoms (e'.reading fragment) mode).state.root = q'.fill slot' branch root) :
      (e₁.insertAtoms (e'.reading fragment) mode).state.root.bare ≠
        ((q'.child slot' i).fill slot content' root).bare := by
    rw [hroot, fill_child hb hi]
    exact fun heq => hne ((Path.bare_fill_iff hb).1 heq)
  rw [he₁]
  by_cases hnil : e'.reading fragment = []
  · have hne : atoms'.set i (owner.putBranch slot none) ≠ [] :=
      List.ne_nil_of_length_pos (by rw [List.length_set]; omega)
    refine hbranch (fun heq => ?_) (hnil ▸ (h₁.insertAtoms_nil (fun hempty => absurd hempty hne)
      mode).root_eq.trans (by rw [settled_of_ne_nil owner' slot' _ hne]))
    have hat := congrArg (fun atoms => atoms[i]?.bind fun a => a.branch slot) heq
    have hlt' : i < (atoms'.map Atom.bare).length := by rwa [List.length_map]
    simp [List.getElem?_set_self hlt', Atom.bare_putBranch] at hat
  · refine hbranch (fun heq => ?_) (h₁.root_insertAtoms (e'.isWellFormed_reading fragment) hnil mode)
    have hpos := List.length_pos_iff.2 hnil
    cases hlone : isPlaceholderOnly (atoms'.set i (owner.putBranch slot none)) with
    | false =>
        have hlength := congrArg List.length heq
        have hle : i + 1 ≤ (atoms'.set i (owner.putBranch slot none)).length := by
          rw [List.length_set]
          omega
        simp only [withInserted, insertionPoint, hlone, Bool.false_eq_true, if_false,
          Path.offset_child, List.length_map, List.length_set] at hlength
        rw [length_splice _ _ _ (by rw [List.length_set]; omega), List.length_set] at hlength
        omega
    | true =>
        -- The owner is a placeholder that stands alone, so the fragment is read as at the caret.
        obtain ⟨hzero, hsingle, hk⟩ := eq_singleton_of_isPlaceholderOnly_set hi hlone
        have hk : owner.kind = .placeholder := hk
        have hsame := h₀.map_bare_reading_placeholder hsettled hb hi hk fragment
        have hne₀ : e₀.reading fragment ≠ [] := fun hnil₀ =>
          hnil ((Atom.nil_of_map_bare_eq hsame).1 hnil₀)
        rw [withInserted, insertionPoint, hlone, hsingle, hzero] at heq
        simp only [splice, List.take_nil, List.drop_nil, List.nil_append, List.append_nil, if_true,
          List.set_cons_zero, List.map_cons, List.map_nil, Atom.bare_putBranch,
          Option.map_some, ← hsame, ← hread hne₀] at heq
        obtain ⟨b, hb⟩ : ∃ b, content'.map Atom.bare = [b] := ⟨_, heq⟩
        rw [hb] at heq
        exact putBranch_singleton_ne _ _ _ (List.cons_eq_cons.1 heq).1

/-- Taking atoms out and inserting a fragment replaces them, unless the branch is left without
content and does not stay so: an optional branch goes, and one that needs content keeps a
placeholder if the fragment stands for nothing. -/
theorem Opened.bare_insert_settleCaret_iff
    (h₀ : e₀.OpenedAtCaret root q slot owner atoms content offset₀)
    (h : e.Opened root q slot owner atoms (before ++ after))
    (hlone : isPlaceholderOnly (before ++ after) = false)
    (hf : takesImplicitArgument fragment.toList = false) :
    ((e.settleCaret (q.child slot at') ((before.length : Int) - 1)).insert fragment
        (InsertOptions.latex mode)).state.root.bare =
        (q.fill slot (before ++ e₀.reading fragment ++ after) root).bare ↔
      (before ++ after = [] → slot.isOptional = false ∧
        (e₀.reading fragment = [] → owner.requiresContent slot = false)) := by
  by_cases hne : before ++ after = []
  · obtain ⟨rfl, rfl⟩ := List.append_eq_nil_iff.1 hne
    cases hopt : slot.isOptional with
    | true =>
        refine iff_of_false (h.root_insert_dissolved_ne h₀ hopt hf fun _ => ?_) (by simp)
        simp
    | false =>
        rw [h.root_insert_settleCaret h₀ hlone (fun _ => hopt) hf, Path.bare_fill_iff h.branch]
        by_cases hnil : e₀.reading fragment = []
        · cases hr : owner.requiresContent slot <;> simp [hnil, settled, hr]
        · simp [hnil]
  · rw [h.root_insert_settleCaret h₀ hlone (fun hnil => absurd hnil hne) hf]
    refine iff_of_true ?_ fun hnil => absurd hnil hne
    split
    · rename_i hnil
      rw [settled_of_ne_nil owner slot 0 hne, hnil, List.append_nil]
    · rfl

/-! ## Compared with an insertion -/

/-- In a well-formed formula a branch without atoms may stay so. -/
theorem settled_eq_self (hb : IsBranch root q slot owner atoms) (hw : root.isWellFormed = true)
    (filler : Nat) :
    settled owner slot filler atoms = atoms ∧ (atoms = [] → slot.isOptional = false) := by
  by_cases hne : atoms = []
  · have hfills : owner.kind.fillsSlot slot = false := by
      cases hf : owner.kind.fillsSlot slot with
      | false => rfl
      | true => exact absurd hne ((hb.wellFormed hw).filled hf)
    have hslot : owner.requiresContent slot = false ∧ slot.isOptional = false := by
      cases slot <;> simp_all [Kind.fillsSlot, Atom.requiresContent, Slot.isOptional]
    simp [settled, hne, hslot]
  · exact ⟨settled_of_ne_nil owner slot filler hne, fun hnil => absurd hnil hne⟩

theorem OpenedAtCaret.root_insert (h : e.OpenedAtCaret root q slot owner atoms content offset)
    (hs : e.Sound) (hne : content ≠ []) (hf : takesImplicitArgument fragment.toList = false) :
    (e.insert fragment (InsertOptions.latex mode)).state.root =
      q.fill slot (if e.reading fragment = [] then content
        else withInserted content (q.child slot offset) (e.reading fragment)) root := by
  obtain ⟨e₁, hr₁, hs₁, he₁⟩ := h.insert_eq hs hf mode
  have h₁ := h.of_eq hr₁ hs₁
  rw [he₁]
  split
  · rename_i hnil
    rw [hnil, (h₁.insertAtoms_nil (fun hnil => absurd hnil hne) mode).root_eq,
      settled_of_ne_nil owner slot _ hne]
  · rename_i hread
    exact h₁.root_insertAtoms (e.isWellFormed_reading fragment) hread mode

/-- Where a placeholder that is all of its branch was taken out first, an insertion does the same as
with the placeholder in place, unless the branch goes, or nothing is inserted and what is left is not
a plain placeholder with the caret before it. -/
theorem Opened.alike_insert_of_isPlaceholderOnly
    (h₀ : e₀.OpenedAtCaret root q slot owner atoms atoms offset) (hs₀ : e₀.Sound)
    (h : e.Opened root q slot owner atoms []) (hlone : isPlaceholderOnly atoms = true)
    (hf : takesImplicitArgument fragment.toList = false) :
    ((e.settleCaret (q.child slot at') leadingGap).insert fragment
        (InsertOptions.latex mode)).state.Alike
        (e₀.insert fragment (InsertOptions.latex mode)).state ↔
      slot.isOptional = false ∧ (e₀.reading fragment = [] →
        owner.requiresContent slot = true ∧ offset = leadingGap ∧
          atoms.map Atom.bare = [Atom.placeholder 0]) := by
  have hne : atoms ≠ [] := by
    rintro rfl
    cases hlone
  have hpoint : insertionPoint (q.child slot offset) atoms = (0, []) := by
    simp [insertionPoint, hlone]
  cases hopt : slot.isOptional with
  | true =>
      refine iff_of_false (fun halike => ?_) (by simp)
      refine h.root_insert_dissolved_ne h₀ hopt hf (fun hread => ?_)
        (halike.root.trans (by rw [h₀.root_insert hs₀ hne hf]))
      simp [hread, withInserted, hpoint, splice]
  | false =>
      have hsettled := h.openedAtCaret_settleCaret at' (isOffset_leadingGap []) fun _ => hopt
      have hsound : (e.settleCaret (q.child slot at') leadingGap).Sound :=
        h.sound_settleCaret at' fun hne => absurd rfl hne
      generalize e.settleCaret (q.child slot at') leadingGap = e' at *
      have hread := map_bare_reading (hsettled.inText_eq h₀) fragment
      have hgap : SameGap q slot (settled owner slot e.supply []) leadingGap atoms offset := by
        have hpoint' := insertionPoint_settled_nil (q.child slot leadingGap) (Path.offset_child ..)
          owner slot e.supply
        exact ⟨by rw [hpoint, hpoint'], by rw [hpoint, hpoint']⟩
      by_cases hnil : e₀.reading fragment = []
      · obtain ⟨e₁, hr₁, hs₁, he₁⟩ := hsettled.insert_eq hsound hf mode
        obtain ⟨e₂, hr₂, hs₂, he₂⟩ := h₀.insert_eq hs₀ hf mode
        have h₁ := (hsettled.of_eq hr₁ hs₁).insertAtoms_nil (fun _ => hopt) mode
        have h₂ := (h₀.of_eq hr₂ hs₂).insertAtoms_nil (fun hnil => absurd hnil hne) mode
        rw [he₁, he₂, hnil, (Atom.nil_of_map_bare_eq hread).2 hnil, h₁.alike_iff h₂,
          map_bare_settled_settled, settled_of_ne_nil owner slot _ hne]
        cases hr : owner.requiresContent slot with
        | true => simp [settled, hr, Atom.bare_placeholder, eq_comm, and_comm]
        | false => simp [settled, hr, hne, eq_comm]
      · exact iff_of_true (hsettled.alike_insert h₀ hsound hs₀ hgap hf
          (fun hnil' => hnil ((Atom.nil_of_map_bare_eq hread).1 hnil')) mode) (by simp [hnil])

/-- Where atoms that were typed at a caret are taken out again, an insertion does the same as at that
caret, with the exceptions that a lone placeholder makes. -/
theorem Opened.alike_insert_iff
    (h₀ : e₀.OpenedAtCaret root q slot owner atoms atoms offset) (hs₀ : e₀.Sound)
    (h : e.Opened root q slot owner atoms
      (beforeGap (q.child slot offset) atoms ++ afterGap (q.child slot offset) atoms))
    (hf : takesImplicitArgument fragment.toList = false) :
    ((e.settleCaret (q.child slot at') ((beforeGap (q.child slot offset) atoms).length - 1)).insert
        fragment (InsertOptions.latex mode)).state.Alike
        (e₀.insert fragment (InsertOptions.latex mode)).state ↔
      (isPlaceholderOnly atoms = true → slot.isOptional = false ∧ (e₀.reading fragment = [] →
        owner.requiresContent slot = true ∧ offset = leadingGap ∧
          atoms.map Atom.bare = [Atom.placeholder 0])) := by
  cases hlone : isPlaceholderOnly atoms with
  | true =>
      obtain ⟨hbefore, hafter⟩ := gap_of_isPlaceholderOnly (q.child slot offset) hlone
      rw [hbefore, hafter] at h
      rw [hbefore]
      exact (h.alike_insert_of_isPlaceholderOnly h₀ hs₀ hlone hf).trans (by simp)
  | false =>
      obtain ⟨hall, hindex⟩ := gap_of_not_isPlaceholderOnly q slot hlone h₀.isOffset
      rw [hall] at h
      rw [hindex]
      obtain ⟨hkept, hkeep⟩ := settled_eq_self h₀.branch h₀.isWellFormed e.supply
      have hsettled := h.openedAtCaret_settleCaret at' h₀.isOffset hkeep
      rw [hkept] at hsettled
      have hsound := h.sound_settleCaret at' fun _ => h₀.isOffset
      exact iff_of_true (hsettled.alike_insert_self h₀ hsound hs₀ hkeep hf mode) (by simp)

end

end Editor

end FormulaEditor

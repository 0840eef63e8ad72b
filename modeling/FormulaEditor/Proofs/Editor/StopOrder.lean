import FormulaEditor.Proofs.Editor.Stops
import FormulaEditor.Proofs.Formula.Resemblance

/-!
# Stops in document order

The stops of a formula are met in document order: in a branch the leading gap comes first, what is in
an atom comes between the gaps before and behind the atom, and the branches of an atom follow the order
of their slots. No stop is met twice, and alike formulas have the same stops.
-/

namespace FormulaEditor

/-- Whether a step leads to an earlier branch than another one, or to an earlier offset in the same
branch. -/
def Step.Before (s t : Step) : Prop :=
  s.slot.rank < t.slot.rank ∨ s.slot = t.slot ∧ s.offset < t.offset

namespace Path

/-- Whether the first step that is not the same leads to an earlier place. -/
def LeftOf (p q : Path) : Prop :=
  ∃ common s t rest rest', p.steps = common ++ s :: rest ∧ q.steps = common ++ t :: rest' ∧ s.Before t

/-- Whether a position is in a branch of the atom at another one, at any depth. -/
def IsInside (p q : Path) : Prop :=
  ∃ s rest, p.steps = q.steps ++ s :: rest

/-- The document order of gaps. What is inside an atom comes before the gap behind the atom. -/
def Precedes (p q : Path) : Prop :=
  p.LeftOf q ∨ p.IsInside q

/-- Whether a position is in a branch of the atom at `q` or below, at an offset of that branch or after
it. -/
def GoesInto (q : Path) (slot : Slot) (offset : Int) (p : Path) : Prop :=
  ∃ i rest, p.steps = q.steps ++ ⟨slot, i⟩ :: rest ∧ offset ≤ i

end Path

namespace CaretStop

/-- Where a stop is. -/
def path : CaretStop → Path
  | caret p => p
  | placeholder p => p

/-- The document order of stops. A placeholder comes before what is inside it and the gap behind it. -/
inductive Precedes : CaretStop → CaretStop → Prop where
  | apart {s t : CaretStop} : s.path.LeftOf t.path → Precedes s t
  | inside {s : CaretStop} {p : Path} : s.path.IsInside p → Precedes s (.caret p)
  | placeholder {p : Path} {s : CaretStop} : s.path.IsInside p → Precedes (.placeholder p) s
  | behind (p : Path) : Precedes (.placeholder p) (.caret p)

/-- Whether stops are met in document order, and all of them at places of some kind. -/
structure AreOrdered (P : Path → Prop) (stops : List CaretStop) : Prop where
  places : ∀ s ∈ stops, P s.path
  pairwise : stops.Pairwise Precedes

end CaretStop

open CaretStop

/-! ## Places -/

theorem Step.not_before_self (s : Step) : ¬s.Before s := by
  rintro (h | ⟨-, h⟩)
  · exact Nat.lt_irrefl _ h
  · exact Int.lt_irrefl _ h

namespace Path

variable {p p' q : Path} {slot slot' : Slot} {i j : Int}

theorem not_leftOf_self (p : Path) : ¬p.LeftOf p := by
  rintro ⟨common, s, t, rest, rest', hs, ht, hbefore⟩
  obtain ⟨rfl, -⟩ := List.cons.inj (List.append_cancel_left (hs.symm.trans ht))
  exact s.not_before_self hbefore

theorem not_isInside_self (p : Path) : ¬p.IsInside p := by
  rintro ⟨s, rest, h⟩
  have hlength := congrArg List.length h
  simp at hlength

theorem GoesInto.isInside (h : GoesInto q slot i p) : p.IsInside q :=
  let ⟨_, rest, hp, _⟩ := h
  ⟨_, rest, hp⟩

theorem GoesInto.mono (h : GoesInto q slot j p) (hle : i ≤ j) : GoesInto q slot i p :=
  let ⟨k, rest, hp, hk⟩ := h
  ⟨k, rest, hp, Int.le_trans hle hk⟩

theorem goesInto_child (q : Path) (slot : Slot) (i : Int) : GoesInto q slot i (q.child slot i) :=
  ⟨i, [], rfl, Int.le_refl i⟩

theorem IsInside.isPrefix (h : p.IsInside q) : q.steps <+: p.steps :=
  let ⟨_, _, hp⟩ := h
  ⟨_, hp.symm⟩

/-- What is at or in an atom of a branch is in that branch. -/
theorem goesInto_of_isPrefix (h : (q.child slot i).steps <+: p.steps) : q.GoesInto slot i p := by
  obtain ⟨rest, hp⟩ := h
  exact ⟨i, rest, by rw [← hp, steps_child, List.append_assoc, List.singleton_append], Int.le_refl i⟩

theorem GoesInto.leftOf_of_rank_lt (h : GoesInto q slot i p) (h' : GoesInto q slot' j p')
    (hrank : slot.rank < slot'.rank) : p.LeftOf p' :=
  let ⟨_, _, hp, _⟩ := h
  let ⟨_, _, hp', _⟩ := h'
  ⟨q.steps, _, _, _, _, hp, hp', .inl hrank⟩

/-- What is at or in an atom of a branch is to the left of everything after it. -/
theorem GoesInto.leftOf (h : q.GoesInto slot j p') (hp : (q.child slot i).steps <+: p.steps)
    (hlt : i < j) : p.LeftOf p' := by
  obtain ⟨rest, hp⟩ := hp
  obtain ⟨k, rest', hp', hle⟩ := h
  rw [steps_child, List.append_assoc, List.singleton_append] at hp
  exact ⟨q.steps, _, _, rest, rest', hp.symm, hp', .inr ⟨rfl, Int.lt_of_lt_of_le hlt hle⟩⟩

end Path

/-! ## Every walk -/

theorem Atom.stopsInside_eq_flatMap (a : Atom) (p : Path) :
    a.stopsInside p = Slot.all.flatMap fun slot => branchStops p a.kind slot (a.branch slot) := by
  obtain ⟨label, body, sup, sub, numerator, denominator, index, radicand⟩ := a
  simp only [Atom.stopsInside, Slot.all, List.flatMap_cons, List.flatMap_nil, List.append_nil,
    List.append_assoc]
  rfl

theorem pairwise_rank_all : Slot.all.Pairwise fun slot slot' => slot.rank < slot'.rank := by
  decide

namespace CaretStop

theorem areOrdered_nil (P : Path → Prop) : AreOrdered P [] :=
  ⟨nofun, .nil⟩

/-- The stops in the branches of an atom are ordered if those in each of them are. -/
theorem areOrdered_stopsInside_of {a : Atom} {p : Path} (h : ∀ slot,
    AreOrdered (p.GoesInto slot leadingGap) (branchStops p a.kind slot (a.branch slot))) :
    AreOrdered (fun q => q.IsInside p) (a.stopsInside p) := by
  rw [Atom.stopsInside_eq_flatMap]
  refine ⟨fun s hs => ?_, List.pairwise_flatMap.2 ⟨fun slot _ => (h slot).pairwise, ?_⟩⟩
  · obtain ⟨slot, -, hs⟩ := List.mem_flatMap.1 hs
    exact ((h slot).places s hs).isInside
  · refine pairwise_rank_all.imp fun hrank s hs t ht => .apart ?_
    exact ((h _).places s hs).leftOf_of_rank_lt ((h _).places t ht) hrank

/-- The stops in an atom and those behind it are ordered together. -/
theorem AreOrdered.append_later {p : Path} {slot : Slot} {i : Nat} {stops later : List CaretStop}
    (h : AreOrdered (fun q => (p.child slot i).steps <+: q.steps) stops)
    (hlater : AreOrdered (p.GoesInto slot (i + 1 : Nat)) later) :
    AreOrdered (p.GoesInto slot i) (stops ++ later) := by
  refine ⟨fun s hs => ?_, List.pairwise_append.2 ⟨h.pairwise, hlater.pairwise, fun s hs t ht => ?_⟩⟩
  · rcases List.mem_append.1 hs with hs | hs
    · exact Path.goesInto_of_isPrefix (h.places s hs)
    · exact (hlater.places s hs).mono (by omega)
  · exact .apart ((hlater.places t ht).leftOf (h.places s hs) (by omega))

/-- The stops in an atom are ordered together with the gap behind it and, if it is one, the
placeholder. -/
theorem AreOrdered.around {q : Path} {inside : List CaretStop}
    (h : AreOrdered (fun r => r.IsInside q) inside) (isPlaceholder : Bool) :
    AreOrdered (fun r => q.steps <+: r.steps)
      ((if isPlaceholder then [.placeholder q] else []) ++ inside ++ [.caret q]) := by
  have hinside : AreOrdered (fun r => q.steps <+: r.steps) (inside ++ [.caret q]) := by
    refine ⟨fun s hs => ?_, List.pairwise_append.2
      ⟨h.pairwise, List.pairwise_singleton _ _, fun s hs t ht => ?_⟩⟩
    · rcases List.mem_append.1 hs with hs | hs
      · exact (h.places s hs).isPrefix
      · rw [List.mem_singleton.1 hs]
        exact List.prefix_refl _
    · rw [List.mem_singleton.1 ht]
      exact .inside (h.places s hs)
  rw [List.append_assoc]
  cases isPlaceholder with
  | false => exact hinside
  | true =>
      rw [if_pos rfl, List.singleton_append]
      refine ⟨List.forall_mem_cons.2 ⟨List.prefix_refl _, hinside.places⟩,
        List.pairwise_cons.2 ⟨fun s hs => ?_, hinside.pairwise⟩⟩
      rcases List.mem_append.1 hs with hs | hs
      · exact .placeholder (h.places s hs)
      · rw [List.mem_singleton.1 hs]
        exact .behind q

end CaretStop

mutual

theorem areOrdered_stopsInside : (a : Atom) → (p : Path) →
    AreOrdered (fun q => q.IsInside p) (a.stopsInside p)
  | .node label ⟨body, sup, sub, numerator, denominator, index, radicand⟩, p =>
      areOrdered_stopsInside_of fun slot =>
        match slot with
        | .body => areOrdered_branchStops body p label.kind .body
        | .superscript => areOrdered_branchStops sup p label.kind .superscript
        | .subscript => areOrdered_branchStops sub p label.kind .subscript
        | .numerator => areOrdered_branchStops numerator p label.kind .numerator
        | .denominator => areOrdered_branchStops denominator p label.kind .denominator
        | .index => areOrdered_branchStops index p label.kind .index
        | .radicand => areOrdered_branchStops radicand p label.kind .radicand

theorem areOrdered_branchStops : (b : Option (List Atom)) → (p : Path) → (kind : Kind) →
    (slot : Slot) → AreOrdered (p.GoesInto slot leadingGap) (branchStops p kind slot b)
  | none, _, _, _ => areOrdered_nil _
  | some atoms, p, kind, slot => by
      have hgrid := areOrdered_gridStops atoms p slot 0
      have hitems := areOrdered_itemStops atoms p slot 0
      have hgap : leadingGap ≤ ((0 : Nat) : Int) := by decide
      unfold branchStops
      split
      · exact ⟨fun s hs => (hgrid.places s hs).mono hgap, hgrid.pairwise⟩
      · have hrest : AreOrdered (p.GoesInto slot (0 : Nat))
            (if isPlaceholderOnly atoms then [.placeholder (p.child slot 0)]
              else itemStops p slot 0 atoms) := by
          split
          · exact ⟨List.forall_mem_singleton.2 (Path.goesInto_child p slot 0),
              List.pairwise_singleton _ _⟩
          · exact hitems
        refine ⟨List.forall_mem_cons.2 ⟨Path.goesInto_child p slot _, fun s hs => ?_⟩,
          List.pairwise_cons.2 ⟨fun s hs => .apart ?_, hrest.pairwise⟩⟩
        · exact (hrest.places s hs).mono hgap
        · exact (hrest.places s hs).leftOf (List.prefix_refl _) (by decide)

theorem areOrdered_itemStops : (atoms : List Atom) → (p : Path) → (slot : Slot) → (i : Nat) →
    AreOrdered (p.GoesInto slot i) (itemStops p slot i atoms)
  | [], _, _, _ => areOrdered_nil _
  | a :: rest, p, slot, i =>
      ((areOrdered_stopsInside a _).around a.isPlaceholder).append_later
        (areOrdered_itemStops rest p slot (i + 1))

theorem areOrdered_gridStops : (atoms : List Atom) → (p : Path) → (slot : Slot) → (i : Nat) →
    AreOrdered (p.GoesInto slot i) (gridStops p slot i atoms)
  | [], _, _, _ => areOrdered_nil _
  | a :: rest, p, slot, i => by
      have hinside := areOrdered_stopsInside a (p.child slot i)
      have hatom : AreOrdered (fun q => (p.child slot i).steps <+: q.steps)
          (a.stopsInside (p.child slot i)) :=
        ⟨fun s hs => (hinside.places s hs).isPrefix, hinside.pairwise⟩
      exact hatom.append_later (areOrdered_gridStops rest p slot (i + 1))

end

/-- The stops of a formula are in document order. -/
theorem Atom.pairwise_stops (root : Atom) : root.stops.Pairwise CaretStop.Precedes :=
  (areOrdered_stopsInside root Path.root).pairwise

theorem CaretStop.Precedes.caret {p q : Path} (h : CaretStop.Precedes (.caret p) (.caret q)) :
    p.Precedes q := by
  cases h with
  | apart hleft => exact .inl hleft
  | inside hinside => exact .inr hinside

theorem CaretStop.caret?_eq_some {s : CaretStop} {p : Path} (h : s.caret? = some p) : s = .caret p := by
  cases s with
  | caret q => exact congrArg _ (Option.some.inj h)
  | placeholder q => cases h

theorem Atom.pairwise_caretStops (root : Atom) : root.caretStops.Pairwise Path.Precedes := by
  refine List.pairwise_filterMap.2 (root.pairwise_stops.imp fun {s t} h p hp q hq => ?_)
  rw [CaretStop.caret?_eq_some hp, CaretStop.caret?_eq_some hq] at h
  exact h.caret

/-- No stop of the caret is met twice. -/
theorem Atom.nodup_caretStops (root : Atom) : root.caretStops.Nodup := by
  refine root.pairwise_caretStops.imp ?_
  rintro p _ h rfl
  exact h.elim p.not_leftOf_self p.not_isInside_self

/-! ## The list of stops -/

/-- What a path is like where the caret can stop. -/
structure IsCaretPlace (root : Atom) (p : Path) : Prop where
  not_root : p.isRoot = false
  resolves : (p.resolve? root).isSome = true
  /-- The gaps of a grid body are no stops. -/
  not_grid {owner : Atom} {slot : Slot} : p.owner? root = some owner → p.slot? = some slot →
    isGridBody owner.kind slot = false
  /-- Behind a placeholder that is all its branch holds, the caret does not stop. -/
  leading {atoms : List Atom} : p.branch? root = some atoms → isPlaceholderOnly atoms = true →
    p.offset = leadingGap

/-- A path that resolves ends in a branch. -/
theorem exists_branch_of_isSome_resolve? {root : Atom} {q : Path} {slot : Slot} {offset : Int}
    (h : ((q.child slot offset).resolve? root).isSome = true) :
    ∃ owner atoms, q.atom? root = some owner ∧ owner.branch slot = some atoms ∧
      IsOffset atoms offset := by
  cases hq : q.atom? root with
  | none => simp [Path.resolve?, hq] at h
  | some owner =>
      cases hb : owner.branch slot with
      | none => simp [Path.resolve?, hq, hb] at h
      | some atoms => exact ⟨owner, atoms, rfl, hb, (Editor.resolve?_isSome_iff hq hb offset).1 h⟩

theorem isCaretPlace_iff {root : Atom} {p : Path} :
    IsCaretPlace root p ↔ IsPosition root p ∧ isBehindLonePlaceholder root p = false := by
  constructor
  · intro h
    obtain ⟨q, slot, offset, rfl⟩ := Path.exists_child h.not_root
    obtain ⟨owner, atoms, hq, hatoms, ho⟩ := exists_branch_of_isSome_resolve? h.resolves
    have hb : IsBranch root q slot owner atoms :=
      ⟨hq, hatoms, h.not_grid (by rw [Path.owner?_child, hq]) (q.slot?_child slot offset)⟩
    refine ⟨hb.isPosition ho, ?_⟩
    rw [← Bool.not_eq_true, hb.isBehindLonePlaceholder_iff]
    exact fun ⟨hne, hlone⟩ => hne (q.offset_child slot offset ▸ h.leading (hb.branch? offset) hlone)
  · rintro ⟨⟨q, slot, offset, owner, atoms, rfl, hb, ho⟩, hfree⟩
    rw [← Bool.not_eq_true, hb.isBehindLonePlaceholder_iff] at hfree
    refine ⟨q.isRoot_child slot offset, (Editor.resolve?_isSome_iff hb.atom?_eq hb.branch_eq offset).2 ho,
      fun howner hslot => ?_, fun hatoms hlone => ?_⟩
    · rw [Path.owner?_child, hb.atom?_eq] at howner
      rw [Path.slot?_child] at hslot
      cases howner
      cases hslot
      exact hb.not_grid
    · rw [hb.branch? offset] at hatoms
      cases hatoms
      rw [Path.offset_child]
      exact Decidable.not_not.1 fun hne => hfree ⟨hne, hlone⟩

/-- What holds of a list of positions if it lists the places of the caret in document order. -/
structure ListsCaretPlaces (root : Atom) (stops : List Path) : Prop where
  nodup : stops.Nodup
  mem_iff (p : Path) : p ∈ stops ↔ IsCaretPlace root p
  ordered : stops.Pairwise Path.Precedes

theorem listsCaretPlaces_caretStops {root : Atom} (hw : root.isWellFormed = true) :
    ListsCaretPlaces root root.caretStops :=
  ⟨root.nodup_caretStops, fun _ => (mem_caretStops_iff hw).trans isCaretPlace_iff.symm,
    root.pairwise_caretStops⟩

/-- A matrix of one cell, with an atom in it whose superscript is to be filled in. -/
def matrixOfPower : Atom :=
  let wrap (id : Nat) (kind : Kind) (value : Option String) (body : List Atom) : Atom :=
    .node ⟨id, kind, value, none, Marks.none⟩ { Branches.none with body := some body }
  let power : Atom := .node ⟨4, .ordinary, some "x", some 'x', Marks.none⟩
    { Branches.none with superscript := some [.placeholder 5] }
  wrap 0 .root none [wrap 1 .array (some "pmatrix") [wrap 2 .row none [wrap 3 .cell none [power]]]]

theorem listsCaretPlaces_matrixOfPower :
    ListsCaretPlaces matrixOfPower matrixOfPower.caretStops ∧
      matrixOfPower.caretStops.map Path.text =
        ["body:-1", "body:0/body:0/body:0/body:-1", "body:0/body:0/body:0/body:0/superscript:-1",
          "body:0/body:0/body:0/body:0", "body:0"] :=
  ⟨listsCaretPlaces_caretStops (by decide), by decide⟩

/-! ## Alike formulas -/

theorem itemStops_map_bare {atoms : List Atom}
    (h : ∀ a ∈ atoms, ∀ p, a.bare.stopsInside p = a.stopsInside p) (p : Path) (slot : Slot) (i : Nat) :
    itemStops p slot i (atoms.map Atom.bare) = itemStops p slot i atoms := by
  induction atoms generalizing i with
  | nil => rfl
  | cons a rest ih =>
      simp only [List.map_cons, itemStops, Atom.isPlaceholder_bare, h a List.mem_cons_self,
        ih fun b hb => h b (List.mem_cons_of_mem a hb)]

theorem gridStops_map_bare {atoms : List Atom}
    (h : ∀ a ∈ atoms, ∀ p, a.bare.stopsInside p = a.stopsInside p) (p : Path) (slot : Slot) (i : Nat) :
    gridStops p slot i (atoms.map Atom.bare) = gridStops p slot i atoms := by
  induction atoms generalizing i with
  | nil => rfl
  | cons a rest ih =>
      simp only [List.map_cons, gridStops, h a List.mem_cons_self,
        ih fun b hb => h b (List.mem_cons_of_mem a hb)]

/-- Neither identities nor marks matter for the stops. -/
theorem Atom.stopsInside_bare (a : Atom) : ∀ p, a.bare.stopsInside p = a.stopsInside p := by
  induction a using branchInduction with
  | step a ih =>
      intro p
      have hkind : a.bare.kind = a.kind := by
        unfold kind
        rw [label_bare]
        rfl
      have hslot (slot : Slot) : branchStops p a.bare.kind slot (a.bare.branch slot) =
          branchStops p a.kind slot (a.branch slot) := by
        rw [hkind, branch_bare]
        cases hb : a.branch slot with
        | none => rfl
        | some atoms =>
            simp only [Option.map_some, branchStops, isPlaceholderOnly_map_bare,
              itemStops_map_bare (ih slot atoms hb), gridStops_map_bare (ih slot atoms hb)]
      simp only [stopsInside_eq_flatMap, hslot]

theorem Atom.caretStops_of_bare_eq {a b : Atom} (h : a.bare = b.bare) :
    a.caretStops = b.caretStops := by
  unfold caretStops stops
  rw [← stopsInside_bare a, h, stopsInside_bare]

end FormulaEditor

import FormulaEditor.Proofs.Editor.Inserting
import FormulaEditor.Proofs.Editor.Stepping

/-!
# Stepping through the placeholders

The walk that meets the stops of a formula meets each of its placeholders once, in document order. So
from a selected placeholder the tabulator goes to the next or previous one, and from a caret to the
nearest one after or before it, around the ends of the formula.
-/

namespace FormulaEditor

/-- The placeholders of a formula in document order. The atom at the top is at no position of the
formula, and is left out. -/
def Atom.placeholders (root : Atom) : List Path :=
  ((root.positions Path.root).tail.filter fun x => x.2.isPlaceholder).map Prod.fst

/-! ## The walk meets every placeholder -/

/-- The paths of those atoms that are placeholders. -/
def placeholdersAmong (xs : List (Path × Atom)) : List Path :=
  (xs.filter fun x => x.2.isPlaceholder).map Prod.fst

theorem placeholdersAmong_append (xs ys : List (Path × Atom)) :
    placeholdersAmong (xs ++ ys) = placeholdersAmong xs ++ placeholdersAmong ys := by
  simp [placeholdersAmong]

theorem placeholdersAmong_cons (p : Path) (a : Atom) (xs : List (Path × Atom)) :
    placeholdersAmong ((p, a) :: xs) =
      (if a.isPlaceholder then [p] else []) ++ placeholdersAmong xs := by
  cases h : a.isPlaceholder <;> simp [placeholdersAmong, h]

theorem Atom.positions_eq (a : Atom) (p : Path) :
    a.positions p =
      (p, a) :: Slot.all.flatMap fun slot => branchPositions p slot (a.branch slot) := by
  obtain ⟨label, body, sup, sub, numerator, denominator, index, radicand⟩ := a
  simp only [Atom.positions, Slot.all, List.flatMap_cons, List.flatMap_nil, List.append_nil,
    List.append_assoc]
  rfl

theorem Atom.placeholdersAmong_tail_positions (a : Atom) (p : Path) :
    placeholdersAmong (a.positions p).tail =
      Slot.all.flatMap fun slot => placeholdersAmong (branchPositions p slot (a.branch slot)) := by
  rw [a.positions_eq, List.tail_cons]
  induction Slot.all with
  | nil => rfl
  | cons slot rest ih =>
      rw [List.flatMap_cons, List.flatMap_cons, placeholdersAmong_append, ih]

theorem Atom.placeholdersAmong_positions (a : Atom) (p : Path) :
    placeholdersAmong (a.positions p) =
      (if a.isPlaceholder then [p] else []) ++ placeholdersAmong (a.positions p).tail := by
  rw [a.positions_eq, placeholdersAmong_cons, List.tail_cons]

/-- The placeholders that a walk meets. -/
def placeholdersMet (stops : List CaretStop) : List Path :=
  stops.filterMap CaretStop.placeholder?

theorem placeholdersMet_append (stops stops' : List CaretStop) :
    placeholdersMet (stops ++ stops') = placeholdersMet stops ++ placeholdersMet stops' :=
  List.filterMap_append

/-- A walk over the branches of an atom meets the placeholders in it if it does so in every branch. -/
theorem placeholdersMet_stopsInside_of {a : Atom} {p : Path} (h : ∀ slot,
    placeholdersMet (branchStops p a.kind slot (a.branch slot)) =
      placeholdersAmong (branchPositions p slot (a.branch slot))) :
    placeholdersMet (a.stopsInside p) = placeholdersAmong (a.positions p).tail := by
  rw [a.placeholdersAmong_tail_positions, Atom.stopsInside_eq_flatMap]
  induction Slot.all with
  | nil => rfl
  | cons slot rest ih =>
      rw [List.flatMap_cons, List.flatMap_cons, placeholdersMet_append, h, ih]

/-- A lone placeholder is the only one in its branch, as it holds nothing. -/
theorem placeholdersAmong_of_isPlaceholderOnly {atoms : List Atom} (h : isPlaceholderOnly atoms = true)
    (hw : ∀ a ∈ atoms, a.isWellFormed = true) (p : Path) (slot : Slot) :
    placeholdersAmong (branchPositions p slot (some atoms)) = [p.child slot 0] := by
  obtain ⟨a, rfl, hplaceholder, hleaf⟩ := isPlaceholderOnly_iff.1 h
  have hnone := a.branch_eq_none_of_isLeaf hleaf (hw a (List.mem_singleton_self a))
  have hbelow : placeholdersAmong (a.positions (p.child slot (0 : Nat))).tail = [] := by
    rw [a.placeholdersAmong_tail_positions]
    simp only [hnone]
    rfl
  simp only [branchPositions, itemPositions, List.append_nil]
  rw [a.placeholdersAmong_positions, hbelow, hplaceholder]
  rfl

mutual

theorem placeholdersMet_stopsInside : (a : Atom) → a.isWellFormed = true → (p : Path) →
    placeholdersMet (a.stopsInside p) = placeholdersAmong (a.positions p).tail
  | .node _ ⟨body, sup, sub, numerator, denominator, index, radicand⟩, hw, p =>
      placeholdersMet_stopsInside_of fun slot =>
        have hbranch (slot : Slot) (atoms : List Atom) (h : Atom.branch _ slot = some atoms) :=
          Atom.branchWellFormed hw h
        match slot with
        | .body => placeholdersMet_branchStops body (hbranch .body) p
        | .superscript => placeholdersMet_branchStops sup (hbranch .superscript) p
        | .subscript => placeholdersMet_branchStops sub (hbranch .subscript) p
        | .numerator => placeholdersMet_branchStops numerator (hbranch .numerator) p
        | .denominator => placeholdersMet_branchStops denominator (hbranch .denominator) p
        | .index => placeholdersMet_branchStops index (hbranch .index) p
        | .radicand => placeholdersMet_branchStops radicand (hbranch .radicand) p

theorem placeholdersMet_branchStops : (b : Option (List Atom)) → {kind : Kind} → {slot : Slot} →
    (∀ atoms, b = some atoms → Atom.BranchWellFormed kind slot atoms) → (p : Path) →
    placeholdersMet (branchStops p kind slot b) = placeholdersAmong (branchPositions p slot b)
  | none, _, _, _, _ => rfl
  | some atoms, kind, slot, hb, p => by
      have hw := (hb atoms rfl).wellFormed
      unfold branchStops
      split
      · rename_i hgrid
        refine placeholdersMet_gridStops atoms hw (fun a ha => ?_) p slot 0
        obtain ⟨hkind, hslot⟩ : kind.isGrid = true ∧ slot = .body := by simpa [isGridBody] using hgrid
        have hadmits := (hb atoms rfl).admitted a ha
        rcases Kind.row_or_cell_of_admits hkind (hslot ▸ hadmits) with hk | hk <;>
          simp [Atom.isPlaceholder, hk]
      split
      · rename_i hlone
        rw [placeholdersAmong_of_isPlaceholderOnly hlone hw]
        rfl
      · exact placeholdersMet_itemStops atoms hw p slot 0

theorem placeholdersMet_itemStops : (atoms : List Atom) → (∀ a ∈ atoms, a.isWellFormed = true) →
    (p : Path) → (slot : Slot) → (i : Nat) →
    placeholdersMet (itemStops p slot i atoms) = placeholdersAmong (itemPositions p slot i atoms)
  | [], _, _, _, _ => rfl
  | a :: rest, hw, p, slot, i => by
      have ha := placeholdersMet_stopsInside a (hw a List.mem_cons_self) (p.child slot i)
      have hrest := placeholdersMet_itemStops rest (fun b hb => hw b (List.mem_cons_of_mem _ hb)) p slot
        (i + 1)
      simp only [itemStops, itemPositions, placeholdersMet_append, placeholdersAmong_append, ha, hrest,
        a.placeholdersAmong_positions]
      cases a.isPlaceholder <;> simp [placeholdersMet, CaretStop.placeholder?]

theorem placeholdersMet_gridStops : (atoms : List Atom) → (∀ a ∈ atoms, a.isWellFormed = true) →
    (∀ a ∈ atoms, a.isPlaceholder = false) → (p : Path) → (slot : Slot) → (i : Nat) →
    placeholdersMet (gridStops p slot i atoms) = placeholdersAmong (itemPositions p slot i atoms)
  | [], _, _, _, _, _ => rfl
  | a :: rest, hw, hn, p, slot, i => by
      have ha := placeholdersMet_stopsInside a (hw a List.mem_cons_self) (p.child slot i)
      have hrest := placeholdersMet_gridStops rest (fun b hb => hw b (List.mem_cons_of_mem _ hb))
        (fun b hb => hn b (List.mem_cons_of_mem _ hb)) p slot (i + 1)
      simp only [gridStops, itemPositions, placeholdersMet_append, placeholdersAmong_append, ha, hrest,
        a.placeholdersAmong_positions, hn a List.mem_cons_self]
      rfl

end

/-- The walk over a well-formed formula meets all its placeholders in document order. -/
theorem placeholdersMet_stops {root : Atom} (hw : root.isWellFormed = true) :
    placeholdersMet root.stops = root.placeholders :=
  placeholdersMet_stopsInside root hw Path.root

/-! ## Document order -/

/-- Two paths differ for the first time at one place. -/
theorem step_eq_of_first_difference {common common' : List Step} {s t s' t' : Step}
    {rest rest' more more' : List Step} (hp : common ++ s :: rest = common' ++ t' :: more')
    (hq : common ++ t :: rest' = common' ++ s' :: more) (hne : s ≠ t) (hne' : s' ≠ t') :
    s = t' ∧ t = s' := by
  induction common generalizing common' with
  | nil =>
      cases common' with
      | nil => exact ⟨(List.cons.inj hp).1, (List.cons.inj hq).1⟩
      | cons u _ => exact absurd ((List.cons.inj hp).1.trans (List.cons.inj hq).1.symm) hne
  | cons u common ih =>
      cases common' with
      | nil => exact absurd ((List.cons.inj hq).1.symm.trans (List.cons.inj hp).1) hne'
      | cons _ _ => exact ih (List.cons.inj hp).2 (List.cons.inj hq).2

theorem Step.Before.ne {s t : Step} (h : s.Before t) : s ≠ t := by
  rintro rfl
  exact s.not_before_self h

theorem Step.Before.asymm {s t : Step} (h : s.Before t) : ¬t.Before s := by
  rcases h with h | ⟨hslot, h⟩
  · rintro (h' | ⟨hslot', -⟩)
    · exact Nat.lt_asymm h h'
    · rw [hslot'] at h
      exact Nat.lt_irrefl _ h
  · rintro (h' | ⟨-, h'⟩)
    · rw [hslot] at h'
      exact Nat.lt_irrefl _ h'
    · exact Int.lt_asymm h h'

namespace Path.LeftOf

variable {p q : Path}

theorem asymm (h : p.LeftOf q) : ¬q.LeftOf p := by
  rintro ⟨common', t, s, more, more', hq', hp', hbefore'⟩
  obtain ⟨common, s', t', rest, rest', hp, hq, hbefore⟩ := h
  obtain ⟨rfl, rfl⟩ := step_eq_of_first_difference (hp.symm.trans hp') (hq.symm.trans hq') hbefore.ne
    hbefore'.ne
  exact hbefore.asymm hbefore'

theorem not_isInside (h : p.LeftOf q) : ¬p.IsInside q ∧ ¬q.IsInside p := by
  obtain ⟨common, s, t, rest, rest', hp, hq, hbefore⟩ := h
  refine ⟨?_, ?_⟩
  · rintro ⟨u, more, hinside⟩
    rw [hp, hq, List.append_assoc, List.cons_append] at hinside
    exact hbefore.ne (List.cons.inj (List.append_cancel_left hinside)).1
  · rintro ⟨u, more, hinside⟩
    rw [hp, hq, List.append_assoc, List.cons_append] at hinside
    exact hbefore.ne (List.cons.inj (List.append_cancel_left hinside)).1.symm

end Path.LeftOf

namespace CaretStop

theorem Precedes.irrefl (s : CaretStop) : ¬s.Precedes s := by
  intro h
  cases h with
  | apart h => exact s.path.not_leftOf_self h
  | inside h => exact Path.not_isInside_self _ h
  | placeholder h => exact Path.not_isInside_self _ h

/-- A gap precedes a placeholder only if it is further left. -/
theorem Precedes.not_precedes {p q : Path} (h : Precedes (.caret p) (.placeholder q)) :
    ¬Precedes (.placeholder q) (.caret p) := by
  cases h with
  | apart hleft =>
      replace hleft : p.LeftOf q := hleft
      intro h'
      cases h' with
      | apart hright => exact hleft.asymm hright
      | inside hinside => exact hleft.not_isInside.2 hinside
      | placeholder hinside => exact hleft.not_isInside.1 hinside
      | behind => exact p.not_leftOf_self hleft

end CaretStop

theorem Atom.nodup_stops (root : Atom) : root.stops.Nodup := by
  refine root.pairwise_stops.imp ?_
  rintro s _ h rfl
  exact CaretStop.Precedes.irrefl s h

theorem CaretStop.placeholder?_eq_some {s : CaretStop} {p : Path} (h : s.placeholder? = some p) :
    s = .placeholder p := by
  cases s with
  | caret q => cases h
  | placeholder q => exact congrArg _ (Option.some.inj h)

theorem nodup_placeholdersMet {stops : List CaretStop} (h : stops.Nodup) :
    (placeholdersMet stops).Nodup := by
  refine List.pairwise_filterMap.2 (h.imp fun {s t} hne p hp q hq heq => hne ?_)
  rw [CaretStop.placeholder?_eq_some hp, CaretStop.placeholder?_eq_some hq, heq]

theorem mem_placeholdersMet {stops : List CaretStop} {p : Path} :
    p ∈ placeholdersMet stops ↔ CaretStop.placeholder p ∈ stops := by
  unfold placeholdersMet
  rw [List.mem_filterMap]
  constructor
  · rintro ⟨s, hs, hp⟩
    exact CaretStop.placeholder?_eq_some hp ▸ hs
  · exact fun h => ⟨_, h, rfl⟩

namespace Editor

variable {e e' : Editor} {d : Direction} {i j : Nat} {p : Path} {before after : List CaretStop}

/-! ## One press -/

/-- The tabulator in a direction. -/
def tab (d : Direction) (e : Editor) : Outcome Editor Unit :=
  match d with
  | .forward => e.moveToNextPlaceholder
  | .backward => e.moveToPreviousPlaceholder

/-- Exactly the atom at a position is selected, in one of the two directions. -/
def SelectsAtom (e : Editor) (p : Path) : Prop :=
  e.selection = ⟨p.withOffset (p.offset - 1), p⟩ ∨ e.selection = ⟨p, p.withOffset (p.offset - 1)⟩

/-- The operation selects exactly the placeholder with an index. Nothing else changes but what the
boundary was asked. -/
def TabsTo (e : Editor) (j : Nat) (o : Outcome Editor Unit) : Prop :=
  ∃ p asked, e.root.placeholders[j]? = some p ∧
    o = .done { e with selection := ⟨p.withOffset (p.offset - 1), p⟩, asked := asked }

/-- The placeholder that is next in a direction among those around the current stop, around the ends if
there is none. -/
def nearest? (stops before after : List Path) : Direction → Option Path
  | .forward => (after ++ stops).head?
  | .backward => (stops ++ before).getLast?

theorem findSome?_reverse_placeholder? (stops : List CaretStop) :
    stops.reverse.findSome? CaretStop.placeholder? = (placeholdersMet stops).getLast? := by
  rw [← List.head?_filterMap, List.filterMap_reverse, List.head?_reverse]
  rfl

theorem findSome?_placeholder? (stops : List CaretStop) :
    stops.findSome? CaretStop.placeholder? = (placeholdersMet stops).head? :=
  List.head?_filterMap.symm

theorem nextPlaceholder?_orElse (hs : e.root.stops = before ++ e.currentStop :: after)
    (d : Direction) :
    (nextPlaceholder? d e.root.stops before.length).or (outermostPlaceholder? d e.root.stops) =
      nearest? (placeholdersMet e.root.stops) (placeholdersMet before) (placeholdersMet after) d := by
  cases d with
  | forward =>
      have hdrop : e.root.stops.drop (before.length + 1) = after := by
        rw [hs, List.drop_append, List.drop_eq_nil_of_le (Nat.le_succ _), Nat.add_sub_cancel_left]
        rfl
      rw [nextPlaceholder?, outermostPlaceholder?, hdrop, findSome?_placeholder?,
        findSome?_placeholder?, nearest?, List.head?_append]
  | backward =>
      have htake : e.root.stops.take before.length = before := by rw [hs, List.take_left]
      rw [nextPlaceholder?, outermostPlaceholder?, htake, findSome?_reverse_placeholder?,
        findSome?_reverse_placeholder?, nearest?, List.getLast?_append]

/-- The tabulator goes to the nearest placeholder, if the boundary goes on at the other end. -/
theorem tab_eq (hv : e.validate = .ok ()) (hw : e.boundary d = .wrap)
    (hs : e.root.stops = before ++ e.currentStop :: after)
    (hp : nearest? (placeholdersMet e.root.stops) (placeholdersMet before) (placeholdersMet after) d =
      some p) :
    ∃ asked, e.tab d =
      .done { e with selection := ⟨p.withOffset (p.offset - 1), p⟩, asked := asked } := by
  have htab : e.tab d = .done (e.stepPlaceholder d) := by
    cases d with
    | forward => exact whenValid_of_validate hv fun e => .done (e.stepPlaceholder .forward)
    | backward => exact whenValid_of_validate hv fun e => .done (e.stepPlaceholder .backward)
  have hfind : e.root.stops.findIdx? (· == e.currentStop) = some before.length := by
    have hnodup := e.root.nodup_stops
    rw [hs] at hnodup ⊢
    have hnot : ∀ s ∈ before, (s == e.currentStop) = false := fun s hmem => by
      rw [beq_eq_false_iff_ne]
      exact fun heq => (List.nodup_append.1 hnodup).2.2 s hmem _ List.mem_cons_self heq
    rw [List.findIdx?_append, List.findIdx?_eq_none_iff.2 hnot]
    simp [List.findIdx?_cons]
  rw [← nextPlaceholder?_orElse hs] at hp
  rw [htab]
  simp only [stepPlaceholder, hfind, Option.bind_some]
  cases hn : nextPlaceholder? d e.root.stops before.length with
  | some q =>
      rw [hn, Option.some_or, Option.some.injEq] at hp
      exact ⟨e.asked, by rw [hp]; rfl⟩
  | none =>
      rw [hn, Option.none_or] at hp
      refine ⟨e.asked ++ [d], ?_⟩
      simp only [ask, hw, beq_self_eq_true, if_true, hp]
      rfl

theorem tabsTo_of_nearest? (hw : e.root.isWellFormed = true) (hv : e.validate = .ok ())
    (hwrap : e.boundary d = .wrap) (hs : e.root.stops = before ++ e.currentStop :: after)
    (hlt : j < e.root.placeholders.length)
    (hn : nearest? e.root.placeholders (placeholdersMet before) (placeholdersMet after) d =
      e.root.placeholders[j]?) : e.TabsTo j (e.tab d) := by
  have hj := List.getElem?_eq_getElem hlt
  obtain ⟨asked, htab⟩ := tab_eq hv hwrap hs (by rw [placeholdersMet_stops hw, hn, hj])
  exact ⟨_, asked, hj, htab⟩

/-! ## Around the ring of placeholders -/

theorem head?_append_ring (xs ys : List Path) (hne : xs ++ ys ≠ []) :
    (ys ++ (xs ++ ys)).head? = (xs ++ ys)[xs.length % (xs ++ ys).length]? := by
  cases ys with
  | nil =>
      rw [List.append_nil] at hne ⊢
      rw [Nat.mod_self, List.nil_append, List.head?_eq_getElem?]
  | cons y ys =>
      rw [Nat.mod_eq_of_lt (by simp), List.getElem?_append_right (Nat.le_refl _), Nat.sub_self]
      rfl

theorem getLast?_append_ring (xs ys : List Path) (hne : xs ++ ys ≠ []) :
    ((xs ++ ys) ++ xs).getLast? =
      (xs ++ ys)[(xs.length + (xs ++ ys).length - 1) % (xs ++ ys).length]? := by
  have hpos := List.length_pos_iff.2 hne
  by_cases hx : xs = []
  · subst hx
    rw [List.append_nil, List.length_nil, Nat.zero_add, Nat.mod_eq_of_lt (by omega),
      List.getLast?_eq_getElem?]
  · have hxpos := List.length_pos_iff.2 hx
    rw [show xs.length + (xs ++ ys).length - 1 = xs.length - 1 + (xs ++ ys).length by omega,
      Nat.add_mod_right, Nat.mod_eq_of_lt (by simp only [List.length_append]; omega),
      List.getElem?_append_left (by omega), List.getLast?_append_of_ne_nil _ hx,
      List.getLast?_eq_getElem?]

/-! ## From a selected placeholder -/

theorem isAtomPosition_of_mem_placeholders {root : Atom} (hw : root.isWellFormed = true)
    (hp : p ∈ root.placeholders) : IsAtomPosition root p :=
  isStop_of_mem_stops (mem_placeholdersMet.1 (placeholdersMet_stops hw ▸ hp))

theorem atom?_of_mem_placeholders {root : Atom} (hp : p ∈ root.placeholders) :
    ∃ a, p.atom? root = some a ∧ a.isPlaceholder = true := by
  obtain ⟨x, hx, rfl⟩ := List.mem_map.1 hp
  obtain ⟨hmem, hplaceholder⟩ := List.mem_filter.1 hx
  exact ⟨x.2, atom?_of_mem_positions root (Path.atom?_root root) x (List.mem_of_mem_tail hmem),
    hplaceholder⟩

/-- A selection of one atom is valid, and holds just that atom. -/
theorem SelectsAtom.validate (h : e.SelectsAtom p) (hp : IsAtomPosition e.root p) :
    e.validate = .ok () ∧ e.selection.stopIndex - e.selection.startIndex = 1 ∧
      e.selection.stopPath = p := by
  obtain ⟨q, slot, owner, atoms, i, rfl, hb, hi⟩ := hp
  have hbefore : IsOffset atoms ((i : Int) - 1) := ⟨by simp only [leadingGap]; omega, by omega⟩
  obtain ⟨anchor, focus, hsel, hmin, hmax⟩ : ∃ anchor focus,
      e.SelectsIn q slot owner atoms anchor focus ∧ min anchor focus = i - 1 ∧ max anchor focus = i := by
    unfold SelectsAtom at h
    simp only [Path.offset_child, Path.withOffset_child] at h
    rcases h with h | h
    · exact ⟨_, _, ⟨hb, h, hbefore, isOffset_natCast hi⟩, by omega, by omega⟩
    · exact ⟨_, _, ⟨hb, h, isOffset_natCast hi, hbefore⟩, by omega, by omega⟩
  obtain ⟨hstart, hstop⟩ := hsel.indices
  refine ⟨(validate_eq_ok_iff e).2 ⟨_, _, _, _, _, _, hsel⟩, by omega, ?_⟩
  rw [hsel.start_stop.2.1, hmax]

theorem SelectsAtom.currentStop (h : e.SelectsAtom p) (hw : e.root.isWellFormed = true)
    (hp : p ∈ e.root.placeholders) : e.currentStop = .placeholder p := by
  obtain ⟨-, hone, hstop⟩ := h.validate (isAtomPosition_of_mem_placeholders hw hp)
  obtain ⟨a, ha, hplaceholder⟩ := atom?_of_mem_placeholders hp
  simp only [Editor.currentStop, selectedPlaceholder?, hone, hstop, ha, if_true, Option.any_some,
    hplaceholder]

theorem SelectsAtom.tabsTo (h : e.SelectsAtom p) (hw : e.root.isWellFormed = true)
    (hwrap : e.boundary d = .wrap) (hj : e.root.placeholders[j]? = some p) :
    e.TabsTo (ringStep e.root.placeholders.length d j) (e.tab d) := by
  have hp := List.mem_of_getElem? hj
  have hmet := placeholdersMet_stops hw
  obtain ⟨before, after, hsplit⟩ := List.append_of_mem (mem_placeholdersMet.1 (hmet ▸ hp))
  have hlist : e.root.placeholders = placeholdersMet before ++ p :: placeholdersMet after := by
    rw [← hmet, hsplit, placeholdersMet_append]
    rfl
  have hindex : (placeholdersMet before).length = j := by
    have hlt : j < e.root.placeholders.length := (List.getElem?_eq_some_iff.1 hj).1
    refine (getElem_eq_iff_of_nodup (hmet ▸ nodup_placeholdersMet e.root.nodup_stops) ?_ hlt).1
      (List.getElem?_eq_some_iff.1 hj).2.symm
    rw [hlist, List.getElem?_append_right (Nat.le_refl _), Nat.sub_self]
    rfl
  have hne : placeholdersMet before ++ p :: placeholdersMet after ≠ [] := by simp
  have hnearest : nearest? e.root.placeholders (placeholdersMet before) (placeholdersMet after) d =
      e.root.placeholders[ringStep e.root.placeholders.length d j]? := by
    rw [hlist, ← hindex]
    cases d with
    | forward =>
        have hring := head?_append_ring (placeholdersMet before ++ [p]) (placeholdersMet after)
          (by simp)
        simpa [nearest?, ringStep, List.append_assoc] using hring
    | backward => exact getLast?_append_ring _ _ hne
  exact tabsTo_of_nearest? hw (h.validate (isAtomPosition_of_mem_placeholders hw hp)).1 hwrap
    (h.currentStop hw hp ▸ hsplit) (ringStep_lt (List.getElem?_eq_some_iff.1 hj).1 d) hnearest

/-! ## From a caret -/

/-- The first `m` placeholders come before a gap, and the others after it. -/
structure SplitsPlaceholders (root : Atom) (p : Path) (m : Nat) : Prop where
  le : m ≤ root.placeholders.length
  before {j : Nat} {q : Path} : root.placeholders[j]? = some q →
    (j < m ↔ CaretStop.Precedes (.placeholder q) (.caret p))
  after {j : Nat} {q : Path} : root.placeholders[j]? = some q →
    (m ≤ j ↔ CaretStop.Precedes (.caret p) (.placeholder q))

theorem splitsPlaceholders {root : Atom} (hw : root.isWellFormed = true)
    (hs : root.stops = before ++ .caret p :: after) :
    SplitsPlaceholders root p (placeholdersMet before).length := by
  have hordered := List.pairwise_append.1 (hs ▸ root.pairwise_stops)
  have hbefore {q : Path} (hq : q ∈ placeholdersMet before) :
      CaretStop.Precedes (.placeholder q) (.caret p) :=
    hordered.2.2 _ (mem_placeholdersMet.1 hq) _ List.mem_cons_self
  have hafter {q : Path} (hq : q ∈ placeholdersMet after) :
      CaretStop.Precedes (.caret p) (.placeholder q) :=
    (List.pairwise_cons.1 hordered.2.1).1 _ (mem_placeholdersMet.1 hq)
  have hlist : root.placeholders = placeholdersMet before ++ placeholdersMet after := by
    rw [← placeholdersMet_stops hw, hs, placeholdersMet_append]
    rfl
  have hsides {j : Nat} {q : Path} (hq : root.placeholders[j]? = some q) :
      j < (placeholdersMet before).length ∧ CaretStop.Precedes (.placeholder q) (.caret p) ∨
        (placeholdersMet before).length ≤ j ∧ CaretStop.Precedes (.caret p) (.placeholder q) := by
    rw [hlist, List.getElem?_append] at hq
    split at hq
    · rename_i hlt
      exact .inl ⟨hlt, hbefore (List.mem_of_getElem? hq)⟩
    · rename_i hle
      exact .inr ⟨Nat.not_lt.1 hle, hafter (List.mem_of_getElem? hq)⟩
  refine ⟨by simp [hlist], fun {j q} hq => ?_, fun {j q} hq => ?_⟩
  · rcases hsides hq with ⟨hlt, hside⟩ | ⟨hle, hside⟩
    · exact ⟨fun _ => hside, fun _ => hlt⟩
    · exact ⟨fun hlt => absurd hle (Nat.not_le.2 hlt), fun h => absurd h hside.not_precedes⟩
  · rcases hsides hq with ⟨hlt, hside⟩ | ⟨hle, hside⟩
    · exact ⟨fun hle => absurd hle (Nat.not_le.2 hlt), fun h => absurd hside h.not_precedes⟩
    · exact ⟨fun _ => hside, fun _ => hle⟩

theorem AtNthStop.currentStop (h : e.AtNthStop i) : e.currentStop = .caret e.caret := by
  have hnone : e.selectedPlaceholder? = none := by
    have hempty : e.selection.stopIndex - e.selection.startIndex = 0 := by
      rw [h.selection_eq]
      simp only [Selection.stopIndex, Selection.startIndex, Selection.stop, Selection.start,
        Selection.caret]
      omega
    simp [selectedPlaceholder?, hempty]
  simp [Editor.currentStop, hnone]

theorem AtNthStop.tabsTo (h : e.AtNthStop i) (hw : e.root.isWellFormed = true)
    (hne : e.root.placeholders ≠ []) :
    ∃ m, SplitsPlaceholders e.root e.caret m ∧
      (e.boundary .forward = .wrap →
        e.TabsTo (m % e.root.placeholders.length) (e.tab .forward)) ∧
      (e.boundary .backward = .wrap →
        e.TabsTo ((m + e.root.placeholders.length - 1) % e.root.placeholders.length)
          (e.tab .backward)) := by
  have hmet := placeholdersMet_stops hw
  have hstop : CaretStop.caret e.caret ∈ e.root.stops :=
    mem_caretStops.1 (List.mem_of_getElem? h.getElem?)
  obtain ⟨before, after, hsplit⟩ := List.append_of_mem hstop
  have hlist : e.root.placeholders = placeholdersMet before ++ placeholdersMet after := by
    rw [← hmet, hsplit, placeholdersMet_append]
    rfl
  have hpos := List.length_pos_iff.2 hne
  refine ⟨(placeholdersMet before).length, splitsPlaceholders hw hsplit, fun hwrap => ?_,
    fun hwrap => ?_⟩
  · refine tabsTo_of_nearest? hw h.validate hwrap (h.currentStop ▸ hsplit) (Nat.mod_lt _ hpos) ?_
    rw [hlist] at hne ⊢
    exact head?_append_ring _ _ hne
  · refine tabsTo_of_nearest? hw h.validate hwrap (h.currentStop ▸ hsplit) (Nat.mod_lt _ hpos) ?_
    rw [hlist] at hne ⊢
    exact getLast?_append_ring _ _ hne

/-- In a well-formed formula with placeholders the tabulator goes from a selected placeholder to the
next or previous one, and from a caret to the first one after it or the last one before it, around the
ends of the formula. -/
theorem tab_placeholders (hw : e.root.isWellFormed = true) (hne : e.root.placeholders ≠ [])
    (hwrap : ∀ d, e.boundary d = .wrap) :
    (∀ j p, e.root.placeholders[j]? = some p → e.SelectsAtom p →
      e.TabsTo ((j + 1) % e.root.placeholders.length) e.moveToNextPlaceholder ∧
      e.TabsTo ((j + e.root.placeholders.length - 1) % e.root.placeholders.length)
        e.moveToPreviousPlaceholder) ∧
    ∀ i, e.AtNthStop i → ∃ m, SplitsPlaceholders e.root e.caret m ∧
      e.TabsTo (m % e.root.placeholders.length) e.moveToNextPlaceholder ∧
      e.TabsTo ((m + e.root.placeholders.length - 1) % e.root.placeholders.length)
        e.moveToPreviousPlaceholder := by
  refine ⟨fun j p hj hsel => ⟨?_, ?_⟩, fun i hi => ?_⟩
  · exact hsel.tabsTo (d := .forward) hw (hwrap _) hj
  · exact hsel.tabsTo (d := .backward) hw (hwrap _) hj
  · obtain ⟨m, hm, hnext, hprevious⟩ := hi.tabsTo hw hne
    exact ⟨m, hm, hnext (hwrap _), hprevious (hwrap _)⟩

/-- A placeholder with a placeholder as its superscript, and an empty fraction. -/
def slotsToFill : Atom :=
  let base : Atom := .node ⟨1, .placeholder, none, none, Marks.none⟩
    { Branches.none with superscript := some [.placeholder 2] }
  let fraction : Atom := .node ⟨3, .fraction, some "\\frac", none, Marks.none⟩
    { Branches.none with numerator := some [.placeholder 4], denominator := some [.placeholder 5] }
  .node ⟨0, .root, none, none, Marks.none⟩ { Branches.none with body := some [base, fraction] }

/-- The empty denominator is selected backward. -/
def denominatorSelected : Editor :=
  { ofRoot slotsToFill 6 with
    selection := ⟨⟨[⟨.body, 1⟩, ⟨.denominator, 0⟩]⟩, ⟨[⟨.body, 1⟩, ⟨.denominator, -1⟩]⟩⟩ }

/-- The caret is between the scripted placeholder and the fraction. -/
def betweenSlots : Editor :=
  (ofRoot slotsToFill 6).setCaret (Path.inRoot 0)

theorem tab_placeholders_slotsToFill :
    (denominatorSelected.SelectsAtom ⟨[⟨.body, 1⟩, ⟨.denominator, 0⟩]⟩ ∧
      denominatorSelected.TabsTo 0 denominatorSelected.moveToNextPlaceholder ∧
      denominatorSelected.TabsTo 2 denominatorSelected.moveToPreviousPlaceholder) ∧
    betweenSlots.AtNthStop 2 ∧ ∃ m, SplitsPlaceholders slotsToFill (Path.inRoot 0) m ∧
      betweenSlots.TabsTo (m % 4) betweenSlots.moveToNextPlaceholder ∧
      betweenSlots.TabsTo ((m + 4 - 1) % 4) betweenSlots.moveToPreviousPlaceholder := by
  have hw : slotsToFill.isWellFormed = true := by decide
  have hne : slotsToFill.placeholders ≠ [] := by decide
  have hselects : denominatorSelected.SelectsAtom ⟨[⟨.body, 1⟩, ⟨.denominator, 0⟩]⟩ :=
    .inr (by decide)
  have hstop : betweenSlots.AtNthStop 2 := ⟨by decide, by decide⟩
  have hfromSlot := (tab_placeholders (e := denominatorSelected) hw hne fun _ => rfl).1 3 _ (by decide)
    hselects
  have hfromCaret := (tab_placeholders (e := betweenSlots) hw hne fun _ => rfl).2 2 hstop
  exact ⟨⟨hselects, hfromSlot.1, hfromSlot.2⟩, hstop, hfromCaret⟩

end Editor

end FormulaEditor

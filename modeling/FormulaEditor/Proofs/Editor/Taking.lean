import FormulaEditor.Proofs.Editor.Erasing

/-!
# What an insertion takes out

An insertion divides the branch of the caret: the selected atoms go, and so do those before them that
the text takes as its argument, back to the nearest operator or opening delimiter. The rest stays
around the place where the text goes.
-/

namespace FormulaEditor

/-- The parts of a branch into which text is inserted. -/
structure InsertionParts where
  /-- What stays before the text. -/
  before : List Atom
  /-- What the text takes as its argument without its being selected. -/
  implicit : List Atom
  selected : List Atom
  /-- What stays behind the text. -/
  after : List Atom

namespace InsertionParts

/-- The atoms that stay. -/
def kept (parts : InsertionParts) : List Atom :=
  parts.before ++ parts.after

/-- The atoms that go. -/
def removed (parts : InsertionParts) : List Atom :=
  parts.implicit ++ parts.selected

/-- What a reference to the argument stands for. Selected placeholders alone count as nothing. -/
def argument (parts : InsertionParts) : List Atom :=
  if parts.selected.all Atom.isPlaceholder then parts.implicit else parts.selected

/-- Whether a text takes what is before the caret: it refers to it, nothing is selected, and there is
more in the branch than a lone placeholder. -/
def takesImplicit (parts : InsertionParts) (text : String) : Bool :=
  parts.selected.all Atom.isPlaceholder && takesImplicitArgument text.toList &&
    !isPlaceholderOnly (parts.before ++ parts.implicit ++ parts.after)

/-- The parts are those of the branch `atoms` in which the atoms from `start` up to `stop` are
selected. -/
structure Divides (parts : InsertionParts) (atoms : List Atom) (start stop : Nat) (text : String) :
    Prop where
  atoms_eq : atoms = parts.before ++ parts.implicit ++ parts.selected ++ parts.after
  start_eq : start = (parts.before ++ parts.implicit).length
  stop_eq : stop = (parts.before ++ parts.implicit ++ parts.selected).length
  implicit_eq_nil : parts.takesImplicit text = false → parts.implicit = []
  /-- The implicit argument reaches back to where one ends, or to the start of the branch. -/
  implicit_run : parts.takesImplicit text = true →
    (∀ a ∈ parts.implicit, endsImplicitArgument a = false) ∧
      ∀ a, parts.before.getLast? = some a → endsImplicitArgument a = true

end InsertionParts

/-- A list ends in the longest run of elements with a property. -/
theorem exists_append_countAtEnd {α : Type} (p : α → Bool) (xs : List α) :
    ∃ front run, xs = front ++ run ∧ countAtEnd p xs = run.length ∧ (∀ x ∈ run, p x = true) ∧
      ∀ x, front.getLast? = some x → p x = false := by
  refine ⟨(xs.reverse.dropWhile p).reverse, (xs.reverse.takeWhile p).reverse, ?_, ?_, ?_, ?_⟩
  · rw [← List.reverse_append, List.takeWhile_append_dropWhile, List.reverse_reverse]
  · rw [countAtEnd, List.length_reverse]
  · intro x hx
    exact List.all_eq_true.1 List.all_takeWhile x (List.mem_reverse.1 hx)
  · intro x hx
    rw [List.getLast?_reverse] at hx
    have hhead := List.head?_dropWhile_not p xs.reverse
    rw [hx] at hhead
    simpa using hhead

namespace Editor

variable {e : Editor} {root owner : Atom} {q : Path} {slot : Slot} {atoms before after : List Atom}
  {anchor focus : Int}

/-- The selected atoms are taken out of their branch, and the caret is where they were. -/
theorem SelectsIn.takeSelection_eq (hsel : e.SelectsIn q slot owner atoms anchor focus)
    (h : e.Sound) :
    ∃ before selected after, atoms = before ++ selected ++ after ∧
      e.selection.startIndex = before.length ∧
      e.selection.stopIndex = before.length + selected.length ∧
      e.takeSelection.1 = (if selected.all Atom.isPlaceholder then [] else selected) ∧
      e.takeSelection.2.OpenedAtCaret e.root q slot owner atoms (before ++ after)
        ((before.length : Int) - 1) ∧ e.takeSelection.2.supply = e.supply := by
  obtain ⟨hstart, -, -, -⟩ := hsel.start_stop
  obtain ⟨hle, hlen⟩ := hsel.startIndex_le
  obtain ⟨hindex, hstop⟩ := hsel.indices
  have hlength : (atoms.take e.selection.startIndex).length = e.selection.startIndex := by
    rw [List.length_take]
    omega
  have hchosen : (slice atoms e.selection.startIndex e.selection.stopIndex).length =
      e.selection.stopIndex - e.selection.startIndex := length_slice hlen
  refine ⟨atoms.take e.selection.startIndex,
    slice atoms e.selection.startIndex e.selection.stopIndex, atoms.drop e.selection.stopIndex,
    (splice_slice atoms hle).symm, hlength.symm, by omega, ?_⟩
  rw [hlength]
  unfold Editor.takeSelection
  simp only
  split
  · rename_i hcollapsed
    have heq : anchor = focus := by
      have hpaths : q.child slot anchor = q.child slot focus := by
        simpa [Selection.isCollapsed, hsel.selection_eq] using hcollapsed
      exact (Path.child_injective hpaths).2.2
    have hsame : e.selection.stopIndex = e.selection.startIndex := by omega
    have hnone : slice atoms e.selection.startIndex e.selection.stopIndex = [] :=
      List.length_eq_zero_iff.1 (by omega)
    rw [hnone, hsame, List.take_append_drop, show ((e.selection.startIndex : Nat) : Int) - 1 = focus by
      omega]
    refine ⟨rfl, ⟨h.opened hsel.branch, ?_, hsel.focus⟩, rfl⟩
    rw [hsel.selection_eq, heq]
    rfl
  · have hbranch : ((q.child slot (min anchor focus)).branch? e.root).getD [] = atoms := by
      rw [hsel.branch.branch?, Option.getD_some]
    have hroot : (e.setCaret (q.child slot (min anchor focus))).root = e.root := rfl
    simp only [hstart, hroot, hbranch, Nat.not_lt.2 hlen, if_false, true_and]
    have hopened := ((h.opened hsel.branch).setCaret (q.child slot (min anchor focus))).remove
      (min anchor focus) e.selection.startIndex e.selection.stopIndex
    have hspliced : splice atoms e.selection.startIndex e.selection.stopIndex [] =
        atoms.take e.selection.startIndex ++ atoms.drop e.selection.stopIndex := by
      rw [splice, List.append_nil]
    rw [hspliced] at hopened ⊢
    refine ⟨⟨hopened, ?_, ?_⟩, rfl⟩
    · rw [show ((e.selection.startIndex : Nat) : Int) - 1 = min anchor focus by omega]
      rfl
    · have ho := isOffset_length_sub_one (atoms.take e.selection.startIndex)
        (atoms.drop e.selection.stopIndex)
      rwa [hlength] at ho

/-- What is before the caret is taken out, back to where an implicit argument starts. -/
theorem OpenedAtCaret.takeImplicitArgument_eq
    (h : e.OpenedAtCaret root q slot owner atoms (before ++ after) ((before.length : Int) - 1))
    (hlone : isPlaceholderOnly (before ++ after) = false) :
    ∃ front run, before = front ++ run ∧ (∀ a ∈ run, endsImplicitArgument a = false) ∧
      (∀ a, front.getLast? = some a → endsImplicitArgument a = true) ∧
      e.takeImplicitArgument.1 = run ∧
      e.takeImplicitArgument.2.OpenedAtCaret root q slot owner atoms (front ++ after)
        ((front.length : Int) - 1) ∧ e.takeImplicitArgument.2.supply = e.supply := by
  obtain ⟨front, run, rfl, hcount, hrun, hfront⟩ :=
    exists_append_countAtEnd (fun a => !endsImplicitArgument a) before
  refine ⟨front, run, rfl, fun a ha => by simpa using hrun a ha, fun a ha => by
    simpa using hfront a ha, ?_⟩
  have hstop : min (((front ++ run).length : Int) - 1 + 1).toNat ((front ++ run) ++ after).length =
      (front ++ run).length := by
    rw [Int.sub_add_cancel, Int.toNat_natCast]
    simp
  have hstart : (front ++ run).length - countAtEnd (fun a => !endsImplicitArgument a) (front ++ run) =
      front.length := by
    rw [hcount, List.length_append, Nat.add_sub_cancel]
  unfold Editor.takeImplicitArgument
  simp only [h.caret_eq, h.branch?, hlone, Bool.false_eq_true, if_false, Path.offset_child,
    Path.withOffset_child, hstop, List.take_left, hstart]
  rw [List.length_append, slice_append_append, splice_append_append, List.append_nil]
  refine ⟨rfl, ⟨?_, rfl, isOffset_length_sub_one front after⟩, rfl⟩
  have hwf : ∀ a ∈ front ++ after, a.isWellFormed = true := fun a ha =>
    h.wellFormed a (by
      simp only [List.mem_append] at ha ⊢
      exact ha.imp_left .inl)
  exact (h.putBranch _ hwf).setCaret _

/-- Taking out the argument of a text divides the branch of the caret. -/
theorem SelectsIn.takeArgument_eq (hsel : e.SelectsIn q slot owner atoms anchor focus)
    (h : e.Sound) (text : String) :
    ∃ parts : InsertionParts,
      parts.Divides atoms e.selection.startIndex e.selection.stopIndex text ∧
      (e.takeArgument text).1 = parts.argument ∧
      (e.takeArgument text).2.OpenedAtCaret e.root q slot owner atoms parts.kept
        ((parts.before.length : Int) - 1) ∧ (e.takeArgument text).2.supply = e.supply := by
  obtain ⟨before, selected, after, hatoms, hstart, hstop, htaken, hopened, hsupply⟩ :=
    hsel.takeSelection_eq h
  let plain : InsertionParts := ⟨before, [], selected, after⟩
  have hplain : plain.takesImplicit text = (selected.all Atom.isPlaceholder &&
      takesImplicitArgument text.toList && !isPlaceholderOnly (before ++ after)) := by
    simp [plain, InsertionParts.takesImplicit]
  have hempty : e.takeSelection.1.isEmpty = selected.all Atom.isPlaceholder := by
    rw [htaken]
    cases hall : selected.all Atom.isPlaceholder with
    | true => rfl
    | false => cases selected with
      | nil => cases hall
      | cons => rfl
  unfold Editor.takeArgument
  simp only [hempty]
  cases himplicit : plain.takesImplicit text with
  | false =>
      refine ⟨plain, ⟨by simp [plain, hatoms], by simp [plain, hstart], by simp [plain, hstop],
        fun _ => rfl, fun htakes => by rw [himplicit] at htakes; cases htakes⟩, ?_⟩
      rw [hplain] at himplicit
      split
      · rename_i htakes
        have hlone : isPlaceholderOnly (before ++ after) = true := by simpa [htakes] using himplicit
        obtain ⟨hall, -⟩ := Bool.and_eq_true .. ▸ htakes
        have hsame : e.takeSelection.2.takeImplicitArgument = ([], e.takeSelection.2) := by
          unfold Editor.takeImplicitArgument
          simp only [hopened.caret_eq, hopened.branch?, hlone, if_true]
        rw [hsame]
        exact ⟨by simp [plain, InsertionParts.argument, hall], hopened, hsupply⟩
      · exact ⟨htaken, hopened, hsupply⟩
  | true =>
      have htakes := himplicit
      rw [hplain] at htakes
      simp only [Bool.and_eq_true, Bool.not_eq_true'] at htakes
      obtain ⟨⟨hall, htext⟩, hlone⟩ := htakes
      obtain ⟨front, run, rfl, hrun, hfront, hargument, hleft, hleftSupply⟩ :=
        hopened.takeImplicitArgument_eq hlone
      have htakes : InsertionParts.takesImplicit ⟨front, run, selected, after⟩ text = true := by
        simp only [InsertionParts.takesImplicit, hall, htext, hlone]
        rfl
      rw [if_pos (by rw [hall, htext]; rfl)]
      refine ⟨⟨front, run, selected, after⟩, ⟨hatoms, hstart, ?_, fun hnone => ?_,
        fun _ => ⟨hrun, hfront⟩⟩, ?_, hleft, hleftSupply.trans hsupply⟩
      · rw [hstop]
        simp only [List.length_append]
      · rw [htakes] at hnone
        cases hnone
      · rw [hargument, InsertionParts.argument, if_pos hall]

end Editor

end FormulaEditor

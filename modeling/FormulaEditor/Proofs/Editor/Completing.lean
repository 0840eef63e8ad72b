import FormulaEditor.Proofs.Editor.Suggesting
import FormulaEditor.Proofs.Editor.Replacing

/-!
# A command from its backslash to its completion

While a command is typed its characters stand together in the branch of the caret: the typed ones
before the caret, the suggested ones behind it, and around them the atoms that were there before.
Each step of typing keeps this shape. Completing the command takes its characters out again, so what
is left are the atoms around.
-/

namespace FormulaEditor

/-! ## The run around the caret -/

theorem countAtEnd_append_of_forall {α : Type} {p : α → Bool} {xs ys : List α}
    (hx : ∀ x ∈ xs.getLast?, p x = false) (hy : ∀ y ∈ ys, p y = true) :
    countAtEnd p (xs ++ ys) = ys.length := by
  have hstop : xs.reverse.takeWhile p = [] := by
    cases hr : xs.reverse with
    | nil => rfl
    | cons x rest =>
        have hlast : xs.getLast? = some x := by rw [List.getLast?_eq_head?_reverse, hr]; rfl
        simp [hx x hlast]
  unfold countAtEnd
  rw [List.reverse_append, List.takeWhile_append_of_pos (by simpa using hy), hstop,
    List.append_nil, List.length_reverse]

theorem countAtStart_append_of_forall {α : Type} {p : α → Bool} {xs ys : List α}
    (hx : ∀ x ∈ xs, p x = true) (hy : ∀ y ∈ ys.head?, p y = false) :
    countAtStart p (xs ++ ys) = xs.length := by
  have hstop : ys.takeWhile p = [] := by
    cases ys with
    | nil => rfl
    | cons y rest => simp [hy y rfl]
  unfold countAtStart
  rw [List.takeWhile_append_of_pos hx, hstop, List.append_nil]

/-- Command atoms with none next to them are the run around a gap between them. -/
theorem CommandRun.around_append {before typed rest after : List Atom}
    (hbefore : ∀ a ∈ before.getLast?, isCommandChar a = false)
    (htyped : ∀ a ∈ typed, isCommandChar a = true) (hrest : ∀ a ∈ rest, isCommandChar a = true)
    (hafter : ∀ a ∈ after.head?, isCommandChar a = false) :
    CommandRun.around (before ++ typed ++ (rest ++ after))
        ((before.length + typed.length : Nat) - 1) =
      ⟨before.length, before.length + typed.length + rest.length,
        before.length + typed.length⟩ := by
  have hcaret : min (((before.length + typed.length : Nat) : Int) - 1 + 1).toNat
      (before ++ typed ++ (rest ++ after)).length = (before ++ typed).length := by
    simp only [List.length_append]
    omega
  unfold CommandRun.around
  simp only [hcaret]
  rw [List.take_left, List.drop_left, countAtEnd_append_of_forall hbefore htyped,
    countAtStart_append_of_forall hrest hafter, List.length_append, Nat.add_sub_cancel]

/-- The characters that command atoms stand for. -/
def spelledBy (atoms : List Atom) : List Char :=
  atoms.flatMap fun a => (a.value.getD "").toList

theorem spelledBy_append (as bs : List Atom) : spelledBy (as ++ bs) = spelledBy as ++ spelledBy bs :=
  List.flatMap_append

theorem Atom.value_mapMarks (a : Atom) (f : Marks → Marks) : (a.mapMarks f).value = a.value := by
  cases a
  rfl

theorem spelledBy_map_mapMarks (atoms : List Atom) (f : Marks → Marks) :
    spelledBy (atoms.map fun a => a.mapMarks f) = spelledBy atoms := by
  simp only [spelledBy, List.flatMap_map, Atom.value_mapMarks]

theorem isPlaceholderOnly_of_isCommandChar {atoms : List Atom} {a : Atom} (hm : a ∈ atoms)
    (ha : isCommandChar a = true) : isPlaceholderOnly atoms = false := by
  have hk : a.kind = .command := beq_iff_eq.1 ha
  exact isPlaceholderOnly_eq_false hm (by rw [Atom.isPlaceholder, hk]; rfl)

namespace Editor

/-- Characters of a command, all typed or all suggested. -/
structure CommandChars (chars : List Atom) (suggested : Bool) : Prop where
  isCommandChar : ∀ a ∈ chars, isCommandChar a = true
  exists_char : ∀ a ∈ chars, ∃ c, a.value = some (String.singleton c)
  isSuggested : ∀ a ∈ chars, isSuggested a = suggested

theorem commandChars_nil (suggested : Bool) : CommandChars [] suggested :=
  ⟨nofun, nofun, nofun⟩

theorem CommandChars.append {as bs : List Atom} {suggested : Bool} (ha : CommandChars as suggested)
    (hb : CommandChars bs suggested) : CommandChars (as ++ bs) suggested :=
  ⟨List.forall_mem_append.2 ⟨ha.isCommandChar, hb.isCommandChar⟩,
    List.forall_mem_append.2 ⟨ha.exists_char, hb.exists_char⟩, List.forall_mem_append.2 ⟨ha.isSuggested, hb.isSuggested⟩⟩

theorem commandChars_newCommandChar (c : Char) (n : Nat) :
    CommandChars [(Atom.newCommandChar c n).1] false :=
  ⟨List.forall_mem_singleton.2 rfl, List.forall_mem_singleton.2 ⟨c, rfl⟩,
    List.forall_mem_singleton.2 rfl⟩

theorem CommandChars.mapMarks {chars : List Atom} {suggested suggested' : Bool}
    (h : CommandChars chars suggested) {f : Marks → Marks}
    (hf : ∀ m, m.suggestion = suggested → (f m).suggestion = suggested') :
    CommandChars (chars.map fun a => a.mapMarks f) suggested' := by
  have hmarks (a : Atom) : (a.mapMarks f).marks = f a.marks := by
    cases a
    rfl
  refine ⟨fun a ha => ?_, fun a ha => ?_, fun a ha => ?_⟩
  · obtain ⟨b, hb, rfl⟩ := List.mem_map.1 ha
    simpa [FormulaEditor.isCommandChar] using h.isCommandChar b hb
  · obtain ⟨b, hb, rfl⟩ := List.mem_map.1 ha
    rw [Atom.value_mapMarks]
    exact h.exists_char b hb
  · obtain ⟨b, hb, rfl⟩ := List.mem_map.1 ha
    rw [FormulaEditor.isSuggested, hmarks]
    exact hf _ (h.isSuggested b hb)

theorem typedText_of_typed {chars : List Atom} (h : CommandChars chars false) :
    typedText chars = spelledBy chars := by
  unfold typedText
  rw [List.filter_eq_self.2 fun a ha => by rw [h.isSuggested a ha]; rfl]
  rfl

theorem filter_of_suggested {chars : List Atom} (h : CommandChars chars true) :
    (chars.filter fun a => !isSuggested a) = [] :=
  List.filter_eq_nil_iff.2 fun a ha => by simp [h.isSuggested a ha]

theorem filter_of_typed {chars : List Atom} (h : CommandChars chars false) :
    (chars.filter fun a => !isSuggested a) = chars :=
  List.filter_eq_self.2 fun a ha => by simp [h.isSuggested a ha]

theorem spelledBy_newCommandChar (c : Char) (n : Nat) :
    spelledBy [(Atom.newCommandChar c n).1] = [c] := by
  show (String.singleton c).toList ++ [] = [c]
  simp

theorem commandChars_newCommandChars (text : List Char) (n : Nat) :
    CommandChars (newCommandChars text n).1 false ∧
      spelledBy (newCommandChars text n).1 = text := by
  induction text generalizing n with
  | nil => exact ⟨commandChars_nil false, rfl⟩
  | cons c rest ih =>
      obtain ⟨hchars, hspelled⟩ := ih (Atom.newCommandChar c n).2
      refine ⟨(commandChars_newCommandChar c n).append hchars, ?_⟩
      simp only [newCommandChars, Minting.bind_apply, Minting.pure_apply]
      show spelledBy ([(Atom.newCommandChar c n).1] ++ _) = _
      rw [spelledBy_append, hspelled, spelledBy_newCommandChar]
      rfl

variable {e : Editor}

/-! ## The command in its branch -/

/-- A command is being typed in the branch of the caret, between `before` and `after`: the caret is
behind the characters `chars` and before the suggested ones. -/
structure TypesCommand (e : Editor) (root : Atom) (q : Path) (slot : Slot) (owner : Atom)
    (atoms before chars suggested after : List Atom) : Prop extends
    e.OpenedAtCaret root q slot owner atoms (before ++ chars ++ (suggested ++ after))
      ((before.length + chars.length : Nat) - 1) where
  mode_eq : e.mode = .command
  ne_nil : chars ≠ []
  typed : CommandChars chars false
  rest : CommandChars suggested true
  before : ∀ a ∈ before, isCommandChar a = false
  after : ∀ a ∈ after, isCommandChar a = false

section

variable {root owner : Atom} {q : Path} {slot : Slot}
  {atoms content before chars suggested after inserted : List Atom} {offset : Int}

theorem TypesCommand.of_eq (h : e.TypesCommand root q slot owner atoms before chars suggested after)
    {e' : Editor} (hr : e'.root = e.root) (hs : e'.selection = e.selection) (hm : e'.mode = e.mode) :
    e'.TypesCommand root q slot owner atoms before chars suggested after :=
  ⟨h.toOpenedAtCaret.of_eq hr hs, hm.trans h.mode_eq, h.ne_nil, h.typed, h.rest, h.before, h.after⟩

theorem TypesCommand.sound
    (h : e.TypesCommand root q slot owner atoms before chars suggested after) : e.Sound := by
  have hne : before ++ chars ++ (suggested ++ after) ≠ [] := by simp [h.ne_nil]
  exact h.toOpened.sound_of_ne_nil hne h.selection_eq h.isOffset h.isOffset

theorem TypesCommand.isPlaceholderOnly
    (h : e.TypesCommand root q slot owner atoms before chars suggested after) :
    isPlaceholderOnly (before ++ chars ++ (suggested ++ after)) = false := by
  obtain ⟨a, ha⟩ := List.exists_mem_of_ne_nil chars h.ne_nil
  exact isPlaceholderOnly_of_isCommandChar (by simp [ha]) (h.typed.isCommandChar a ha)

/-- The run around the caret is the command. -/
theorem TypesCommand.onCommandRun
    (h : e.TypesCommand root q slot owner atoms before chars suggested after) {α : Type}
    (default : α) (f : List Atom → CommandRun → α) :
    e.onCommandRun default f = f (before ++ chars ++ (suggested ++ after))
      ⟨before.length, before.length + chars.length + suggested.length,
        before.length + chars.length⟩ := by
  have hbefore : ∀ a ∈ before.getLast?, isCommandChar a = false :=
    fun a ha => h.before a (List.mem_of_getLast? ha)
  have hafter : ∀ a ∈ after.head?, isCommandChar a = false :=
    fun a ha => h.after a (List.mem_of_head? ha)
  unfold Editor.onCommandRun
  simp only [h.caret_eq, h.branch?, Path.offset_child, CommandRun.around_append hbefore
    h.typed.isCommandChar h.rest.isCommandChar hafter]

/-- Atoms put in at the caret are before the caret then. -/
theorem OpenedAtCaret.insertAtCaret (h : e.OpenedAtCaret root q slot owner atoms content offset)
    (hwf : ∀ a ∈ inserted, a.isWellFormed = true) :
    (e.insertAtCaret inserted).OpenedAtCaret root q slot owner atoms
      (withInserted content (q.child slot offset) inserted)
      (((insertionPoint (q.child slot offset) content).1 + inserted.length : Nat) - 1) := by
  have hopened := h.putBranch offset (h.toOpened.isWellFormed_withInserted offset hwf)
  have hlength := length_withInserted h.isOffset q slot inserted
  unfold Editor.insertAtCaret
  simp only [h.caret_eq, h.branch?, Path.withOffset_child]
  refine ⟨hopened.setCaret _, rfl, ?_, by omega⟩
  simp only [leadingGap]
  omega

theorem mode_insertAtCaret (e : Editor) (inserted : List Atom) :
    (e.insertAtCaret inserted).mode = e.mode := by
  unfold Editor.insertAtCaret
  simp only
  split <;> rfl

theorem OpenedAtCaret.typeIntoCommand (h : e.OpenedAtCaret root q slot owner atoms content offset)
    (c : Char) :
    (e.typeIntoCommand c).OpenedAtCaret root q slot owner atoms
        (withInserted content (q.child slot offset) [(Atom.newCommandChar c e.supply).1])
        ((insertionPoint (q.child slot offset) content).1 : Nat) ∧
      (e.typeIntoCommand c).mode = e.mode := by
  have hkept : e.removeSelection = e := by
    unfold Editor.removeSelection
    simp only [h.isCollapsed, if_true]
  have hminted : (e.mint (Atom.newCommandChar c)).2.OpenedAtCaret root q slot owner atoms content
      offset := h.of_eq rfl rfl
  unfold Editor.typeIntoCommand
  rw [hkept]
  have hinserted := hminted.insertAtCaret (isWellFormed_commandChar c e.supply)
  rw [List.length_singleton, Int.natCast_add, Int.natCast_one, Int.add_sub_cancel] at hinserted
  exact ⟨hinserted, mode_insertAtCaret _ _⟩

/-- One more character of the command. -/
theorem TypesCommand.typeIntoCommand
    (h : e.TypesCommand root q slot owner atoms before chars suggested after) (c : Char) :
    (e.typeIntoCommand c).TypesCommand root q slot owner atoms before
      (chars ++ [(Atom.newCommandChar c e.supply).1]) suggested after := by
  obtain ⟨hopened, hmode⟩ := h.toOpenedAtCaret.typeIntoCommand c
  have hpoint : insertionPoint (q.child slot ((before.length + chars.length : Nat) - 1))
      (before ++ chars ++ (suggested ++ after)) =
      ((before ++ chars).length, before ++ chars ++ (suggested ++ after)) := by
    unfold insertionPoint
    rw [h.isPlaceholderOnly, Path.offset_child, List.length_append, Int.sub_add_cancel,
      Int.toNat_natCast]
    rfl
  rw [withInserted, hpoint] at hopened
  simp only [splice, List.take_left, List.drop_left] at hopened
  refine ⟨?_, hmode.trans h.mode_eq, by simp, h.typed.append (commandChars_newCommandChar c _),
    h.rest, h.before, h.after⟩
  have hindex : ((before.length + (chars ++ [(Atom.newCommandChar c e.supply).1]).length : Nat) : Int)
      - 1 = ((before ++ chars).length : Nat) := by
    simp only [List.length_append, List.length_singleton]
    omega
  rw [hindex, ← List.append_assoc before]
  exact hopened

/-- The slices of the branch that the run is made of, and the branch with the run replaced. -/
theorem slice_command (before chars suggested after : List Atom) :
    slice (before ++ chars ++ (suggested ++ after)) before.length
        (before.length + chars.length) = chars ∧
      slice (before ++ chars ++ (suggested ++ after)) (before.length + chars.length)
        (before.length + chars.length + suggested.length) = suggested ∧
      slice (before ++ chars ++ (suggested ++ after)) before.length
        (before.length + chars.length + suggested.length) = chars ++ suggested := by
  refine ⟨slice_append_append _ _ _, ?_, ?_⟩
  · rw [← List.append_assoc, ← List.length_append]
    exact slice_append_append _ _ _
  · rw [← List.append_assoc, List.append_assoc before, Nat.add_assoc, ← List.length_append]
    exact slice_append_append _ _ _

theorem splice_command (before chars suggested after middle : List Atom) :
    splice (before ++ chars ++ (suggested ++ after)) before.length
      (before.length + chars.length + suggested.length) middle = before ++ middle ++ after := by
  rw [← List.append_assoc, List.append_assoc before, Nat.add_assoc, ← List.length_append]
  exact splice_append_append _ _ _ _

theorem wellFormed_of_append {before middle after : List Atom}
    (h : ∀ a ∈ before ++ middle ++ after, a.isWellFormed = true) :
    (∀ a ∈ before, a.isWellFormed = true) ∧ (∀ a ∈ middle, a.isWellFormed = true) ∧
      ∀ a ∈ after, a.isWellFormed = true := by
  obtain ⟨hfront, hafter⟩ := List.forall_mem_append.1 h
  obtain ⟨hbefore, hmiddle⟩ := List.forall_mem_append.1 hfront
  exact ⟨hbefore, hmiddle, hafter⟩

/-- Other characters in place of the command. -/
theorem TypesCommand.putCommand
    (h : e.TypesCommand root q slot owner atoms before chars suggested after) {e' : Editor}
    {chars' suggested' : List Atom} (hm : e'.mode = e.mode)
    (hroot : e'.root = q.fill slot (before ++ chars' ++ (suggested' ++ after)) root)
    (hs : e'.selection =
      Selection.caret (q.child slot ((before.length + chars'.length : Nat) - 1)))
    (hne : chars' ≠ []) (htyped : CommandChars chars' false) (hrest : CommandChars suggested' true)
    (hwf : ∀ a ∈ chars' ++ suggested', a.isWellFormed = true) :
    e'.TypesCommand root q slot owner atoms before chars' suggested' after := by
  obtain ⟨hbefore, -, hafter⟩ :
      (∀ a ∈ before, a.isWellFormed = true) ∧ (∀ a ∈ chars ++ suggested, a.isWellFormed = true) ∧
        ∀ a ∈ after, a.isWellFormed = true :=
    wellFormed_of_append (by simpa only [List.append_assoc] using h.wellFormed)
  obtain ⟨hwf₁, hwf₂⟩ := List.forall_mem_append.1 hwf
  refine ⟨⟨⟨h.kind_root, h.isWellFormed, h.branch, hroot, ?_⟩, hs, ?_, ?_⟩, hm.trans h.mode_eq, hne,
    htyped, hrest, h.before, h.after⟩
  · exact List.forall_mem_append.2 ⟨List.forall_mem_append.2 ⟨hbefore, hwf₁⟩,
      List.forall_mem_append.2 ⟨hwf₂, hafter⟩⟩
  · simp only [leadingGap]
    omega
  · simp only [List.length_append]
    omega

theorem Opened.root_putBranch (h : e.Opened root q slot owner atoms content) (offset : Int)
    (content' : List Atom) :
    (e.putBranch (q.child slot offset) content').root = q.fill slot content' root := by
  show (q.child slot offset).putBranch content' e.root = _
  rw [Path.putBranch_child h.isBranch, h.root_eq, h.branch.fill_fill]

theorem TypesCommand.wellFormed_chars
    (h : e.TypesCommand root q slot owner atoms before chars suggested after) :
    ∀ a ∈ chars ++ suggested, a.isWellFormed = true :=
  (wellFormed_of_append (by simpa only [List.append_assoc] using h.wellFormed)).2.1

theorem TypesCommand.removeSuggestion
    (h : e.TypesCommand root q slot owner atoms before chars suggested after) :
    e.removeSuggestion.TypesCommand root q slot owner atoms before chars [] after := by
  obtain ⟨hchars, hsuggested, -⟩ := slice_command before chars suggested after
  unfold Editor.removeSuggestion
  rw [h.onCommandRun]
  simp only [hchars, hsuggested, filter_of_typed h.typed, filter_of_suggested h.rest,
    List.append_nil, splice_command, h.caret_eq, Path.withOffset_child]
  exact h.putCommand rfl (h.toOpened.root_putBranch _ _) rfl h.ne_nil h.typed (commandChars_nil true)
    fun a ha => h.wellFormed_chars a (by simpa using Or.inl (by simpa using ha))

/-- A suggestion stands behind the caret. -/
theorem TypesCommand.insertSuggestion
    (h : e.TypesCommand root q slot owner atoms before chars suggested after) (text : List Char) :
    ∃ suggested', spelledBy suggested' = text ∧
      (e.insertSuggestion text 0).TypesCommand root q slot owner atoms before chars suggested'
        after := by
  have hremoved := h.removeSuggestion
  obtain ⟨hnew, hspelled⟩ := commandChars_newCommandChars text e.removeSuggestion.supply
  have hwf := isWellFormed_newCommandChars text e.removeSuggestion.supply
  let made := e.removeSuggestion.mint (newCommandChars text)
  have hminted : made.2.TypesCommand root q slot owner atoms before chars [] after :=
    hremoved.of_eq rfl rfl rfl
  have hsplice : splice (before ++ chars ++ ([] ++ after)) (before.length + chars.length)
      (before.length + chars.length) (made.1.map asSuggested) =
        before ++ chars ++ (made.1.map asSuggested ++ after) := by
    have happ := splice_append_append (before ++ chars) [] after (made.1.map asSuggested)
    simpa only [List.length_append, List.length_nil, Nat.add_zero, List.append_nil,
      List.append_assoc, List.nil_append] using happ
  refine ⟨made.1.map asSuggested, (spelledBy_map_mapMarks _ _).trans hspelled, ?_⟩
  unfold Editor.insertSuggestion
  simp only [hremoved.onCommandRun, Nat.zero_min, Nat.sub_zero]
  show Editor.TypesCommand (setCaret (made.2.putBranch made.2.caret (splice _ _ _ _)) _) ..
  rw [hsplice, hminted.caret_eq, Path.withOffset_child]
  refine hminted.putCommand rfl (hminted.toOpened.root_putBranch _ _) rfl h.ne_nil h.typed
    (hnew.mapMarks fun _ _ => rfl) (List.forall_mem_append.2 ⟨?_, fun a ha => ?_⟩)
  · exact fun a ha => h.wellFormed_chars a (List.mem_append_left _ ha)
  · obtain ⟨b, hb, rfl⟩ := List.mem_map.1 ha
    exact (Atom.isWellFormed_mapMarks b _).2 (hwf b hb)

/-- The command with changed marks. -/
theorem TypesCommand.mapRun
    (h : e.TypesCommand root q slot owner atoms before chars suggested after) (f : Marks → Marks) :
    (e.mapRun (before ++ chars ++ (suggested ++ after)) before.length
      (before.length + chars.length + suggested.length) fun a => a.mapMarks f).root =
      q.fill slot (before ++ (chars ++ suggested).map (fun a => a.mapMarks f) ++ after) root := by
  unfold Editor.mapRun
  rw [(slice_command before chars suggested after).2.2, splice_command, h.caret_eq]
  exact h.toOpened.root_putBranch _ _

theorem TypesCommand.wellFormed_mapMarks
    (h : e.TypesCommand root q slot owner atoms before chars suggested after) (f : Marks → Marks) :
    ∀ a ∈ (chars ++ suggested).map fun a => a.mapMarks f, a.isWellFormed = true := by
  intro a ha
  obtain ⟨b, hb, rfl⟩ := List.mem_map.1 ha
  exact (Atom.isWellFormed_mapMarks b f).2 (h.wellFormed_chars b hb)

theorem TypesCommand.decorateCommand
    (h : e.TypesCommand root q slot owner atoms before chars suggested after) (error : Bool) :
    (e.decorateCommand error).TypesCommand root q slot owner atoms before
      (chars.map (withError error)) (suggested.map (withError error)) after := by
  unfold Editor.decorateCommand
  rw [h.onCommandRun]
  refine h.putCommand rfl ?_ ?_ (by simpa using h.ne_nil) (h.typed.mapMarks fun _ hm => hm)
    (h.rest.mapMarks fun _ hm => hm) ?_
  · refine (h.mapRun _).trans ?_
    rw [List.map_append, ← List.append_assoc before, List.append_assoc (before ++ _)]
    rfl
  · rw [List.length_map]
    exact h.selection_eq
  · rw [← List.map_append]
    exact h.wellFormed_mapMarks _

/-- Accepting a suggestion makes it typed. -/
theorem TypesCommand.acceptSuggestion
    (h : e.TypesCommand root q slot owner atoms before chars suggested after) :
    e.acceptSuggestion.TypesCommand root q slot owner atoms before
      ((chars ++ suggested).map asTyped) [] after := by
  let accepted (m : Marks) : Marks := { m with suggestion := false }
  unfold Editor.acceptSuggestion
  rw [h.onCommandRun]
  refine h.putCommand rfl ?_ ?_ (by simp [h.ne_nil]) ?_ (commandChars_nil true) ?_
  · rw [List.nil_append]
    exact h.mapRun _
  · rw [h.caret_eq, Path.withOffset_child, List.length_map, List.length_append, ← Nat.add_assoc]
    rfl
  · rw [List.map_append]
    exact (h.typed.mapMarks (f := accepted) fun _ _ => rfl).append
      (h.rest.mapMarks (f := accepted) fun _ _ => rfl)
  · rw [List.append_nil]
    exact h.wellFormed_mapMarks _

theorem TypesCommand.commandText
    (h : e.TypesCommand root q slot owner atoms before chars suggested after) :
    e.commandText = spelledBy chars ∧ e.commandTextBefore = spelledBy chars := by
  obtain ⟨hchars, -, hboth⟩ := slice_command before chars suggested after
  unfold Editor.commandText Editor.commandTextBefore
  simp only [h.onCommandRun, hchars, hboth]
  refine ⟨?_, typedText_of_typed h.typed⟩
  simp only [typedText, List.filter_append, filter_of_typed h.typed, filter_of_suggested h.rest,
    List.append_nil, spelledBy]

/-- Removing the command leaves what is around it. -/
theorem TypesCommand.removeCommand
    (h : e.TypesCommand root q slot owner atoms before chars suggested after) :
    ∃ e' : Editor, ∃ offset : Int, e'.Opened root q slot owner atoms (before ++ after) ∧
      e.removeCommand = e'.settleCaret (q.child slot offset) ((before.length : Int) - 1) := by
  have hmath : ({ e with mode := .math } : Editor).Opened root q slot owner atoms
      (before ++ chars ++ (suggested ++ after)) := h.toOpened.of_root_eq rfl
  have haround : ∀ a ∈ before ++ after, a.isWellFormed = true := fun a ha => h.wellFormed a (by
    rcases List.mem_append.1 ha with ha | ha <;> simp [ha])
  have hopened := hmath.putBranch ((before.length + chars.length : Nat) - 1) haround
  refine ⟨_, (before.length + chars.length : Nat) - 1, hopened, ?_⟩
  unfold Editor.removeCommand
  have hcaret : ({ e with mode := .math } : Editor).caret = e.caret := rfl
  have hrun {α : Type} (default : α) (f : List Atom → CommandRun → α) :
      ({ e with mode := .math } : Editor).onCommandRun default f = e.onCommandRun default f := rfl
  simp only [hrun, h.onCommandRun,
    splice_command, List.append_nil, hcaret, h.caret_eq]

/-- A backslash starts a command at the caret. -/
theorem OpenedAtCaret.enterCommandMode
    (h : e.OpenedAtCaret root q slot owner atoms content offset) (hs : e.Sound)
    (hnone : ∀ a ∈ content, isCommandChar a = false) :
    ∃ e' : Editor, e.enterCommandMode = .done e' ∧
      e'.TypesCommand root q slot owner atoms (beforeGap (q.child slot offset) content)
        [(Atom.newCommandChar '\\' e.supply).1] [] (afterGap (q.child slot offset) content) := by
  obtain ⟨hopened, -⟩ := h.typeIntoCommand '\\'
  have hpoint := insertionPoint_le h.isOffset q slot
  have hindex : (((insertionPoint (q.child slot offset) content).1 : Nat) : Int) =
      ((beforeGap (q.child slot offset) content).length +
        [(Atom.newCommandChar '\\' e.supply).1].length : Nat) - 1 := by
    rw [beforeGap, List.length_take, List.length_singleton]
    omega
  have hkept : ∀ a ∈ (insertionPoint (q.child slot offset) content).2, isCommandChar a = false := by
    unfold insertionPoint
    split
    · simp
    · exact hnone
  rw [withInserted_eq, hindex] at hopened
  refine ⟨{ e.typeIntoCommand '\\' with mode := .command }, ?_, hopened.of_eq rfl rfl, rfl, by simp,
    commandChars_newCommandChar _ _, commandChars_nil true, fun a ha => ?_, fun a ha => ?_⟩
  · unfold Editor.enterCommandMode
    rw [hs.whenValid]
  · exact hkept a (List.mem_of_mem_take ha)
  · exact hkept a (List.mem_of_mem_drop ha)

theorem spelledBy_accepted (chars suggested : List Atom) :
    spelledBy ((chars ++ suggested).map asTyped) = spelledBy chars ++ spelledBy suggested := by
  rw [← spelledBy_append]
  exact spelledBy_map_mapMarks _ _

/-- Completing a command inserts what it stands for, after its characters were taken out. -/
theorem TypesCommand.completeCommand
    (h : e.TypesCommand root q slot owner atoms before chars suggested after) {fragment : String}
    (hf : completion? (spelledBy chars ++ spelledBy suggested) = some fragment) :
    ∃ e' : Editor, ∃ offset : Int, e'.Opened root q slot owner atoms (before ++ after) ∧
      e.completeCommand = (e'.settleCaret (q.child slot offset) ((before.length : Int) - 1)).insert
        fragment (InsertOptions.latex .placeholder) := by
  have haccepted := h.acceptSuggestion
  obtain ⟨e', offset', hopened, hremoved⟩ := haccepted.removeCommand
  refine ⟨e', offset', hopened, ?_⟩
  unfold Editor.completeCommand
  rw [h.sound.whenValid]
  simp only [haccepted.commandText.1, spelledBy_accepted, hf, hremoved]

end

end Editor

end FormulaEditor

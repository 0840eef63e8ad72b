import FormulaEditor.Proofs.Field.Keys
import FormulaEditor.Proofs.Formula.Filtering
import FormulaEditor.Proofs.Latex.Consisting

/-!
# Commands that are typed

Characters of commands are neither written nor spoken, so one that was left behind would not be
noticed. However a field is typed into, there are none in its formula while no command is typed, and
those of the command that is typed while there is one: a single run, of which the part behind the
caret is suggested and completes what was typed.
-/

namespace FormulaEditor

open Atom (ConsistsOf Items withLabels)

/-! ## Atoms of the formula itself -/

/-- The label of an atom that is neither a character of a command nor suggested. -/
def Label.Settled (l : Label) : Prop :=
  l.kind ≠ .command ∧ l.marks.suggestion = false

theorem Label.fresh_settled : Label.Fresh Label.Settled := by
  intro id kind value glyph hr
  refine ⟨?_, rfl⟩
  rintro rfl
  cases hr

theorem Label.repaired_settled : Label.Repaired Label.Settled where
  markError _ h := h
  unknown _ _ := ⟨Kind.noConfusion, rfl⟩

theorem Label.plain_settled : Label.Plain Label.Settled :=
  ⟨Label.fresh_settled.lasting, fun h => h.1⟩

namespace Editor

/-- Whatever is inserted is read as atoms of the formula. -/
theorem yields_settled (text : String) (format : InsertFormat) :
    Yields Label.Settled text format := by
  intro e args _ hargs
  generalize (if e.inText then Latex.ReadingMode.text else .math) = mode
  have hclosed : Latex.ReadingClosed args False (fun _ => True)
      fun _ a => Latex.IsItemOf Label.Settled a :=
    Latex.readingClosed_isItemOf Label.fresh_settled hargs (fun _ _ => Iff.rfl)
      fun _ => Label.repaired_settled
  have hread (source : String) : Items Label.Settled (e.readFragment source mode args).1 :=
    Latex.forall_parse hclosed (fun _ _ => trivial) mode e.supply False.elim
  unfold textAtoms
  split
  · unfold charAtoms
    split
    · exact hread _
    split
    · exact hread _
    split
    · exact Atom.items_singleton rfl (Atom.consistsOf_leaf _ _ _ _ (Label.fresh_settled _ _ _ _ rfl))
    split
    · exact Atom.items_nil
    · obtain ⟨hitem, hconsists⟩ := Latex.isItemOf_newMathChar Label.fresh_settled _ e.supply
      exact Atom.items_singleton hitem hconsists
  · exact hread _

end Editor

/-- There is nothing that typing could put into a formula other than atoms of the formula. -/
theorem typable_settled : Field.Typable Label.Settled (fun _ => True) fun _ => True where
  plain := Label.plain_settled
  isLetter _ _ := trivial
  char _ _ _ := Editor.yields_settled _ _
  word _ _ _ _ _ := Editor.yields_settled _ _
  key _ _ _ _ := Editor.yields_settled _ _

/-! ## What is shown -/

namespace Editor

/-- One command is typed: its characters are the only ones in the formula, the caret is between those
that were typed and those that are suggested, and together they spell the best completion. -/
structure ShowsCommand (e : Editor) (before typed suggested after : List Atom) : Prop where
  branch : e.caret.branch? e.root = some (before ++ (typed ++ suggested) ++ after)
  commandChars : e.root.subatoms.filter isCommandChar = typed ++ suggested
  suggestions : e.root.subatoms.filter isSuggested = suggested
  unsuggested : ∀ a ∈ typed, isSuggested a = false
  backslash : ∃ a rest, typed = a :: rest ∧ a.value = some "\\"
  collapsed : e.selection.isCollapsed = true
  offset : e.caret.offset = (before.length + typed.length : Nat) - 1
  completes : suggested ≠ [] → ∃ s, (Latex.Suggestion.ofStart (spelledBy typed)).head? = some s ∧
    spelledBy (typed ++ suggested) = '\\' :: s.name.toList

variable {e : Editor} {root owner : Atom} {q : Path} {slot : Slot}
  {atoms before chars suggested after : List Atom} {word : List Char} {T : Char → Prop}

theorem withLabels_eq_nil_of_settled {p : Label → Bool} (hp : ∀ l, l.Settled → p l = false)
    (h : ∀ a ∈ atoms, a.ConsistsOf Label.Settled) : withLabels p atoms = [] := by
  simp only [withLabels, List.filter_eq_nil_iff, Atom.subatomsOfList_eq_flatMap, List.mem_flatMap]
  rintro b ⟨a, ha, hb⟩
  rw [hp _ (h a ha b hb).1]
  exact Bool.false_ne_true

/-- The atoms of the formula with certain labels are those of the command. -/
theorem TypesIn.filter_subatoms
    (h : e.TypesIn Label.Settled root q slot owner atoms before chars suggested after)
    {p : Label → Bool} (hp : ∀ l, l.Settled → p l = false) :
    e.root.subatoms.filter (fun a => p a.label) = (chars ++ suggested).filter fun a => p a.label := by
  have hleaves : ∀ a ∈ chars ++ suggested, ∀ slot, a.branch slot = none := by
    intro a ha slot
    refine Atom.branch_eq_none (h.typesCommand.wellFormed_chars a ha) ?_
    have hk : a.kind = .command := by
      rcases List.mem_append.1 ha with ha | ha
      · simpa [isCommandChar] using h.typesCommand.typed.isCommandChar a ha
      · simpa [isCommandChar] using h.typesCommand.rest.isCommandChar a ha
    rw [hk]
    cases slot <;> rfl
  have hbefore := withLabels_eq_nil_of_settled hp fun a ha => (h.items_before a ha).2
  have hafter := withLabels_eq_nil_of_settled hp fun a ha => (h.items_after a ha).2
  have hroot := withLabels_eq_nil_of_settled hp (List.forall_mem_singleton.2 h.consistsOf)
  have hfill := h.typesCommand.branch.withLabels_fill hroot
    (before ++ (chars ++ suggested) ++ after)
  rw [Atom.withLabels_append, Atom.withLabels_append, hbefore, hafter,
    Atom.withLabels_of_leaves p hleaves, List.append_nil, List.nil_append] at hfill
  have hcontent : before ++ chars ++ (suggested ++ after) =
      before ++ (chars ++ suggested) ++ after := by simp
  rw [← hfill, h.typesCommand.root_eq, hcontent, withLabels, Atom.subatomsOfList,
    Atom.subatomsOfList, List.append_nil]

theorem TypesWord.showsCommand
    (h : e.TypesWord Label.Settled T root q slot owner atoms before chars suggested after word) :
    e.ShowsCommand before chars suggested after := by
  have htyped := h.typesIn.typesCommand.typed
  have hrest := h.typesIn.typesCommand.rest
  refine ⟨?_, ?_, ?_, htyped.isSuggested, ?_, h.typesIn.typesCommand.isCollapsed, ?_, fun hne => ?_⟩
  · rw [h.typesIn.typesCommand.caret_eq, h.typesIn.typesCommand.branch?]
    simp
  · refine (h.typesIn.filter_subatoms (p := fun l => l.kind == .command) ?_).trans ?_
    · exact fun l hl => by simpa using hl.1
    · exact List.filter_eq_self.2
        (List.forall_mem_append.2 ⟨htyped.isCommandChar, hrest.isCommandChar⟩)
  · refine (h.typesIn.filter_subatoms (p := fun l => l.marks.suggestion) fun l hl => hl.2).trans ?_
    have htypedOff : chars.filter isSuggested = [] :=
      List.filter_eq_nil_iff.2 fun a ha => by simp [htyped.isSuggested a ha]
    have hrestOn : suggested.filter isSuggested = suggested :=
      List.filter_eq_self.2 hrest.isSuggested
    show (chars ++ suggested).filter isSuggested = suggested
    rw [List.filter_append, htypedOff, hrestOn, List.nil_append]
  · obtain ⟨a, rest, rfl⟩ := List.exists_cons_of_ne_nil h.typesIn.typesCommand.ne_nil
    obtain ⟨c, hc⟩ := htyped.exists_char a List.mem_cons_self
    have hspelled : c :: spelledBy rest = '\\' :: word := by
      rw [← h.spelled]
      simp [spelledBy, hc]
    exact ⟨a, rest, rfl, hc.trans (by rw [(List.cons_eq_cons.1 hspelled).1]; rfl)⟩
  · rw [h.typesIn.typesCommand.caret_eq, Path.offset_child]
  · obtain ⟨-, hletters, hname⟩ := h.completes hne
    have hgoes : completedName word ≠ word := by
      intro heq
      have hlength := length_spelledBy hrest
      rw [heq] at hname
      rw [List.append_right_eq_self.1 hname] at hlength
      exact hne (List.length_eq_zero_iff.1 hlength.symm)
    rw [FormulaEditor.spelledBy_append, h.spelledBy_append, hname, h.spelled,
      Latex.Suggestion.ofStart_backslash hletters]
    unfold completedName at hgoes ⊢
    cases hhead : (Latex.Suggestion.ofStart word).head? with
    | some s => exact ⟨s, rfl, rfl⟩
    | none => exact absurd (by rw [hhead]) hgoes

end Editor

namespace Field

variable {f : Field}

/-- Whether a step is a character that is typed, or a key. -/
def Step.isTyped : Step → Bool
  | typeChar _ | keystroke _ => true
  | perform _ | setLatex _ => false

theorem Tidy.after (hf : f.Tidy Label.Settled fun _ => True) {step : Step}
    (hs : step.isTyped = true) : (f.after step).Tidy Label.Settled fun _ => True := by
  cases step with
  | perform c => cases hs
  | setLatex source => cases hs
  | typeChar c => exact hf.typeChar typable_settled ⟨fun _ _ => trivial, fun _ _ => trivial⟩
  | keystroke key =>
      have hkey : Key.nameText key.toList = key := String.ofList_toList
      have htyped : (f.keystroke (Key.nameText key.toList)).state.Tidy Label.Settled fun _ => True :=
        hf.keystroke typable_settled ⟨fun _ _ => trivial, fun _ _ => trivial⟩
      rwa [hkey] at htyped

theorem Tidy.afterAll (hf : f.Tidy Label.Settled fun _ => True) {steps : List Step}
    (hs : ∀ s ∈ steps, s.isTyped = true) : (f.afterAll steps).Tidy Label.Settled fun _ => True := by
  induction steps generalizing f with
  | nil => exact hf
  | cons step rest ih =>
      obtain ⟨hstep, hrest⟩ := List.forall_mem_cons.1 hs
      exact ih (hf.after hstep) hrest

/-- Whatever is typed into a field with whatever shortcuts, and whichever keys are pressed: in math
there are no characters of commands in the formula, and while a command is typed they are those of
the command. -/
theorem showsCommand_run {shortcuts : ShortcutTable} (h : Field.new shortcuts = .ok f)
    (steps : List Step) (hs : ∀ s ∈ steps, s.isTyped = true) :
    ((f.afterAll steps).editor.mode = .math →
      ∀ a ∈ (f.afterAll steps).editor.root.subatoms, isCommandChar a = false ∧
        isSuggested a = false) ∧
    ((f.afterAll steps).editor.mode = .command → ∃ before typed suggested after,
      (f.afterAll steps).editor.ShowsCommand before typed suggested after) := by
  have hempty : Editor.empty.root.ConsistsOf Label.Settled :=
    (Atom.consistsOf_newWrapper_items Label.fresh_settled.lasting rfl rfl
      (fun n => Label.fresh_settled n .root none none rfl) Atom.items_nil 0 :
      (Atom.newRoot [] 0).1.ConsistsOf Label.Settled)
  have hnew : f.Tidy Label.Settled fun _ => True :=
    tidy_new h hempty fun _ _ _ => Editor.yields_settled _ _
  have htidy := (hnew.afterAll hs).editor
  refine ⟨fun hm a ha => ?_, fun hm => ?_⟩
  · obtain ⟨hkind, hsuggestion⟩ := ((htidy.inMath hm).consistsOf a ha).1
    exact ⟨beq_eq_false_iff_ne.2 hkind, hsuggestion⟩
  · cases htidy with
    | math hmath =>
        rw [hmath.mode_eq] at hm
        cases hm
    | command hcommand => exact ⟨_, _, _, _, hcommand.showsCommand⟩

/-- The beginning of a fraction in a superscript, with what completes it suggested. -/
def fractionSteps : List Step :=
  [.typeChar 'x', .typeChar '^', .typeChar '\\', .typeChar 'f', .typeChar 'r']

theorem showsCommand_run_fraction :
    ∃ f, Field.new ⟨[], false⟩ = .ok f ∧ (f.afterAll fractionSteps).editor.mode = .command ∧
      (∃ before typed suggested after,
        (f.afterAll fractionSteps).editor.ShowsCommand before typed suggested after) ∧
      ∀ a ∈ (f.afterAll (fractionSteps ++ [.keystroke "Tab"])).editor.root.subatoms,
        isCommandChar a = false ∧ isSuggested a = false := by
  have hnew : Field.new ⟨[], false⟩ = .ok ⟨Editor.empty, History.empty History.defaultLimit,
    ⟨[], false⟩, []⟩ := rfl
  have hmode : (Field.afterAll ⟨Editor.empty, History.empty History.defaultLimit, ⟨[], false⟩, []⟩
      fractionSteps).editor.mode = .command := by decide +kernel
  exact ⟨_, hnew, hmode, (showsCommand_run hnew fractionSteps (by decide)).2 hmode,
    (showsCommand_run hnew _ (by decide)).1 (by decide +kernel)⟩

end Field

end FormulaEditor

import FormulaEditor.Proofs.Editor.Entering
import FormulaEditor.Proofs.Field.Completing

/-!
# Keys

Typing and key bindings keep a field in order: either a formula is edited, in which there are no
characters of commands, or one command is typed into it, in one run around the caret. The recorded
states are in order too, so that this is so after stepping through the history as well.
-/

namespace FormulaEditor

open Atom (ConsistsOf Items)

/-! ## Words after a backslash -/

/-- What can stand after the backslash of a command that is typed: letters, but for the first
character, which makes a command of its own if it is no letter. Stepping back to a command that was
completed with it makes it possible to go on with letters. All characters have the property `T`. -/
structure IsWord (T : Char → Prop) (word : List Char) : Prop where
  typed : ∀ c ∈ word, T c
  isLetter : ∀ c ∈ word.tail, Text.isLetter c = true

variable {P : Label → Prop} {T : Char → Prop} {W : List Char → Prop} {root owner : Atom} {q : Path}
  {slot : Slot} {atoms before chars suggested after : List Atom} {word : List Char}

theorem isWord_nil : IsWord T [] :=
  ⟨nofun, nofun⟩

theorem isWord_singleton {c : Char} (h : T c) : IsWord T [c] :=
  ⟨List.forall_mem_singleton.2 h, nofun⟩

theorem isWord_of_isLetter (hT : ∀ c, Text.isLetter c = true → T c)
    (h : ∀ c ∈ word, Text.isLetter c = true) : IsWord T word :=
  ⟨fun c hc => hT c (h c hc), fun c hc => h c (List.mem_of_mem_tail hc)⟩

theorem IsWord.concat {c : Char} (hT : ∀ c, Text.isLetter c = true → T c) (h : IsWord T word)
    (hc : Text.isLetter c = true) : IsWord T (word ++ [c]) := by
  refine ⟨List.forall_mem_append.2 ⟨h.typed, List.forall_mem_singleton.2 (hT c hc)⟩, ?_⟩
  cases word with
  | nil => exact nofun
  | cons d rest => exact List.forall_mem_append.2 ⟨h.isLetter, List.forall_mem_singleton.2 hc⟩

theorem IsWord.of_concat {c : Char} (h : IsWord T (word ++ [c])) : IsWord T word := by
  refine ⟨(List.forall_mem_append.1 h.typed).1, ?_⟩
  cases word with
  | nil => exact nofun
  | cons d rest => exact (List.forall_mem_append.1 h.isLetter).1

namespace Editor

variable {e e' : Editor}

/-- A backslash and a word were typed. If anything is suggested, it completes the word. -/
structure TypesWord (P : Label → Prop) (T : Char → Prop) (e : Editor) (root : Atom) (q : Path)
    (slot : Slot) (owner : Atom) (atoms before chars suggested after : List Atom)
    (word : List Char) : Prop where
  typesIn : e.TypesIn P root q slot owner atoms before chars suggested after
  spelled : spelledBy chars = '\\' :: word
  isWord : IsWord T word
  completes : suggested ≠ [] → word ≠ [] ∧ (∀ c ∈ word, Text.isLetter c = true) ∧
    word ++ spelledBy suggested = completedName word

/-- Either a formula is edited, or one command is typed into it. -/
inductive Tidy (P : Label → Prop) (T : Char → Prop) (e : Editor) : Prop
  | math : e.InMath P → Tidy P T e
  | command {root : Atom} {q : Path} {slot : Slot} {owner : Atom}
      {atoms before chars suggested after : List Atom} {word : List Char} :
      e.TypesWord P T root q slot owner atoms before chars suggested after word → Tidy P T e

theorem Tidy.sound (h : e.Tidy P T) : e.Sound := by
  cases h with
  | math h => exact h.sound
  | command h => exact h.typesIn.typesCommand.sound

theorem Tidy.of_eq (h : e.Tidy P T) (hr : e'.root = e.root) (hs : e'.selection = e.selection)
    (hm : e'.mode = e.mode) : e'.Tidy P T := by
  cases h with
  | math h => exact .math (h.of_eq hr hs hm)
  | command h =>
      exact .command ⟨h.typesIn.of_typesCommand (h.typesIn.typesCommand.of_eq hr hs hm), h.spelled,
        h.isWord, h.completes⟩

theorem Tidy.inMath (h : e.Tidy P T) (hm : e.mode = .math) : e.InMath P := by
  cases h with
  | math h => exact h
  | command h =>
      have hmode := h.typesIn.typesCommand.mode_eq
      rw [hm] at hmode
      cases hmode

/-- Without anything suggested the command stands as it was typed. -/
theorem TypesIn.tidy (h : e.TypesIn P root q slot owner atoms before chars [] after)
    (hs : spelledBy chars = '\\' :: word) (hw : IsWord T word) : e.Tidy P T :=
  .command ⟨h, hs, hw, fun hne => absurd rfl hne⟩

/-- What the command is completed to is a word as well. -/
theorem TypesWord.isWord_completed (hT : ∀ c, Text.isLetter c = true → T c)
    (h : e.TypesWord P T root q slot owner atoms before chars suggested after word) :
    IsWord T (word ++ spelledBy suggested) := by
  by_cases hnil : suggested = []
  · subst hnil
    show IsWord T (word ++ [])
    rw [List.append_nil]
    exact h.isWord
  · obtain ⟨-, hletters, hname⟩ := h.completes hnil
    rw [hname]
    exact isWord_of_isLetter hT (isLetter_completedName hletters)

theorem TypesWord.spelledBy_append
    (h : e.TypesWord P T root q slot owner atoms before chars suggested after word) :
    spelledBy chars ++ spelledBy suggested = '\\' :: (word ++ spelledBy suggested) := by
  rw [h.spelled, List.cons_append]

/-- Accepting a suggestion completes the word. -/
theorem TypesWord.acceptSuggestion (hT : ∀ c, Text.isLetter c = true → T c)
    (h : e.TypesWord P T root q slot owner atoms before chars suggested after word) :
    e.acceptSuggestion.Tidy P T :=
  (h.typesIn.of_typesCommand h.typesIn.typesCommand.acceptSuggestion).tidy
    ((spelledBy_accepted chars suggested).trans h.spelledBy_append) (h.isWord_completed hT)

/-- The last character of a command that spells something. -/
theorem CommandChars.exists_concat {suggestion : Bool} {text : List Char} {c : Char}
    (h : CommandChars chars suggestion) (hs : spelledBy chars = text ++ [c]) :
    ∃ rest a, chars = rest ++ [a] ∧ spelledBy rest = text := by
  have hne : chars ≠ [] := by
    rintro rfl
    exact absurd hs.symm (by simp [spelledBy])
  obtain ⟨rest, a, hchars⟩ := (List.eq_nil_or_concat chars).resolve_left hne
  rw [List.concat_eq_append] at hchars
  subst hchars
  obtain ⟨d, hd⟩ := h.exists_char a (by simp)
  have hlast : spelledBy [a] = [d] := by simp [spelledBy, hd]
  rw [spelledBy_append, hlast] at hs
  exact ⟨rest, a, rfl, (List.append_inj' hs rfl).1⟩

end Editor

/-! ## Suggestions -/

theorem Latex.Suggestion.ofStart_eq_nil (h : ¬∀ c ∈ word, Text.isLetter c = true) :
    ofStart ('\\' :: word) = [] := by
  refine List.eq_nil_iff_forall_not_mem.2 fun s hs => h fun c hc => ?_
  obtain ⟨entry, hmem, -⟩ := mem_foldr_insert hs
  have hcandidate := (List.mem_filter.1 hmem).2
  simp only [isCandidate, Bool.and_eq_true, List.isPrefixOf_iff_prefix, List.all_eq_true] at hcandidate
  exact hcandidate.2 c (hcandidate.1.subset hc)

namespace Field

open Editor (TypesIn TypesWord)

variable {f g : Field}

theorem exists_updateSuggestion (f : Field) : ∃ e, f.updateSuggestion = f.withEditor e := by
  unfold updateSuggestion
  simp only
  split
  · exact ⟨_, rfl⟩
  split
  · exact ⟨_, rfl⟩
  · exact ⟨_, rfl⟩

/-- Whatever was typed, the suggestion shown for it completes it. -/
theorem tidy_updateSuggestion
    (h : f.editor.TypesIn P root q slot owner atoms before chars suggested after)
    (hs : spelledBy chars = '\\' :: word) (hw : IsWord T word) :
    f.updateSuggestion.editor.Tidy P T := by
  have hmarked (error : Bool) : spelledBy (chars.map (withError error)) = '\\' :: word :=
    (spelledBy_map_mapMarks chars _).trans hs
  have hcleared (error : Bool) :=
    (h.of_typesCommand (h.typesCommand.removeSuggestion.decorateCommand error)).tidy (hmarked error) hw
  by_cases hnil : word = []
  · subst hnil
    unfold updateSuggestion
    simp only [h.typesCommand.commandText.2, hs]
    rw [if_pos (by decide)]
    exact hcleared false
  by_cases hletters : ∀ c ∈ word, Text.isLetter c = true
  · obtain ⟨chars', suggested', htyped, hspelled, hcompletes⟩ :=
      typesCommand_updateSuggestion h.typesCommand hnil hletters hs
    exact .command ⟨h.of_typesCommand htyped, hspelled, hw, fun _ =>
      ⟨hnil, hletters, (List.cons_eq_cons.1 hcompletes).2⟩⟩
  · have hsize : ¬(String.ofList ('\\' :: word)).utf8ByteSize ≤ 1 := by
      obtain ⟨c, rest, rfl⟩ := List.exists_cons_of_ne_nil hnil
      have hpos := Char.utf8Size_pos c
      have hbackslash : Char.utf8Size '\\' = 1 := rfl
      simp only [String.ofList_cons, String.utf8ByteSize_append, String.utf8ByteSize_singleton,
        hbackslash]
      omega
    unfold updateSuggestion
    simp only [h.typesCommand.commandText.2, hs, Latex.Suggestion.ofStart_eq_nil hletters]
    rw [if_neg hsize]
    exact hcleared true

end Field

/-! ## Recorded states -/

/-- A state that was shown in order. -/
def Snapshot.Tidy (P : Label → Prop) (T : Char → Prop) (s : Snapshot) : Prop :=
  ∃ e : Editor, e.Tidy P T ∧ Snapshot.ofEditor e = s

theorem Snapshot.Tidy.restore {s : Snapshot} (h : s.Tidy P T) (e : Editor) :
    (s.restore e).Tidy P T := by
  obtain ⟨shown, htidy, rfl⟩ := h
  have hrestored : ({ e with root := shown.root, selection := shown.selection, mode := shown.mode } :
      Editor).Tidy P T := htidy.of_eq rfl rfl rfl
  unfold Snapshot.restore Editor.restore
  simp only [Snapshot.ofEditor, hrestored.sound.valid]
  exact hrestored

namespace Field

variable {f g : Field}

/-- The recorded states are in order, and shortcuts stand for what may be in the formula. -/
structure Records (P : Label → Prop) (T : Char → Prop) (f : Field) : Prop where
  history : ∀ s ∈ f.history.states, s.Tidy P T
  shortcuts : ∀ typed s, f.shortcuts.matchEnd? typed = some s →
    Editor.Yields P s.substitute .latex

/-- A formula is edited, and what is recorded is in order. -/
structure InMath (P : Label → Prop) (T : Char → Prop) (f : Field) : Prop where
  records : f.Records P T
  editor : f.editor.InMath P

/-- The editor is in order, and so is what is recorded. -/
structure Tidy (P : Label → Prop) (T : Char → Prop) (f : Field) : Prop where
  records : f.Records P T
  editor : f.editor.Tidy P T

theorem InMath.tidy (h : f.InMath P T) : f.Tidy P T :=
  ⟨h.records, .math h.editor⟩

theorem Tidy.inMath (h : f.Tidy P T) (hm : f.editor.mode = .math) : f.InMath P T :=
  ⟨h.records, h.editor.inMath hm⟩

theorem Records.of_eq (h : f.Records P T) (hh : g.history = f.history)
    (hs : g.shortcuts = f.shortcuts) : g.Records P T :=
  ⟨hh ▸ h.history, hs ▸ h.shortcuts⟩

theorem InMath.endTyping (h : f.InMath P T) : f.endTyping.InMath P T :=
  ⟨h.records.of_eq rfl rfl, h.editor⟩

theorem Tidy.endTyping (h : f.Tidy P T) : f.endTyping.Tidy P T :=
  ⟨h.records.of_eq rfl rfl, h.editor⟩

theorem Tidy.note (h : f.Tidy P T) (event : Event) : (f.note event).Tidy P T :=
  ⟨h.records.of_eq rfl rfl, h.editor.of_eq rfl rfl rfl⟩

theorem Tidy.snapshot (h : f.Tidy P T) : (Snapshot.ofEditor f.editor).Tidy P T :=
  ⟨f.editor, h.editor, rfl⟩

theorem Tidy.record (h : f.Tidy P T) : f.record.Tidy P T := by
  have hstates := History.forall_record Snapshot.same h.records.history h.snapshot
  exact ⟨⟨hstates, h.records.shortcuts⟩, h.editor.of_eq rfl rfl rfl⟩

theorem InMath.record (h : f.InMath P T) : f.record.InMath P T :=
  h.tidy.record.inMath h.editor.mode_eq

theorem InMath.edit (h : f.InMath P T) {operation : Editor → Outcome Editor Unit}
    (ho : (operation f.editor).state.InMath P) : (f.edit operation).state.InMath P T :=
  ⟨h.records.of_eq rfl rfl, ho⟩

theorem Tidy.edit (h : f.Tidy P T) {operation : Editor → Outcome Editor Unit}
    (ho : (operation f.editor).state.Tidy P T) : (f.edit operation).state.Tidy P T :=
  ⟨h.records.of_eq rfl rfl, ho⟩

theorem Tidy.undo (h : f.Tidy P T) : f.undo.state.Tidy P T := by
  obtain ⟨hstates, hshown⟩ := History.forall_undo Snapshot.same h.records.history h.snapshot
  unfold Field.undo
  split <;> rename_i history shown hundo <;> rw [hundo] at hstates hshown
  · exact ⟨⟨hstates, h.records.shortcuts⟩, (hshown _ rfl).restore _⟩
  · exact ⟨⟨hstates, h.records.shortcuts⟩, h.editor⟩

theorem Tidy.redo (h : f.Tidy P T) : f.redo.state.Tidy P T := by
  obtain ⟨hstates, hshown⟩ := History.forall_redo h.records.history
  unfold Field.redo
  split <;> rename_i history shown hredo <;> rw [hredo] at hstates hshown
  · exact ⟨⟨hstates, h.records.shortcuts⟩, (hshown _ rfl).restore _⟩
  · exact ⟨⟨hstates, h.records.shortcuts⟩, h.editor⟩

/-! ## Editing with keys -/

/-- What is typed or completed puts only what has the property `P` into a formula. Characters that are
typed have the property `T`, and words that are completed have the property `W`. -/
structure Typable (P : Label → Prop) (T : Char → Prop) (W : List Char → Prop) : Prop where
  plain : Label.Plain P
  isLetter : ∀ c, Text.isLetter c = true → T c
  char : ∀ c, T c → c ≠ '\\' ∧ c ≠ '^' ∧ c ≠ '_' → Editor.Yields P (String.singleton c) .auto
  word : ∀ word fragment, IsWord T word → W word → completion? ('\\' :: word) = some fragment →
    Editor.Yields P fragment .latex
  key : ∀ name text options, Keymap.find? .math name = some (.insert text options) →
    Editor.Yields P text options.format

variable (hP : Typable P T W)

include hP

/-- A command that keeps what a formula consists of. -/
theorem InMath.run (h : f.InMath P T) {c : Command} (hc : c.Keeps P) :
    (f.run c).state.InMath P T := by
  have hrecorded : (if c.isMutation then f.record else f).InMath P T := by
    split
    · exact h.record
    · exact h
  have happly : ((if c.isMutation then f.record else f).edit fun e => c.applyTo e).state.InMath P T :=
    hrecorded.edit (hrecorded.editor.applyTo hP.plain.toLasting hc)
  cases c with
  | undo | redo | snapshot => exact absurd hc.1 nofun
  | delete d n =>
      refine state_andThen happly fun g hg => ?_
      rw [if_neg (by rw [hg.editor.mode_eq]; exact nofun)]
      exact hg
  | _ => exact happly

theorem InMath.perform (h : f.InMath P T) {c : Command} (hc : c.Keeps P) :
    (f.perform c).state.InMath P T :=
  h.endTyping.run hP hc

theorem InMath.applyShortcut (h : f.InMath P T) : f.applyShortcut.state.InMath P T := by
  unfold Field.applyShortcut
  split
  · exact h
  · rename_i s hs
    have hlasting := hP.plain.toLasting
    refine state_andThen (state_andThen ?_ fun g hg => ?_) fun g hg => hg.endTyping
    · exact h.record.edit (h.record.editor.delete hlasting _ _)
    · exact hg.edit (hg.editor.insert hlasting (h.records.shortcuts _ s hs))

theorem InMath.insertTyped (h : f.InMath P T) {c : Char} (hc : T c)
    (hne : c ≠ '\\' ∧ c ≠ '^' ∧ c ≠ '_') : (f.insertTyped c).state.InMath P T := by
  refine state_andThen (h.run hP (hP.char c hc hne)) fun g hg => ?_
  split
  · exact hg.endTyping
  · exact InMath.applyShortcut hP ⟨hg.records.of_eq rfl rfl, hg.editor⟩

theorem InMath.enterCommandMode (h : f.InMath P T) :
    (f.perform .enterCommandMode).state.Tidy P T := by
  have hrecorded := h.endTyping.record
  obtain ⟨e, root, q, slot, owner, atoms, before, chars, after, hentered, htyped, hspelled⟩ :=
    hrecorded.editor.enterCommandMode hP.plain
  refine hrecorded.tidy.edit ?_
  show f.endTyping.record.editor.enterCommandMode.state.Tidy P T
  rw [hentered]
  exact htyped.tidy hspelled isWord_nil

theorem InMath.typeMathChar (h : f.InMath P T) {c : Char} (hc : T c) :
    (f.typeMathChar c).state.Tidy P T := by
  unfold Field.typeMathChar
  split
  · exact h.enterCommandMode hP
  rename_i hbackslash
  split
  · exact (h.perform hP (c := .moveToSuperscript) trivial).tidy
  rename_i hsup
  split
  · exact (h.perform hP (c := .moveToSubscript) trivial).tidy
  rename_i hsub
  split
  · exact h.endTyping.tidy
  · exact (h.insertTyped hP hc ⟨hbackslash, hsup, hsub⟩).tidy

omit hP in
/-- The command that is completed is recorded first. -/
theorem Tidy.completeCommand (hl : Label.Lasting P) (hf : f.Tidy P T)
    (h : f.editor.TypesIn P root q slot owner atoms before chars suggested after)
    (hy : ∀ fragment, completion? (spelledBy chars ++ spelledBy suggested) = some fragment →
      Editor.Yields P fragment .latex) :
    ∃ g : Field, f.perform .completeCommand = .done g ∧ g.InMath P T := by
  have hrecorded : f.endTyping.record.editor.TypesIn P root q slot owner atoms before chars suggested
      after := h.of_typesCommand (h.typesCommand.of_eq rfl rfl rfl)
  have hcarried := hrecorded.typesCommand.sound.completeCommand
  exact ⟨_, edit_eq_done hcarried, hf.endTyping.record.records.of_eq rfl rfl,
    hrecorded.completeCommand hl hy⟩

end Field

/-! ## Single keys -/

/-- Whether a command edits a formula, or steps through its history. -/
def Command.isEdit : Command → Bool
  | insert .. | delete .. | promoteToSuperscript | promoteToSubscript | moveToSuperscript
  | moveToSubscript | undo | redo => true
  | _ => false

theorem Keymap.isEdit_of_find? {name : String} {c : Command} (h : find? .math name = some c) :
    (c.isMovement && !c.isSetRange || c.isEdit) = true := by
  have hall : ∀ entry ∈ math,
      (entry.2.isMovement && !entry.2.isSetRange || entry.2.isEdit) = true := by decide
  obtain ⟨before, after, hmath, -⟩ := List.lookup_eq_some_iff.1 h
  exact hall (name, c) (by rw [show math = _ from hmath]; simp)

theorem Keymap.eq_of_find? {name : String} {c : Command} (h : find? .command name = some c) :
    c = .acceptSuggestion ∨ c = .completeCommand ∨ c = .exitCommandMode ∨ c = .delete .backward 1 := by
  have hall : ∀ entry ∈ command, entry.2 = .acceptSuggestion ∨ entry.2 = .completeCommand ∨
      entry.2 = .exitCommandMode ∨ entry.2 = .delete .backward 1 := by decide
  obtain ⟨before, after, hcommand, -⟩ := List.lookup_eq_some_iff.1 h
  exact hall (name, c) (by rw [show command = _ from hcommand]; simp)

namespace Field

variable {f : Field}

/-- The word that a key completes to a command, if it does. -/
def completed? (f : Field) (k : Key) : Option (List Char) :=
  let shown := f.editor.acceptSuggestion.commandText.tail
  match k with
  | .char c =>
      if f.editor.mode = .math || Text.isLetter c then none
      else if f.editor.commandTextBefore = ['\\'] then some [c]
      else some shown
  | .named name =>
      if Keymap.find? f.editor.mode (Key.nameText name) = some .completeCommand then some shown else none

/-- A key types a character with the property `T`, and completes a word with the property `W`, if it
does one or the other. -/
structure Admits (T : Char → Prop) (W : List Char → Prop) (f : Field) (k : Key) : Prop where
  char : ∀ c, k = .char c → T c
  word : ∀ word, f.completed? k = some word → W word

/-- Keys that are pressed one after the other type and complete what they may. -/
def AdmitsAll (T : Char → Prop) (W : List Char → Prop) (f : Field) : List Key → Prop
  | [] => True
  | k :: rest => f.Admits T W k ∧ (f.press k).AdmitsAll T W rest

theorem acceptSuggestion_commandText
    (h : f.editor.TypesWord P T root q slot owner atoms before chars suggested after word) :
    f.editor.acceptSuggestion.commandText.tail = word ++ spelledBy suggested := by
  rw [h.typesIn.typesCommand.acceptSuggestion.commandText.1, Editor.spelledBy_accepted,
    h.spelledBy_append, List.tail_cons]

variable (hP : Typable P T W)

include hP

/-- What is shown as the command is completed. -/
theorem Tidy.completeWord (hf : f.Tidy P T)
    (h : f.editor.TypesWord P T root q slot owner atoms before chars suggested after word)
    (hw : W (word ++ spelledBy suggested)) :
    ∃ g : Field, f.perform .completeCommand = .done g ∧ g.InMath P T :=
  hf.completeCommand hP.plain.toLasting h.typesIn fun fragment hfragment =>
    hP.word _ fragment (h.isWord_completed hP.isLetter) hw (h.spelledBy_append ▸ hfragment)

theorem Tidy.typeCommandChar (hf : f.Tidy P T)
    (h : f.editor.TypesWord P T root q slot owner atoms before chars suggested after word) {c : Char}
    (hk : f.Admits T W (.char c)) : (f.typeCommandChar c).state.Tidy P T := by
  have htyped := h.typesIn.of_typesCommand (h.typesIn.typesCommand.typeIntoCommand c)
  have hspelled : spelledBy (chars ++ [(Atom.newCommandChar c f.editor.supply).1]) =
      '\\' :: (word ++ [c]) := by
    rw [FormulaEditor.spelledBy_append, h.spelled, Editor.spelledBy_newCommandChar, List.cons_append]
  have hinserted : f.editor.insertCommandChar c = .done (f.editor.typeIntoCommand c) :=
    h.typesIn.typesCommand.sound.whenValid _
  have hcarried := h.typesIn.typesCommand.sound.insertCommandChar c
  have hrecords : (f.withEditor (f.editor.typeIntoCommand c)).Records P T :=
    hf.records.of_eq rfl rfl
  have hcompleted := hk.word
  have hmode := h.typesIn.typesCommand.mode_eq
  unfold Field.typeCommandChar
  unfold completed? at hcompleted
  simp only [hmode, acceptSuggestion_commandText h, h.typesIn.typesCommand.commandText.2] at hcompleted ⊢
  split
  · rename_i hletter
    rw [edit_andThen hcarried, hinserted, Outcome.state_done, Outcome.state_done]
    obtain ⟨e, he⟩ := exists_updateSuggestion (f.withEditor (f.editor.typeIntoCommand c))
    refine ⟨he ▸ hrecords.of_eq rfl rfl, ?_⟩
    exact tidy_updateSuggestion htyped hspelled (h.isWord.concat hP.isLetter hletter)
  rename_i hletter
  split
  · rename_i htext
    have hnil : word = [] := (List.cons_eq_cons.1 (h.spelled.symm.trans htext)).2
    subst hnil
    have hsuggested : suggested = [] := Decidable.byContradiction fun hne => (h.completes hne).1 rfl
    subst hsuggested
    have hword := isWord_singleton (hk.char c rfl)
    have hW : W [c] := hcompleted [c] (by simp [hletter, h.spelled])
    rw [edit_andThen hcarried, hinserted, Outcome.state_done]
    obtain ⟨g, hg, hmath⟩ := Tidy.completeCommand hP.plain.toLasting
      ⟨hrecords, htyped.tidy hspelled hword⟩ htyped fun fragment hfragment =>
        hP.word [c] fragment hword hW (by
          rw [show spelledBy [] = [] from rfl, List.append_nil, hspelled] at hfragment
          exact hfragment)
    rw [hg, Outcome.state_done]
    exact hmath.tidy
  · rename_i htext
    have hW := hcompleted (word ++ spelledBy suggested) (by simp [hletter, htext])
    obtain ⟨g, hg, hmath⟩ := hf.completeWord hP h hW
    rw [hg, Outcome.done_andThen]
    exact hmath.typeMathChar hP (hk.char c rfl)

/-- Deleting the last character of a command leaves a shorter one, or leads back to the formula. -/
theorem Tidy.deleteInCommand (hf : f.Tidy P T)
    (h : f.editor.TypesWord P T root q slot owner atoms before chars suggested after word) :
    (f.perform (.delete .backward 1)).state.Tidy P T := by
  have hrecords := hf.endTyping.record.records
  have htyped : f.endTyping.record.editor.TypesIn P root q slot owner atoms before chars suggested
      after := h.typesIn.of_typesCommand (h.typesIn.typesCommand.of_eq rfl rfl rfl)
  show ((f.endTyping.record.edit fun e => e.delete .backward 1).andThen fun f =>
    .done (if f.editor.mode = .command then f.updateSuggestion else f)).state.Tidy P T
  rcases List.eq_nil_or_concat word with rfl | ⟨start, c, rfl⟩
  · have hone : chars.length = 1 := by
      rw [← Editor.length_spelledBy h.typesIn.typesCommand.typed, h.spelled, List.length_singleton]
    obtain ⟨a, rfl⟩ := List.length_eq_one_iff.1 hone
    have hsuggested : suggested = [] := Decidable.byContradiction fun hne => (h.completes hne).1 rfl
    subst hsuggested
    have hdeleted := htyped.delete hP.plain
    have hcarried := htyped.typesCommand.sound.delete .backward 1
    rw [edit_andThen hcarried, Outcome.state_done, if_neg (by
      show ¬(f.endTyping.record.editor.delete .backward 1).state.mode = .command
      rw [hdeleted.mode_eq]
      exact nofun)]
    exact ⟨hrecords.of_eq rfl rfl, .math hdeleted⟩
  · rw [List.concat_eq_append] at h
    have hspelled : spelledBy chars = ('\\' :: start) ++ [c] := h.spelled
    obtain ⟨rest, a, rfl, hrest⟩ := h.typesIn.typesCommand.typed.exists_concat hspelled
    have hne : rest ≠ [] := by
      rintro rfl
      cases hrest
    obtain ⟨e, hdeleted, hshorter⟩ := htyped.typesCommand.delete hne
    have hcarried := htyped.typesCommand.sound.delete .backward 1
    rw [edit_andThen hcarried, hdeleted, Outcome.state_done, Outcome.state_done,
      if_pos (show (f.endTyping.record.withEditor e).editor.mode = .command from hshorter.mode_eq)]
    obtain ⟨e', he'⟩ := exists_updateSuggestion (f.endTyping.record.withEditor e)
    refine ⟨he' ▸ hrecords.of_eq rfl rfl, ?_⟩
    exact tidy_updateSuggestion (htyped.of_typesCommand hshorter) hrest h.isWord.of_concat

/-- A key that is bound while a formula is edited. -/
theorem InMath.performKey (h : f.InMath P T) {name : String} {c : Command}
    (hc : Keymap.find? .math name = some c) : (f.perform c).state.Tidy P T := by
  have hkey := Keymap.isEdit_of_find? hc
  have hkeep (hk : c.Keeps P) : (f.perform c).state.Tidy P T := (h.perform hP hk).tidy
  cases c with
  | undo => exact h.tidy.endTyping.undo
  | redo => exact h.tidy.endTyping.redo
  | insert text options => exact hkeep (hP.key name text options hc)
  | delete d n => exact hkeep trivial
  | promoteToSuperscript | promoteToSubscript | moveToSuperscript | moveToSubscript =>
      exact hkeep trivial
  | moveToNextChar | moveToPreviousChar | moveToNextPlaceholder | moveToPreviousPlaceholder | moveUp
  | moveDown | moveToGroupStart | moveToGroupEnd | moveToFieldStart | moveToFieldEnd | selectAll
  | selectGroup | extendToNextChar | extendToPreviousChar => exact hkeep ⟨rfl, rfl⟩
  | _ => cases hkey

/-- A key that is bound while a command is typed. -/
theorem Tidy.performKey (hf : f.Tidy P T)
    (h : f.editor.TypesWord P T root q slot owner atoms before chars suggested after word)
    {name : List Char} {c : Command} (hc : Keymap.find? .command (Key.nameText name) = some c)
    (hk : f.Admits T W (.named name)) : (f.perform c).state.Tidy P T := by
  have hmode := h.typesIn.typesCommand.mode_eq
  rcases Keymap.eq_of_find? hc with rfl | rfl | rfl | rfl
  · exact hf.endTyping.edit (h.acceptSuggestion hP.isLetter)
  · have hW : W (word ++ spelledBy suggested) := hk.word _ (by
      simp only [completed?, hmode, hc, if_true, acceptSuggestion_commandText h])
    obtain ⟨g, hg, hmath⟩ := hf.completeWord hP h hW
    rw [hg, Outcome.state_done]
    exact hmath.tidy
  · refine hf.endTyping.edit ?_
    show (f.editor.whenValid fun e => .done e.removeCommand).state.Tidy P T
    rw [h.typesIn.typesCommand.sound.whenValid]
    exact .math (h.typesIn.removeCommand hP.plain.toLasting)
  · exact hf.deleteInCommand hP h

theorem Tidy.typeChar (hf : f.Tidy P T) {c : Char} (hk : f.Admits T W (.char c)) :
    (f.typeChar c).state.Tidy P T := by
  unfold Field.typeChar
  obtain hmath | hcommand := hf.editor
  · rw [hmath.mode_eq]
    exact InMath.typeMathChar hP ⟨hf.records, hmath⟩ (hk.char c rfl)
  · rw [hcommand.typesIn.typesCommand.mode_eq]
    exact hf.typeCommandChar hP hcommand hk

theorem Tidy.keystroke (hf : f.Tidy P T) {name : List Char} (hk : f.Admits T W (.named name)) :
    (f.keystroke (Key.nameText name)).state.Tidy P T := by
  unfold Field.keystroke
  split
  · exact hf
  rename_i c hc
  rw [state_andThen_answer]
  obtain hmath | hcommand := hf.editor
  · exact InMath.performKey hP ⟨hf.records, hmath⟩ (hmath.mode_eq ▸ hc)
  · exact hf.performKey hP hcommand (hcommand.typesIn.typesCommand.mode_eq ▸ hc) hk

/-- One key keeps a field in order. -/
theorem Tidy.press (hf : f.Tidy P T) {k : Key} (hk : f.Admits T W k) : (f.press k).Tidy P T := by
  unfold Field.press
  cases k with
  | char c =>
      have htyped := hf.typeChar hP hk
      simp only
      split
      · exact htyped
      · exact htyped.note _
  | named name =>
      have htyped := hf.keystroke hP hk
      simp only
      split
      · exact htyped
      · exact htyped.note _
      · exact htyped.note _

/-- A field stays in order while keys are pressed. -/
theorem Tidy.foldl_press (hf : f.Tidy P T) {keys : List Key} (hk : f.AdmitsAll T W keys) :
    (keys.foldl Field.press f).Tidy P T := by
  induction keys generalizing f with
  | nil => exact hf
  | cons k rest ih => exact ih (hf.press hP hk.1) hk.2

omit hP in
/-- A new field is in order, if its shortcuts stand for what may be in a formula. -/
theorem tidy_new {shortcuts : ShortcutTable} (h : Field.new shortcuts = .ok f)
    (hr : Editor.empty.root.ConsistsOf P) (hs : ∀ typed s, shortcuts.matchEnd? typed = some s →
      Editor.Yields P s.substitute .latex) : f.Tidy P T := by
  have hsound := sound_new h
  obtain ⟨-, rfl⟩ := new_eq_ok_iff.1 h
  exact ⟨⟨nofun, hs⟩, .math ⟨hsound.editor, hr, rfl⟩⟩

end Field

end FormulaEditor

import FormulaEditor.Proofs.Editor.Completing
import FormulaEditor.Proofs.Field.Sound

/-!
# Typing a command and inserting it

A backslash, a word and the key that completes it do what an insertion of the completed command does,
whatever is suggested on the way. The exception is a placeholder that is all of its branch: the
command takes its place while it is typed, and the branch is settled without it.
-/

namespace FormulaEditor

/-! ## What a word is completed to -/

/-- The name that a word is completed to: that of the best suggestion, or the word itself. -/
def completedName (word : List Char) : List Char :=
  match (Latex.Suggestion.ofStart word).head? with
  | some s => s.name.toList
  | none => word

namespace Latex.Suggestion

theorem mem_insert {s t : Suggestion} {sorted : List Suggestion} (h : t ∈ insert s sorted) :
    t = s ∨ t ∈ sorted := by
  induction sorted with
  | nil => exact Or.inl (List.mem_singleton.1 h)
  | cons u rest ih =>
      unfold insert at h
      split at h
      · rcases List.mem_cons.1 h with rfl | h
        · exact Or.inr List.mem_cons_self
        · exact (ih h).imp_right (List.mem_cons_of_mem u)
      · simpa using h

theorem mem_foldr_insert {found : List (String × Meaning)} {t : Suggestion}
    (h : t ∈ found.foldr (fun (name, meaning) sorted => insert ⟨name, meaning⟩ sorted) []) :
    ∃ entry ∈ found, t.name = entry.1 := by
  induction found with
  | nil => cases h
  | cons entry rest ih =>
      rcases mem_insert h with rfl | h
      · exact ⟨entry, List.mem_cons_self, rfl⟩
      · obtain ⟨other, hmem, hname⟩ := ih h
        exact ⟨other, List.mem_cons_of_mem entry hmem, hname⟩

theorem ofStart_backslash {word : List Char} (hw : ∀ c ∈ word, Text.isLetter c = true) :
    ofStart ('\\' :: word) = ofStart word := by
  cases word with
  | nil => rfl
  | cons c rest =>
      have hc : c ≠ '\\' := by
        rintro rfl
        exact absurd (hw '\\' List.mem_cons_self) (by decide)
      unfold ofStart
      simp only
      split
      · rename_i heq
        exact absurd (List.cons_eq_cons.1 heq).1 hc
      · rfl

/-- A suggestion goes on from the word, and is spelled with letters. -/
theorem isCandidate_of_mem_ofStart {word : List Char} (hw : ∀ c ∈ word, Text.isLetter c = true)
    {s : Suggestion} (h : s ∈ ofStart word) : isCandidate word s.name = true := by
  rw [← ofStart_backslash hw] at h
  obtain ⟨entry, hmem, hname⟩ := mem_foldr_insert h
  rw [hname]
  exact (List.mem_filter.1 hmem).2

end Latex.Suggestion

section

variable {word : List Char}

/-- The completed name goes on from the word. -/
theorem append_drop_completedName (hw : ∀ c ∈ word, Text.isLetter c = true) :
    word ++ (completedName word).drop word.length = completedName word := by
  unfold completedName
  split
  · rename_i s hs
    have hcandidate := Latex.Suggestion.isCandidate_of_mem_ofStart hw (List.mem_of_mem_head? hs)
    simp only [Latex.Suggestion.isCandidate, Bool.and_eq_true, List.isPrefixOf_iff_prefix] at hcandidate
    obtain ⟨rest, hrest⟩ := hcandidate.1
    rw [← hrest, List.drop_left]
  · simp

theorem isLetter_completedName (hw : ∀ c ∈ word, Text.isLetter c = true) :
    ∀ c ∈ completedName word, Text.isLetter c = true := by
  unfold completedName
  split
  · rename_i s hs
    have hcandidate := Latex.Suggestion.isCandidate_of_mem_ofStart hw (List.mem_of_mem_head? hs)
    simp only [Latex.Suggestion.isCandidate, Bool.and_eq_true, List.all_eq_true] at hcandidate
    exact hcandidate.2
  · exact hw

theorem mem_of_takesImplicitArgument {text : List Char} (h : takesImplicitArgument text = true) :
    '@' ∈ text := by
  fun_induction takesImplicitArgument text with
  | case1 rest => simp
  | case2 c rest _ ih => exact List.mem_cons_of_mem c (ih h)
  | case3 => cases h

/-- A name spelled with letters is completed to a fragment that refers to nothing before the caret,
with or without its backslash. -/
theorem exists_completion {name : List Char} (hne : name ≠ [])
    (hn : ∀ c ∈ name, Text.isLetter c = true) :
    ∃ fragment, completion? name = some fragment ∧ completion? ('\\' :: name) = some fragment ∧
      takesImplicitArgument fragment.toList = false := by
  have hat : '@' ∉ name := fun hmem => absurd (hn '@' hmem) (by decide)
  have hstrip : completion? name = completion? ('\\' :: name) := by
    cases name with
    | nil => exact absurd rfl hne
    | cons c rest =>
        have hc : c ≠ '\\' := by
          rintro rfl
          exact absurd (hn '\\' List.mem_cons_self) (by decide)
        unfold completion?
        simp only
        split
        · rename_i heq
          exact absurd (List.cons_eq_cons.1 heq).1 hc
        · rfl
  have hcommand : '@' ∉ (Latex.Vocabulary.command (String.ofList name)).toList := by
    simpa [Latex.Vocabulary.command] using hat
  have hsome : ∃ fragment, completion? ('\\' :: name) = some fragment ∧ '@' ∉ fragment.toList := by
    have hempty : (String.ofList name).isEmpty = false := by simpa using hne
    unfold completion?
    simp only [hempty, Bool.false_eq_true, if_false]
    split
    · exact ⟨_, rfl, hcommand⟩
    · split
      · exact ⟨_, rfl, by decide⟩
      · refine ⟨_, rfl, ?_⟩
        rw [String.toList_append, List.mem_append, String.toList_join, List.mem_flatMap]
        rintro (hmem | ⟨argument, hargument, hmem⟩)
        · exact hcommand hmem
        · rw [(List.mem_replicate.1 hargument).2] at hmem
          exact absurd hmem (by decide)
  obtain ⟨fragment, hfragment, hnot⟩ := hsome
  refine ⟨fragment, hstrip.trans hfragment, hfragment, ?_⟩
  cases htakes : takesImplicitArgument fragment.toList with
  | false => rfl
  | true => exact absurd (mem_of_takesImplicitArgument htakes) hnot

/-- A backslash and letters take one byte each. -/
theorem utf8ByteSize_command (hw : ∀ c ∈ word, Text.isLetter c = true) :
    (String.ofList ('\\' :: word)).utf8ByteSize = word.length + 1 := by
  have hletters : (String.ofList word).utf8ByteSize = word.length := by
    induction word with
    | nil => rfl
    | cons c rest ih =>
        have hc : c.utf8Size = 1 := by
          have hl := hw c List.mem_cons_self
          simp only [Text.isLetter, Bool.or_eq_true, Bool.and_eq_true, decide_eq_true_eq,
            Char.le_def] at hl
          rw [Char.utf8Size_eq_one_iff]
          rcases hl with hl | hl
          · exact UInt32.le_trans hl.2 (by decide)
          · exact UInt32.le_trans hl.2 (by decide)
        rw [String.ofList_cons, String.utf8ByteSize_append, String.utf8ByteSize_singleton, hc,
          ih fun d hd => hw d (List.mem_cons_of_mem c hd), List.length_cons, Nat.add_comm]
  rw [String.ofList_cons, String.utf8ByteSize_append, hletters, Nat.add_comm]
  rfl

end

namespace Field

open Editor (beforeGap afterGap TypesCommand)

variable {f : Field} {root owner : Atom} {q : Path} {slot : Slot}
  {atoms before chars suggested after : List Atom} {offset : Int} {word : List Char}

/-! ## Typing the word -/

/-- The suggestion shown for a word completes it. -/
theorem typesCommand_updateSuggestion
    (h : f.editor.TypesCommand root q slot owner atoms before chars suggested after)
    (hne : word ≠ []) (hw : ∀ c ∈ word, Text.isLetter c = true)
    (htyped : spelledBy chars = '\\' :: word) :
    ∃ chars' suggested', f.updateSuggestion.editor.TypesCommand root q slot owner atoms before
        chars' suggested' after ∧ spelledBy chars' = '\\' :: word ∧
      '\\' :: word ++ spelledBy suggested' = '\\' :: completedName word := by
  have hpos := List.length_pos_iff.2 hne
  have hname := append_drop_completedName hw
  have hmarked (error : Bool) (as : List Atom) :
      spelledBy (as.map (withError error)) = spelledBy as := spelledBy_map_mapMarks as _
  unfold Field.updateSuggestion
  simp only [h.commandText.2, htyped, utf8ByteSize_command hw, Nat.add_sub_cancel,
    Latex.Suggestion.ofStart_backslash hw]
  rw [if_neg (by omega)]
  unfold completedName at hname ⊢
  cases hhead : (Latex.Suggestion.ofStart word).head? with
  | some s =>
      rw [hhead] at hname
      obtain ⟨suggested', hspelled, hinserted⟩ :=
        h.insertSuggestion (s.name.toList.drop word.length)
      refine ⟨_, _, hinserted.decorateCommand false, (hmarked _ _).trans htyped, ?_⟩
      rw [hmarked, hspelled, List.cons_append, hname]
  | none =>
      exact ⟨_, _, h.removeSuggestion.decorateCommand true, (hmarked _ _).trans htyped,
        by simp [spelledBy]⟩

/-- One more letter. -/
theorem typesCommand_typeChar
    (h : f.editor.TypesCommand root q slot owner atoms before chars suggested after) {c : Char}
    (hw : ∀ d ∈ word ++ [c], Text.isLetter d = true) (htyped : spelledBy chars = '\\' :: word) :
    ∃ g chars' suggested', f.typeChar c = .done g ∧
      g.editor.TypesCommand root q slot owner atoms before chars' suggested' after ∧
      spelledBy chars' = '\\' :: (word ++ [c]) ∧
      '\\' :: (word ++ [c]) ++ spelledBy suggested' = '\\' :: completedName (word ++ [c]) := by
  have hc : Text.isLetter c = true := hw c (by simp)
  have hnext := h.typeIntoCommand c
  obtain ⟨chars', suggested', hupdated, hrest⟩ :=
    typesCommand_updateSuggestion (f := f.withEditor (f.editor.typeIntoCommand c)) hnext (by simp) hw
      (by rw [spelledBy_append, htyped, Editor.spelledBy_newCommandChar, List.cons_append])
  refine ⟨_, chars', suggested', ?_, hupdated, hrest⟩
  have hinserted : f.editor.insertCommandChar c = .done (f.editor.typeIntoCommand c) :=
    h.sound.whenValid _
  unfold Field.typeChar
  rw [h.mode_eq]
  simp only [Field.typeCommandChar, hc, if_true, Field.edit, hinserted, Outcome.lift]
  rfl

/-- The rest of a word. -/
theorem typesCommand_typeChars {rest : List Char}
    (h : f.editor.TypesCommand root q slot owner atoms before chars suggested after)
    (hw : ∀ d ∈ word ++ rest, Text.isLetter d = true) (hne : rest ≠ [])
    (htyped : spelledBy chars = '\\' :: word) :
    ∃ g chars' suggested', f.typeChars rest = .done g ∧
      g.editor.TypesCommand root q slot owner atoms before chars' suggested' after ∧
      spelledBy chars' ++ spelledBy suggested' = '\\' :: completedName (word ++ rest) := by
  induction rest generalizing f word chars suggested with
  | nil => exact absurd rfl hne
  | cons c rest ih =>
      obtain ⟨g, chars', suggested', hg, hnext, htyped', hname⟩ :=
        typesCommand_typeChar h (c := c) (fun d hd => hw d (by
          rcases List.mem_append.1 hd with hd | hd <;> simp_all)) htyped
      unfold Field.typeChars
      rw [hg, Outcome.done_andThen]
      cases rest with
      | nil => exact ⟨g, chars', suggested', rfl, hnext, by rw [htyped']; exact hname⟩
      | cons d rest =>
          have hih := ih hnext (by simpa using hw) (by simp) htyped'
          simpa using hih

/-! ## The whole command -/

theorem edit_eq_done {operation : Editor → Outcome Editor Unit}
    (ho : Editor.CarriedOut (operation f.editor)) :
    f.edit operation = .done (f.withEditor (operation f.editor).state) := by
  unfold Field.edit Outcome.lift Outcome.done
  rw [ho.1]

/-- The key after a word completes the command. -/
theorem keystroke_completeCommand
    (h : f.editor.TypesCommand root q slot owner atoms before chars suggested after)
    {fragment : String} (hf : completion? (spelledBy chars ++ spelledBy suggested) = some fragment) :
    ∃ (e : Editor) (at' : Int) (g : Field), e.Opened root q slot owner atoms (before ++ after) ∧
      f.keystroke "Tab" = ⟨g, .ok true⟩ ∧
      g.editor = ((e.settleCaret (q.child slot at') ((before.length : Int) - 1)).insert fragment
        (InsertOptions.latex .placeholder)).state := by
  have hrecorded : f.endTyping.record.editor.TypesCommand root q slot owner atoms before chars
      suggested after := h.of_eq rfl rfl rfl
  obtain ⟨e, at', hopened, hcompleted⟩ := hrecorded.completeCommand hf
  have hsound : (e.settleCaret (q.child slot at') ((before.length : Int) - 1)).Sound :=
    hopened.sound_settleCaret at' fun _ => Editor.isOffset_length_sub_one before after
  have hcarried : Editor.CarriedOut (f.endTyping.record.editor.completeCommand) :=
    hcompleted ▸ hsound.insert fragment _
  have hkey : Keymap.find? f.editor.mode "Tab" = some .completeCommand := by
    rw [h.mode_eq]
    rfl
  refine ⟨e, at', f.endTyping.record.withEditor f.endTyping.record.editor.completeCommand.state,
    hopened, ?_, congrArg Outcome.state hcompleted⟩
  unfold Field.keystroke
  rw [hkey]
  show (f.endTyping.record.edit fun e => e.completeCommand).andThen _ = _
  rw [edit_andThen hcarried]

/-- What is typed and the key that completes it, as against the insertion: there is a formula with
the completed command either way, and they are alike with the same selection, unless the caret was in
a branch with a placeholder only. That branch must not be optional then; and if the command stands for
nothing, the placeholder must be a plain one that the branch requires, with the caret before it. -/
theorem typeCommand_alike_iff {word : List Char} (h : f.editor.Sound) (hmode : f.editor.mode = .math)
    (hcaret : f.editor.selection = Selection.caret (q.child slot offset))
    (hb : IsBranch f.editor.root q slot owner atoms) (ho : IsOffset atoms offset)
    (hnone : ∀ a ∈ atoms, isCommandChar a = false) (hne : word ≠ [])
    (hw : ∀ c ∈ word, Text.isLetter c = true) :
    ∃ fragment typed inserted, completion? (completedName word) = some fragment ∧
      (f.typeChars ('\\' :: word)).andThen (fun f => f.keystroke "Tab") = ⟨typed, .ok true⟩ ∧
      f.perform (.insert fragment (InsertOptions.latex .placeholder)) = .done inserted ∧
      (typed.editor.Alike inserted.editor ↔
        (isPlaceholderOnly atoms = true → slot.isOptional = false ∧
          (f.editor.reading fragment = [] →
            owner.requiresContent slot = true ∧ offset = leadingGap ∧
              atoms.map Atom.bare = [Atom.placeholder 0]))) := by
  have h₀ : f.endTyping.record.editor.OpenedAtCaret f.editor.root q slot owner atoms atoms offset :=
    ⟨(h.opened hb).of_root_eq rfl, hcaret, ho⟩
  have hs₀ : f.endTyping.record.editor.Sound := h.of_eq rfl rfl
  obtain ⟨e, hentered, hstart⟩ := h₀.enterCommandMode hs₀ hnone
  have hbackslash : f.typeChar '\\' = .done (f.endTyping.record.withEditor e) := by
    unfold Field.typeChar
    rw [hmode]
    show f.endTyping.record.editor.enterCommandMode.lift f.endTyping.record.withEditor = _
    rw [hentered]
    rfl
  obtain ⟨g, chars, suggested, htyped, hword, hspelled⟩ :=
    typesCommand_typeChars (f := f.endTyping.record.withEditor e) hstart
      (by simpa using hw : ∀ d ∈ [] ++ word, Text.isLetter d = true) hne
      (Editor.spelledBy_newCommandChar '\\' _)
  rw [List.nil_append] at hspelled
  have hname : completedName word ≠ [] := fun hnil => by
    have happ := append_drop_completedName hw
    rw [hnil] at happ
    exact hne (List.append_eq_nil_iff.1 happ).1
  obtain ⟨fragment, hfragment, hcompletion, hargs⟩ :=
    exists_completion hname (isLetter_completedName hw)
  obtain ⟨e', at', typed, hopened, htab, hediting⟩ :=
    keystroke_completeCommand hword (hspelled ▸ hcompletion)
  have hinserted : (f.endTyping.record.edit fun e =>
      e.insert fragment (InsertOptions.latex .placeholder)) = .done _ :=
    edit_eq_done (hs₀.insert fragment _)
  refine ⟨fragment, typed, _, hfragment, ?_, hinserted, ?_⟩
  · unfold Field.typeChars
    rw [hbackslash, Outcome.done_andThen, htyped, Outcome.done_andThen, htab]
  · rw [hediting]
    exact hopened.alike_insert_iff h₀ hs₀ hargs

/-- Makes an empty superscript, with the caret before its placeholder. -/
def superscriptSteps : List Step :=
  [.typeChar 'x', .typeChar '^']

/-- In the superscript a typed command and the inserted one do not come to the same. -/
theorem typeCommand_alike_iff_superscript :
    ∃ f, Field.new ⟨[], false⟩ = .ok f ∧ ∃ typed inserted,
      ((f.afterAll superscriptSteps).typeChars ['\\', 'a', 'l', 'p', 'h', 'a']).andThen
        (fun f => f.keystroke "Tab") = ⟨typed, .ok true⟩ ∧
      (f.afterAll superscriptSteps).perform (.insert "\\alpha" (InsertOptions.latex .placeholder)) =
        .done inserted ∧ ¬ typed.editor.Alike inserted.editor := by
  have hnew : Field.new ⟨[], false⟩ = .ok ⟨Editor.empty, History.empty History.defaultLimit,
    ⟨[], false⟩, []⟩ := rfl
  have hsound : (Field.afterAll _ superscriptSteps).Sound :=
    (sound_new hnew).afterAll (by decide +kernel)
  obtain ⟨fragment, typed, inserted, hfragment, htyped, hinserted, hiff⟩ :=
    typeCommand_alike_iff hsound.editor rfl
      (rfl : _ = Selection.caret ((Path.inRoot 0).child .superscript leadingGap)) ⟨rfl, rfl, rfl⟩
      ⟨by decide, by decide⟩ (by decide) (by decide : ['a', 'l', 'p', 'h', 'a'] ≠ [])
      (List.all_eq_true.1 (by decide))
  have hname : completion? (completedName ['a', 'l', 'p', 'h', 'a']) = some "\\alpha" := by
    decide +kernel
  cases hfragment.symm.trans hname
  refine ⟨_, hnew, typed, inserted, htyped, hinserted, fun halike => ?_⟩
  exact absurd (hiff.1 halike rfl).1 (by decide)

end Field

end FormulaEditor

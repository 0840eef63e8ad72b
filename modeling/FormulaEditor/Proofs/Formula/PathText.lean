import FormulaEditor.Editor.Error
import FormulaEditor.Proofs.Text.Numerals
import Mathlib.Data.List.Forall2

/-!
# Paths in a text

A path has many texts, as an offset has many numerals. Each of them is read as the path and no other
text is read at all, so what is written of a path leads back to it. A path has no text only if one of
its offsets is below that of the leading gap, or too large for thirty-two bits.
-/

namespace FormulaEditor

/-! ## The format -/

/-- Whether the offset of a step is not before the leading gap and fits into thirty-two bits. -/
def Step.InRange (s : Step) : Prop :=
  leadingGap ≤ s.offset ∧ s.offset < Int.pow 2 31

/-- The texts of a step: the name of its slot, a colon and a numeral of its offset. -/
def Step.IsSpelling (s : Step) (text : List Char) : Prop :=
  ∃ numeral, text = s.slot.name.toList ++ ':' :: numeral ∧
    Text.Numeral.IsNumeral s.offset numeral ∧ s.InRange

/-- The texts of a path: those of its steps with slashes between. That of the root is empty. -/
def Path.IsSpelling (p : Path) (text : String) : Prop :=
  ∃ pieces, text.toList = ['/'].intercalate pieces ∧
    List.Forall₂ Step.IsSpelling p.steps pieces

/-! ## Names of slots -/

namespace Slot

/-- A name is written in lower case, with hyphens if it has several words. -/
theorem lower_or_hyphen_of_mem_name (slot : Slot) :
    ∀ c ∈ slot.name.toList, c.isLower = true ∨ c = '-' := by
  have hall : (slot.name.toList.all fun c => c.isLower || c == '-') = true := by
    cases slot <;> decide
  intro c hc
  have hchar := List.all_eq_true.1 hall c hc
  rwa [Bool.or_eq_true, beq_iff_eq] at hchar

theorem colon_notMem_name (slot : Slot) : ':' ∉ slot.name.toList := by
  intro h
  exact absurd (slot.lower_or_hyphen_of_mem_name ':' h) (by decide)

theorem slash_notMem_name (slot : Slot) : '/' ∉ slot.name.toList := by
  intro h
  exact absurd (slot.lower_or_hyphen_of_mem_name '/' h) (by decide)

theorem ofName?_eq_some_iff {slot : Slot} {name : String} :
    ofName? name = some slot ↔ slot.name = name := by
  constructor
  · intro h
    unfold ofName? at h
    have hfound := List.find?_some h
    exact beq_iff_eq.1 hfound
  · rintro rfl
    exact ofName?_name slot

end Slot

/-! ## Steps -/

namespace Step

variable {s : Step} {text : List Char}

theorem IsSpelling.ne_nil (h : s.IsSpelling text) : text ≠ [] := by
  obtain ⟨numeral, rfl, -⟩ := h
  exact List.append_ne_nil_of_right_ne_nil _ (List.cons_ne_nil ':' numeral)

/-- A slash stands in no step, so the slashes in the text of a path tell its steps apart. -/
theorem IsSpelling.slash_notMem (h : s.IsSpelling text) : '/' ∉ text := by
  obtain ⟨numeral, rfl, hnumeral, -⟩ := h
  intro hslash
  rcases List.mem_append.1 hslash with hname | hrest
  · exact s.slot.slash_notMem_name hname
  · rcases List.mem_cons.1 hrest with hcolon | hdigit
    · exact absurd hcolon (by decide)
    · exact absurd (hnumeral.digit_or_sign '/' hdigit) (by decide)

theorem isSpelling_stepText (h : s.InRange) : s.IsSpelling (Path.stepText s) :=
  ⟨Text.Numeral.write s.offset, rfl, Text.Numeral.isNumeral_write s.offset, h⟩

theorem exists_isSpelling_of_mem {steps : List Step} {pieces : List (List Char)}
    (h : List.Forall₂ IsSpelling steps pieces) : ∀ piece ∈ pieces, ∃ s : Step, s.IsSpelling piece := by
  induction h with
  | nil => exact fun piece hmem => absurd hmem List.not_mem_nil
  | @cons s piece steps rest hs _ ih => exact List.forall_mem_cons.2 ⟨⟨s, hs⟩, ih⟩

end Step

namespace Path

theorem readStep?_of_isSpelling {s : Step} {text : List Char} (h : s.IsSpelling text) :
    readStep? text = some s := by
  obtain ⟨numeral, rfl, hnumeral, hlow, hhigh⟩ := h
  have hcut := Text.cutAtFirst?_append s.slot.colon_notMem_name numeral
  have hslot : Slot.ofName? (String.ofList s.slot.name.toList) = some s.slot := by
    rw [String.ofList_toList, Slot.ofName?_name]
  have hoffset : Text.Numeral.offset? numeral = some s.offset := by
    rw [Text.Numeral.offset?_eq_some_iff]
    have hbits : -Int.pow 2 31 ≤ leadingGap := by decide
    exact ⟨hnumeral, Int.le_trans hbits hlow, hhigh⟩
  rw [readStep?, hcut]
  simp only [Option.bind_eq_bind, Option.bind_some, hslot, hoffset]
  rw [if_neg (by omega)]

theorem isSpelling_of_readStep? {s : Step} {text : List Char} (h : readStep? text = some s) :
    s.IsSpelling text := by
  obtain ⟨⟨name, numeral⟩, hcut, h⟩ := Option.bind_eq_some_iff.1 h
  obtain ⟨slot, hslot, h⟩ := Option.bind_eq_some_iff.1 h
  obtain ⟨offset, hoffset, h⟩ := Option.bind_eq_some_iff.1 h
  obtain ⟨hlow, hs⟩ := Option.ite_none_left_eq_some.1 h
  obtain rfl := Option.some.inj hs
  obtain ⟨hnumeral, -, hhigh⟩ := Text.Numeral.offset?_eq_some_iff.1 hoffset
  have hname : slot.name.toList = name := by
    rw [Slot.ofName?_eq_some_iff.1 hslot, String.toList_ofList]
  refine ⟨numeral, ?_, hnumeral, ?_, hhigh⟩
  · rw [hname]
    exact (Text.eq_append_of_cutAtFirst? hcut).1
  · exact Int.not_lt.1 hlow

theorem readStep?_eq_some_iff {s : Step} {text : List Char} :
    readStep? text = some s ↔ s.IsSpelling text :=
  ⟨isSpelling_of_readStep?, readStep?_of_isSpelling⟩

/-- Steps are read one for each piece, and all pieces have to be steps. -/
theorem mapM_readStep?_eq_some_iff {pieces : List (List Char)} {steps : List Step} :
    pieces.mapM readStep? = some steps ↔ List.Forall₂ Step.IsSpelling steps pieces := by
  induction pieces generalizing steps with
  | nil =>
      rw [List.forall₂_nil_right_iff, List.mapM_nil]
      exact ⟨fun h => (Option.some.inj h).symm, fun h => congrArg some h.symm⟩
  | cons piece rest ih =>
      rw [List.forall₂_cons_right_iff, List.mapM_cons]
      constructor
      · intro h
        obtain ⟨s, hs, h⟩ := Option.bind_eq_some_iff.1 h
        obtain ⟨more, hmore, h⟩ := Option.bind_eq_some_iff.1 h
        exact ⟨s, more, readStep?_eq_some_iff.1 hs, ih.1 hmore, (Option.some.inj h).symm⟩
      · rintro ⟨s, more, hs, hmore, rfl⟩
        rw [readStep?_eq_some_iff.2 hs, ih.2 hmore]
        rfl

/-! ## Paths -/

variable {p : Path} {text : String}

theorem IsSpelling.inRange (h : p.IsSpelling text) : ∀ s ∈ p.steps, s.InRange := by
  obtain ⟨pieces, -, hpieces⟩ := h
  have hboth : List.Forall₂ (fun s piece => s.InRange ∧ s.IsSpelling piece) p.steps pieces := by
    refine hpieces.imp fun s piece hs => ⟨?_, hs⟩
    obtain ⟨-, -, -, hrange⟩ := hs
    exact hrange
  exact ((List.forall₂_and_left p.steps pieces).1 hboth).1

theorem isSpelling_text (h : ∀ s ∈ p.steps, s.InRange) : p.IsSpelling p.text := by
  refine ⟨p.steps.map stepText, ?_, ?_⟩
  · rw [text, String.toList_ofList, Text.joinWith_eq_intercalate]
  · rw [List.forall₂_map_right_iff, List.forall₂_same]
    intro s hs
    exact Step.isSpelling_stepText (h s hs)

theorem isSpelling_of_read? (h : read? text = some p) : p.IsSpelling text := by
  unfold read? at h
  split at h
  · rename_i hempty
    obtain rfl := Option.some.inj h
    rw [String.isEmpty_iff.1 hempty]
    exact ⟨[], rfl, .nil⟩
  · obtain ⟨steps, hsteps, rfl⟩ := Option.map_eq_some_iff.1 h
    refine ⟨Text.splitAtEach '/' text.toList, ?_, mapM_readStep?_eq_some_iff.1 hsteps⟩
    rw [← Text.joinWith_eq_intercalate, Text.joinWith_splitAtEach]

theorem read?_of_isSpelling (h : p.IsSpelling text) : read? text = some p := by
  obtain ⟨steps⟩ := p
  obtain ⟨pieces, htext, hpieces⟩ := h
  cases hpieces with
  | nil =>
      rw [String.toList_eq_nil_iff.1 htext]
      rfl
  | @cons s piece steps rest hs hrest =>
      have hslash : ∀ t ∈ piece :: rest, '/' ∉ t := by
        intro t ht
        obtain ⟨s, hs⟩ := Step.exists_isSpelling_of_mem (.cons hs hrest) t ht
        exact hs.slash_notMem
      have hsplit : Text.splitAtEach '/' text.toList = piece :: rest := by
        rw [htext, ← Text.joinWith_eq_intercalate]
        exact Text.splitAtEach_joinWith (List.cons_ne_nil piece rest) hslash
      have hne : ¬text.isEmpty = true := by
        -- the only piece of an empty text is empty, and no step is
        intro hempty
        rw [String.isEmpty_iff.1 hempty] at hsplit
        exact hs.ne_nil (List.cons.inj hsplit).1.symm
      rw [read?, if_neg hne, hsplit, mapM_readStep?_eq_some_iff.2 (.cons hs hrest)]
      rfl

theorem read?_eq_some_iff : read? text = some p ↔ p.IsSpelling text :=
  ⟨isSpelling_of_read?, read?_of_isSpelling⟩

/-! ## Reading and writing -/

theorem read_eq_ok_iff : read text = .ok p ↔ p.IsSpelling text := by
  rw [← read?_eq_some_iff, read]
  cases read? text with
  | none => exact iff_of_false (fun h => nomatch h) (fun h => nomatch h)
  | some q => rw [Except.ok.injEq, Option.some.injEq]

/-- A text that is refused is named in the refusal. -/
theorem read_eq_error_iff {reason : EditError} : read text = .error reason ↔
    (¬∃ p : Path, p.IsSpelling text) ∧ reason = .invalidArgument "path" text := by
  simp only [← read?_eq_some_iff, read]
  cases read? text with
  | none => simp [eq_comm]
  | some q => simp

/-- What is written of a path is read as the path, if its offsets are in range. -/
theorem read_text_iff : read p.text = .ok p ↔ ∀ s ∈ p.steps, s.InRange := by
  rw [read_eq_ok_iff]
  exact ⟨IsSpelling.inRange, isSpelling_text⟩

/-- Reading and writing are inverse to each other: the texts of a path are read as the path, all
other texts are refused, and what is written of a path is one of its texts. -/
theorem read_inverts_text :
    (∀ p : Path, read p.text = .ok p ↔
        ∀ s ∈ p.steps, leadingGap ≤ s.offset ∧ s.offset < Int.pow 2 31) ∧
      (∀ (text : String) (p : Path), read text = .ok p ↔ p.IsSpelling text) ∧
      (∀ (text : String) (reason : EditError), read text = .error reason ↔
        (¬∃ p : Path, p.IsSpelling text) ∧ reason = .invalidArgument "path" text) ∧
      ∀ (text : String) (p : Path), read text = .ok p → read p.text = .ok p := by
  refine ⟨fun p => read_text_iff, fun text p => read_eq_ok_iff, fun text reason => read_eq_error_iff,
    fun text p h => ?_⟩
  have hrange : ∀ s ∈ p.steps, s.InRange := (read_eq_ok_iff.1 h).inRange
  exact read_text_iff.2 hrange

/-- A path with the smallest and the largest offset. -/
def farInRadicand : Path :=
  ⟨[⟨.body, 7⟩, ⟨.superscript, leadingGap⟩, ⟨.radicand, 2147483647⟩]⟩

/-- Numerals with either sign and with zeros before their digits. -/
theorem read_inverts_text_manyNumerals :
    read "body:+007/superscript:-01/radicand:2147483647" = .ok farInRadicand ∧
      read farInRadicand.text = .ok farInRadicand := by
  have hread : read "body:+007/superscript:-01/radicand:2147483647" = .ok farInRadicand := by
    decide
  exact ⟨hread, read_inverts_text.2.2.2 _ _ hread⟩

end Path

end FormulaEditor

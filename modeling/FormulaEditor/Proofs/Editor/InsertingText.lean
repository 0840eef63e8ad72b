import FormulaEditor.Proofs.Editor.Erasing
import FormulaEditor.Proofs.Latex.PlainText

/-!
# Inserting plain text

A text in which no character has a meaning of its own is inserted as a leaf for each character. A
blank character that is inserted alone in text is one of them, and so is a NUL that is inserted alone.
In a longer text they are lost, because the text is cut into tokens as if it stood in math.
-/

namespace FormulaEditor

open Latex (ReadingMode isReserved isUnreserved isVisible)
open Latex.Reader (AreOf newPlain plainAtom)

theorem isTypedLeaf_newPlain (mode : ReadingMode) (c : Char) (n : Nat) :
    IsTypedLeaf (newPlain mode c n).1 := by
  cases mode with
  | math => exact isTypedLeaf_newMathChar c n
  | text => exact .leaf _ _ _ (rfl : Kind.shape .ordinary = .leaf) Kind.noConfusion

theorem isTypedLeaf_of_areOf {mode : ReadingMode} {chars : List Char} {atoms : List Atom}
    (h : AreOf mode chars atoms) : ∀ a ∈ atoms, IsTypedLeaf a := by
  induction h with
  | nil => exact List.forall_mem_nil _
  | cons c n _ ih => exact List.forall_mem_cons.2 ⟨isTypedLeaf_newPlain mode c n, ih⟩

namespace Editor

/-- The characters of a plain text for which an atom is inserted. -/
def insertedChars (mode : ReadingMode) (text : List Char) : List Char :=
  match mode, text with
  | .text, [c] => [c]
  | _, _ => text.filter isVisible

/-- Inserts characters one after the other, until one is refused. -/
def insertEach (e : Editor) : List Char → Outcome Editor Unit
  | [] => .done e
  | c :: rest =>
      (e.insert (String.singleton c) InsertOptions.standard).andThen fun e => e.insertEach rest

variable {e : Editor} {root owner : Atom} {q : Path} {slot : Slot}
  {atoms content before after : List Atom} {offset : Int} {mode : ReadingMode} {text : List Char}
  {c : Char}

/-! ## What is inserted -/

theorem areOf_charAtoms (hc : isReserved c = false) (e : Editor) (mode : ReadingMode)
    (args : List (List Atom)) : AreOf mode (insertedChars mode [c]) (e.charAtoms c mode args).1 := by
  simp only [isReserved, List.contains_cons, List.contains_nil, Bool.or_false, Bool.or_eq_false_iff,
    beq_eq_false_iff_ne] at hc
  obtain ⟨hslash, hsup, hsub, hbegin, hend, hnumber, hpercent, halign, hdollar⟩ := hc
  have hneeds : needsBackslash c = false := by
    simp [needsBackslash, hbegin, hend, hnumber, hpercent, halign, hdollar]
  unfold charAtoms
  rw [if_neg (by simp [hslash, hsup, hsub]), if_neg (by simp [hneeds])]
  cases mode with
  | text => exact .cons c e.supply .nil
  | math =>
      rw [if_neg (by decide)]
      by_cases hb : Text.isBlank c = true
      · rw [if_pos hb]
        have hnone : insertedChars .math [c] = [] := by simp [insertedChars, isVisible, hb]
        rw [hnone]
        exact .nil
      · rw [if_neg hb]
        have hone : insertedChars .math [c] = [c] := by simp [insertedChars, isVisible, hb]
        rw [hone]
        exact .cons c e.supply .nil

theorem insertedChars_of_length_ne (mode : ReadingMode) (h : text.length ≠ 1) :
    insertedChars mode text = text.filter isVisible := by
  unfold insertedChars
  split
  · exact absurd rfl h
  · rfl

/-- A plain text is inserted as its characters, if it is one character or has no NUL, and no primes in
math. -/
theorem areOf_textAtoms (hc : ∀ c ∈ text, isReserved c = false)
    (hlong : text.length ≠ 1 →
      '\x00' ∉ text ∧ (mode = .math → Text.Quoted.singleQuote ∉ text)) (e : Editor)
    (args : List (List Atom)) :
    AreOf mode (insertedChars mode text)
      (e.textAtoms (String.ofList text) .auto mode args).1 := by
  by_cases hone : text.length = 1
  · obtain ⟨c, rfl⟩ := List.length_eq_one_iff.1 hone
    have hsingle : e.textAtoms (String.ofList [c]) .auto mode args = e.charAtoms c mode args := by
      simp only [textAtoms, String.toList_ofList]
    rw [hsingle]
    exact areOf_charAtoms (hc c (List.mem_singleton_self c)) e mode args
  · have hfragment : e.textAtoms (String.ofList text) .auto mode args =
        e.readFragment (String.ofList text) mode args := by
      unfold textAtoms
      split
      · rename_i hsingle
        rw [String.toList_ofList] at hsingle
        rw [hsingle] at hone
        exact absurd rfl hone
      · rfl
    obtain ⟨hnul, hprime⟩ := hlong hone
    rw [hfragment, insertedChars_of_length_ne mode hone, ← Latex.filter_isRead hnul]
    exact Latex.areOf_parseFragment_plain hc hprime args e.supply

theorem takesImplicitArgument_plain (hc : ∀ c ∈ text, isReserved c = false) :
    takesImplicitArgument text = false := by
  induction text with
  | nil => rfl
  | cons c text ih =>
      obtain ⟨hhead, htail⟩ := List.forall_mem_cons.1 hc
      unfold takesImplicitArgument
      split
      · rename_i heq
        cases heq
        cases hhead
      · rename_i heq
        cases heq
        exact ih htail
      · rfl

/-! ## Inserting at the caret -/

/-- In a well-formed formula settling does not change what is in a branch. -/
theorem OpenedAtCaret.settled_eq (h : e.OpenedAtCaret root q slot owner atoms content offset)
    (hs : e.Sound) (filler : Nat) :
    settled owner slot filler content = content ∧ (content = [] → slot.isOptional = false) := by
  have hrequires : (owner.putBranch slot (some content)).requiresContent slot =
      owner.requiresContent slot := by
    cases slot <;> rfl
  have hself := settled_eq_self h.isBranch hs.isWellFormed filler
  rw [settled, hrequires] at hself
  exact hself

/-- Plain text goes to the caret, which is behind it then. If there is nothing to insert, nothing
changes. -/
theorem OpenedAtCaret.insert_plain (h : e.OpenedAtCaret root q slot owner atoms content offset)
    (hs : e.Sound) (hmode : (if e.inText then ReadingMode.text else .math) = mode)
    (hc : ∀ c ∈ text, isReserved c = false)
    (hlong : text.length ≠ 1 →
      '\x00' ∉ text ∧ (mode = .math → Text.Quoted.singleQuote ∉ text)) :
    ∃ e' leaves, e.insert (String.ofList text) InsertOptions.standard = .done e' ∧
      AreOf mode (insertedChars mode text) leaves ∧
      (leaves = [] → e'.OpenedAtCaret root q slot owner atoms content offset) ∧
      (leaves ≠ [] → e'.OpenedAtCaret root q slot owner atoms
        (beforeGap (q.child slot offset) content ++ leaves ++ afterGap (q.child slot offset) content)
        (((beforeGap (q.child slot offset) content ++ leaves).length : Int) - 1)) := by
  have hargument : e.takeArgument (String.ofList text) = ([], e) := by
    simp only [takeArgument, takeSelection, h.isCollapsed, if_true, String.toList_ofList,
      takesImplicitArgument_plain hc, Bool.and_false, Bool.false_eq_true, if_false]
  have hleaves := areOf_textAtoms hc hlong e [[]]
  have hreads : e.ReadsInto (fun _ => True)
      (e.textAtoms (String.ofList text) .auto mode [[]]) :=
    readsInto_textAtoms (fun _ _ _ _ _ => trivial) (fun _ _ => trivial) _ _ mode
  have hat := h.of_eq hreads.root_eq hreads.selection_eq
  have hinsert : e.insert (String.ofList text) InsertOptions.standard =
      (e.textAtoms (String.ofList text) .auto mode [[]]).2.insertAtoms
        (e.textAtoms (String.ofList text) .auto mode [[]]).1 .placeholder := by
    unfold Editor.insert
    rw [hs.whenValid, hargument]
    simp only [hmode, InsertOptions.standard]
  generalize e.textAtoms (String.ofList text) .auto mode [[]] = made at *
  by_cases hnone : made.1 = []
  · obtain ⟨hsettled, hkeep⟩ := h.settled_eq hs made.2.supply
    have hnothing := hat.insertAtoms_nil hkeep .placeholder
    rw [hsettled] at hnothing
    have hdone : e.insert (String.ofList text) InsertOptions.standard =
        .done (e.insert (String.ofList text) InsertOptions.standard).state :=
      congrArg (Outcome.mk _) (hs.insert (String.ofList text) InsertOptions.standard).1
    refine ⟨_, made.1, hdone, hleaves, fun _ => ?_, fun hne => absurd hnone hne⟩
    rw [hinsert, hnone]
    exact hnothing
  · obtain ⟨e', hinserted, hopened, -⟩ :=
      hat.insertAtoms_typedLeaves hnone (isTypedLeaf_of_areOf hleaves)
    exact ⟨e', made.1, hinsert.trans hinserted, hleaves, fun hnil => absurd hnil hnone,
      fun _ => hopened⟩

/-- One character of text is inserted as itself. -/
theorem OpenedAtCaret.insert_textChar (h : e.OpenedAtCaret root q slot owner atoms content offset)
    (hs : e.Sound) (htext : e.inText = true) (hc : isReserved c = false) :
    ∃ e' a n, e.insert (String.singleton c) InsertOptions.standard = .done e' ∧
      a = (newPlain .text c n).1 ∧ e'.Sound ∧ e'.inText = true ∧
      e'.OpenedAtCaret root q slot owner atoms
        (beforeGap (q.child slot offset) content ++ [a] ++ afterGap (q.child slot offset) content)
        (((beforeGap (q.child slot offset) content ++ [a]).length : Int) - 1) := by
  have hmode : (if e.inText then ReadingMode.text else .math) = .text := by rw [htext]; rfl
  have hchars : ∀ d ∈ [c], isReserved d = false := by simpa using hc
  obtain ⟨e', leaves, hinserted, hleaves, -, hopened⟩ :=
    h.insert_plain hs hmode hchars fun hone => absurd rfl hone
  cases hleaves with
  | cons c n hrest =>
      cases hrest
      have hat := hopened (List.cons_ne_nil _ _)
      have hcarried := hs.insert (String.ofList [c]) InsertOptions.standard
      rw [hinserted] at hcarried
      exact ⟨e', _, n, hinserted, rfl, hcarried.2, (hat.inText_eq h).trans htext, hat⟩

/-- Characters that are inserted one by one in text stand one after the other, blanks too. -/
theorem OpenedAtCaret.insertEach
    (h : e.OpenedAtCaret root q slot owner atoms (before ++ after) ((before.length : Int) - 1))
    (hlone : isPlaceholderOnly (before ++ after) = false) (hs : e.Sound) (htext : e.inText = true)
    (hc : ∀ c ∈ text, isReserved c = false) :
    ∃ e' leaves, e.insertEach text = .done e' ∧ AreOf .text text leaves ∧
      e'.OpenedAtCaret root q slot owner atoms (before ++ leaves ++ after)
        (((before ++ leaves).length : Int) - 1) := by
  induction text generalizing e before with
  | nil => exact ⟨e, [], rfl, .nil, by rwa [List.append_nil]⟩
  | cons c text ih =>
      obtain ⟨hhead, htail⟩ := List.forall_mem_cons.1 hc
      obtain ⟨e₁, a, n, hinserted, rfl, hs₁, htext₁, hopened⟩ := h.insert_textChar hs htext hhead
      obtain ⟨hbefore, hafter⟩ := gap_append q slot hlone
      rw [hbefore, hafter] at hopened
      have hlone₁ : isPlaceholderOnly (before ++ [(newPlain .text c n).1] ++ after) = false :=
        isPlaceholderOnly_of_isTypedLeaf (by simp) (isTypedLeaf_newPlain .text c n)
      obtain ⟨e', leaves, heach, hleaves, hat⟩ := ih hopened hlone₁ hs₁ htext₁ htail
      rw [List.append_assoc before] at hat
      refine ⟨e', (newPlain .text c n).1 :: leaves, ?_, .cons c n hleaves, hat⟩
      rw [Editor.insertEach, hinserted]
      exact heach

/-! ## At once and one by one -/

theorem insertedChars_sublist (mode : ReadingMode) (text : List Char) :
    (insertedChars mode text).Sublist text := by
  unfold insertedChars
  split
  · exact List.Sublist.refl _
  · exact List.filter_sublist

/-- In text no character is lost from a single one or from characters that are not blank. -/
theorem insertedChars_text_eq_iff (text : List Char) :
    insertedChars .text text = text ↔ text.length ≤ 1 ∨ ∀ c ∈ text, Text.isBlank c = false := by
  by_cases hone : text.length = 1
  · obtain ⟨c, rfl⟩ := List.length_eq_one_iff.1 hone
    exact iff_of_true rfl (.inl (Nat.le_refl 1))
  · rw [insertedChars_of_length_ne .text hone, List.filter_eq_self]
    have hvisible (c : Char) : isVisible c = true ↔ Text.isBlank c = false := by simp [isVisible]
    simp only [hvisible]
    constructor
    · exact .inr
    · rintro (hle | hall)
      · have hnil : text = [] := List.eq_nil_of_length_eq_zero (by omega)
        rw [hnil]
        exact List.forall_mem_nil _
      · exact hall

/-- Only a lone placeholder is not around the gap. -/
theorem length_le_length_gap (q : Path) (slot : Slot) (ho : IsOffset content offset) :
    content.length ≤ (beforeGap (q.child slot offset) content).length +
      (afterGap (q.child slot offset) content).length + 1 := by
  cases hlone : isPlaceholderOnly content with
  | true =>
      obtain ⟨a, rfl, -, -⟩ := isPlaceholderOnly_iff.1 hlone
      rw [List.length_singleton]
      omega
  | false =>
      have hall := congrArg List.length (gap_of_not_isPlaceholderOnly q slot hlone ho).1
      rw [List.length_append] at hall
      omega

/-- Without a selection the caret is in the branch that is opened there. -/
theorem Sound.exists_openedAtCaret (h : e.Sound) (hcaret : e.selection.isCollapsed = true) :
    ∃ q slot owner atoms offset, e.OpenedAtCaret e.root q slot owner atoms atoms offset := by
  obtain ⟨q, slot, owner, atoms, anchor, focus, hsel⟩ := h.exists_selectsIn
  have hends : q.child slot anchor = q.child slot focus := by
    have hanchor := beq_iff_eq.1 hcaret
    rwa [hsel.selection_eq] at hanchor
  obtain ⟨-, -, rfl⟩ := Path.child_injective hends
  exact ⟨q, slot, owner, atoms, anchor, h.opened hsel.branch, hsel.selection_eq, hsel.anchor⟩

/-- In text, inserting a plain text at once and inserting its characters one by one are both carried
out, and lead to the same unless a blank stands in a text of more than one character. -/
theorem Sound.insert_alike_insertEach_iff (h : e.Sound) (hcaret : e.selection.isCollapsed = true)
    (htext : e.inText = true) (hc : ∀ c ∈ text, isUnreserved c = true) :
    ∃ e₁ e₂, e.insert (String.ofList text) InsertOptions.standard = .done e₁ ∧
      e.insertEach text = .done e₂ ∧
      (e₁.Alike e₂ ↔ text.length ≤ 1 ∨ ∀ c ∈ text, Text.isBlank c = false) := by
  obtain ⟨q, slot, owner, atoms, offset, hat⟩ := h.exists_openedAtCaret hcaret
  have hmode : (if e.inText then ReadingMode.text else .math) = .text := by rw [htext]; rfl
  have hplain : ∀ c ∈ text, isReserved c = false := fun c hmem =>
    (Latex.isUnreserved_iff.1 (hc c hmem)).2
  have hnul : '\x00' ∉ text := fun hmem => (Latex.isUnreserved_iff.1 (hc _ hmem)).1 rfl
  obtain ⟨e₁, leaves₁, hinserted, hleaves₁, hnone, hsome⟩ :=
    hat.insert_plain h hmode hplain fun _ => ⟨hnul, nofun⟩
  have hgap := length_le_length_gap q slot hat.isOffset
  cases text with
  | nil =>
      cases hleaves₁
      have hsame := (hnone rfl).alike_iff hat
      exact ⟨e₁, e, hinserted, rfl, iff_of_true (hsame.2 ⟨rfl, rfl⟩) (.inl (Nat.zero_le 1))⟩
  | cons c rest =>
      obtain ⟨hhead, htail⟩ := List.forall_mem_cons.1 hplain
      obtain ⟨e', a, n, hfirst, rfl, hs', htext', hopened⟩ := hat.insert_textChar h htext hhead
      generalize beforeGap (q.child slot offset) atoms = before at *
      generalize afterGap (q.child slot offset) atoms = after at *
      have hlone' : isPlaceholderOnly (before ++ [(newPlain .text c n).1] ++ after) = false :=
        isPlaceholderOnly_of_isTypedLeaf (by simp) (isTypedLeaf_newPlain .text c n)
      obtain ⟨e₂, leaves, heach, hleaves, hlast⟩ := hopened.insertEach hlone' hs' htext' htail
      have hleaves₂ : AreOf .text (c :: rest) ((newPlain .text c n).1 :: leaves) := .cons c n hleaves
      rw [List.append_assoc before, List.singleton_append] at hlast
      refine ⟨e₁, e₂, hinserted, ?_, ?_⟩
      · rw [Editor.insertEach, hfirst]
        exact heach
      · rw [← insertedChars_text_eq_iff]
        by_cases hempty : leaves₁ = []
        · have hchars : insertedChars .text (c :: rest) = [] := by
            have hlength := hleaves₁.length_eq
            rw [hempty] at hlength
            exact List.eq_nil_of_length_eq_zero hlength.symm
          have hone : (c :: rest).length ≠ 1 := by
            intro hone
            rw [(insertedChars_text_eq_iff _).2 (.inl (Nat.le_of_eq hone))] at hchars
            cases hchars
          apply iff_of_false _ (by rw [hchars]; exact List.cons_ne_nil c rest |>.symm)
          -- Two atoms or more are inserted one by one, and none at once.
          rw [(hnone hempty).alike_iff hlast]
          rintro ⟨hbare, -⟩
          have hlength := congrArg List.length hbare
          have hcount := hleaves₂.length_eq
          simp only [List.length_map, List.length_append] at hlength
          simp only [List.length_cons] at hcount hone hlength
          omega
        · rw [(hsome hempty).alike_iff hlast]
          simp only [List.map_append, List.append_cancel_left_eq, List.append_cancel_right_eq,
            hleaves₁.map_bare, hleaves₂.map_bare, List.length_append, hleaves₁.length_eq,
            hleaves₂.length_eq]
          constructor
          · rintro ⟨hbare, -⟩
            have hlength := congrArg List.length hbare
            rw [List.length_map, List.length_map] at hlength
            exact (insertedChars_sublist .text (c :: rest)).eq_of_length hlength
          · intro hchars
            rw [hchars]
            exact ⟨rfl, rfl⟩

/-- The formula `\text{x}` with the caret behind the letter. -/
def letterOfText : Editor :=
  let text : Atom := .node ⟨1, .text, some "\\text", none, Marks.none⟩
    { Branches.none with body := some [(newPlain .text 'x' 2).1] }
  (ofRoot (.node ⟨0, .root, none, none, Marks.none⟩ { Branches.none with body := some [text] }) 3).setCaret
    ⟨[⟨.body, 0⟩, ⟨.body, 0⟩]⟩

theorem insert_alike_insertEach_letterOfText :
    letterOfText.Sound ∧ letterOfText.selection.isCollapsed = true ∧ letterOfText.inText = true ∧
    (∀ c ∈ ['a', ' ', 'b'], isUnreserved c = true) ∧
    ∃ e₁ e₂, letterOfText.insert (String.ofList ['a', ' ', 'b']) InsertOptions.standard = .done e₁ ∧
      letterOfText.insertEach ['a', ' ', 'b'] = .done e₂ ∧
      (e₁.Alike e₂ ↔ ['a', ' ', 'b'].length ≤ 1 ∨ ∀ c ∈ ['a', ' ', 'b'], Text.isBlank c = false) := by
  have hsound : letterOfText.Sound := ⟨rfl, by decide, rfl⟩
  have htext : letterOfText.inText = true := by decide
  have hchars : ∀ c ∈ ['a', ' ', 'b'], isUnreserved c = true := List.all_eq_true.1 (by decide)
  exact ⟨hsound, rfl, htext, hchars, hsound.insert_alike_insertEach_iff rfl htext hchars⟩

end Editor

end FormulaEditor

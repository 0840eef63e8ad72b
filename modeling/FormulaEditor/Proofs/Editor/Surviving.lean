import FormulaEditor.Proofs.Editor.InsertionFrame
import FormulaEditor.Proofs.Field.Distinct
import FormulaEditor.Proofs.Latex.Arguments
import FormulaEditor.Proofs.Latex.Using

/-!
# What survives an insertion at the caret

A text with `#@` takes the atoms before the caret out of the formula. They come back only if the text
uses its argument when it is read, and whether `#@` occurs in the text is another question: after a
backslash, in a comment or in the name of an environment it is no reference. Everything else stays,
except for a lone placeholder that gives way.
-/

namespace FormulaEditor

open Atom Scale Latex Latex.Reader

namespace InsertionParts

variable {parts : InsertionParts} {atoms : List Atom} {text : String}

/-- At a caret nothing is selected. -/
theorem Divides.selected_eq_nil {s : Selection}
    (h : parts.Divides atoms s.startIndex s.stopIndex text) (hc : s.isCollapsed = true) :
    parts.selected = [] := by
  have hsame : s.stopIndex = s.startIndex := by
    have heq : s.anchor = s.focus := by simpa [Selection.isCollapsed] using hc
    simp only [Selection.startIndex, Selection.stopIndex, Selection.start, Selection.stop, heq, min_self,
      max_self]
  have hstart := h.start_eq
  have hstop := h.stop_eq
  rw [List.length_append] at hstop
  exact List.length_eq_zero_iff.1 (by omega)

theorem Divides.count_identities {start stop : Nat} (h : parts.Divides atoms start stop text)
    (hnone : parts.selected = []) (i : Nat) :
    (identitiesOf atoms).count i =
      (identitiesOf parts.kept).count i + (identitiesOf parts.implicit).count i := by
  simp only [← weight_only]
  rw [h.atoms_eq, hnone, kept]
  simp only [weight_append, weight_nil]
  omega

/-- After the insertion the branch holds what stays and what was made, and perhaps a new filler. -/
theorem count_result (parts : InsertionParts) (made : List Atom) (owner : Atom) (slot : Slot)
    {filler i : Nat} (hi : i < filler) :
    (identitiesOf ((parts.result made owner slot filler).getD [])).count i =
      (if parts.givesWay made = true then 0 else (identitiesOf parts.kept).count i) +
        (identitiesOf made).count i := by
  simp only [← weight_only]
  cases made with
  | nil =>
      have hgives : parts.givesWay [] = false := rfl
      have hfiller : weight (only i).label [Atom.placeholder filler] = 0 := by
        rw [weight_placeholder]
        exact if_neg (Nat.ne_of_gt hi)
      simp only [InsertionParts.result, List.isEmpty_nil, if_true, hgives, Bool.false_eq_true, if_false,
        weight_nil, Nat.add_zero]
      cases parts.kept with
      | nil =>
          split
          · rfl
          · unfold Editor.settled
            simp only [List.isEmpty_nil, if_true, Option.getD_some]
            split
            · exact hfiller
            · rfl
      | cons a rest => rfl
  | cons a rest =>
      simp only [InsertionParts.result, List.isEmpty_cons, Bool.false_eq_true, if_false,
        Option.getD_some, weight_append, InsertionParts.front, InsertionParts.back]
      split
      · simp only [weight_nil, Nat.zero_add, Nat.add_zero]
      · rw [InsertionParts.kept, weight_append]
        omega

end InsertionParts

namespace Editor

/-- Whether the argument of a text is put into what the text stands for. -/
def UsesArgument (e : Editor) (text : String) (argument : List Atom) : Prop :=
  0 ∈ (readAll [argument] (if e.inText then .text else .math)
    (start (tokenize text).tokens e.supply)).2.used

/-- What becomes of the identities of a formula when text is inserted at the caret. -/
structure KeepsIdentities (e : Editor) (text : String) (parts : InsertionParts) (made : List Atom)
    (root' : Atom) : Prop where
  /-- Where the text takes nothing, only a lone placeholder that gives way is lost. -/
  mem_iff_of_not_taken {i : Nat} : i ∈ e.root.identities → i ∉ identitiesOf parts.implicit →
    (i ∈ root'.identities ↔ ¬(parts.givesWay made = true ∧ i ∈ identitiesOf parts.kept))
  /-- What is taken stays exactly if the text uses it. -/
  mem_iff_of_taken {i : Nat} : i ∈ identitiesOf (unprotected parts.implicit) →
    (i ∈ root'.identities ↔ e.UsesArgument text parts.implicit)
  /-- The braces of a group by itself may be left out also where the text uses it. -/
  usesArgument_of_mem {i : Nat} : i ∈ identitiesOf parts.implicit → i ∈ root'.identities →
    e.UsesArgument text parts.implicit
  /-- Only what is read as a reference uses the argument. -/
  refersTo_of_usesArgument : parts.implicit ≠ [] → e.UsesArgument text parts.implicit →
    refersTo 0 (tokenize text).tokens = true
  /-- A reference uses the argument if none is in the name of an environment. -/
  usesArgument_of_refersTo : parts.implicit ≠ [] → refersTo 0 (tokenize text).tokens = true →
    hidesReference 0 (tokenize text).tokens = false → e.UsesArgument text parts.implicit

variable {e : Editor} {text : String} {options : InsertOptions} {q : Path} {slot : Slot}
  {owner : Atom} {atoms made argument : List Atom} {parts : InsertionParts} {i : Nat}

/-! ## Identities in what a text stands for -/

/-- A text stands for atoms with new identities and with those of its argument. -/
theorem count_standsFor_le (e : Editor) (text : String) (format : InsertFormat)
    (argument : List Atom) :
    e.supply ≤ (e.standsFor text format argument).2 ∧ ∀ i < e.supply,
      (identitiesOf (e.standsFor text format argument).1).count i ≤
        (identitiesOf argument).count i := by
  have hheld : e.Conserves argument e [argument].flatten := by
    rw [List.flatten_cons, List.flatten_nil, List.append_nil]
    exact .refl e argument
  have hread := conserves_textAtoms hheld text format (if e.inText then .text else .math)
  have hroot : (e.textAtoms text format (if e.inText then .text else .math) [argument]).2.root =
      e.root :=
    (readsInto_textAtoms (P := fun _ => True) (fun _ _ _ _ _ => trivial) (fun _ _ => trivial) text
      format _).root_eq
  refine ⟨hread.supply, fun i hlt => ?_⟩
  have hcount := hread.count i
  have hsupply := hread.supply
  rw [hroot, weight_only, weight_only, weight_only, given_only, given_only, if_pos hlt,
    if_pos (Nat.lt_of_lt_of_le hlt hsupply)] at hcount
  exact Nat.le_of_add_le_add_left (Nat.le_of_add_le_add_right hcount)

/-- A text that takes an argument is read as a fragment. -/
theorem standsFor_of_takesImplicitArgument (h : takesImplicitArgument text.toList = true)
    (e : Editor) (format : InsertFormat) (argument : List Atom) :
    (e.standsFor text format argument).1 =
      (readAll [argument] (if e.inText then .text else .math)
        (start (tokenize text).tokens e.supply)).1 := by
  have hread : e.textAtoms text format (if e.inText then .text else .math) [argument] =
      e.readFragment text (if e.inText then .text else .math) [argument] := by
    unfold textAtoms
    split
    · rename_i c hc
      rw [hc, takesImplicitArgument_singleton] at h
      cases h
    · rfl
  exact congrArg Prod.fst hread

/-- An identity of the argument that a text takes is in what the text stands for only if the text uses
the argument, and then, unless it is that of braces around all of it. -/
theorem mem_standsFor (h : takesImplicitArgument text.toList = true)
    (hd : (identitiesOf argument).Nodup) (hn : ∀ i ∈ identitiesOf argument, i < e.supply)
    (format : InsertFormat) :
    (i ∈ identitiesOf argument → i ∈ identitiesOf (e.standsFor text format argument).1 →
      e.UsesArgument text argument) ∧
    (i ∈ identitiesOf (unprotected argument) → e.UsesArgument text argument →
      i ∈ identitiesOf (e.standsFor text format argument).1) := by
  have hflatten : [argument].flatten = argument := by
    rw [List.flatten_cons, List.flatten_nil, List.append_nil]
  have hd' : (identitiesOf [argument].flatten).Nodup := hflatten.symm ▸ hd
  have hn' : ∀ i ∈ identitiesOf [argument].flatten, i < e.supply := hflatten.symm ▸ hn
  obtain ⟨hle, heq⟩ := (identities_readAll hd' hn' (if e.inText then .text else .math)
    (tokenize text).tokens).2 0 argument rfl
  rw [standsFor_of_takesImplicitArgument h]
  refine ⟨fun hi hmem => ?_, fun hi hused => ?_⟩
  · by_contra hnot
    have hcount := hle i hi
    rw [if_neg (show ¬0 ∈ _ from hnot)] at hcount
    have hpos := List.count_pos_iff.2 hmem
    omega
  · rw [← List.count_pos_iff, heq i hi, if_pos (show 0 ∈ _ from hused)]
    exact Nat.one_pos

/-! ## Identities in the formula -/

/-- A branch has no more of an identity than the formula. -/
theorem count_identities_branch_le {root : Atom} (h : IsBranch root q slot owner atoms) (i : Nat) :
    (identitiesOf atoms).count i ≤ root.identities.count i := by
  have hroot := weight_modifyAtom h.atom?_eq (fun a => a.putBranch slot none) (only i).label
  have howner := weight_putBranch (only i).label owner slot none
  rw [h.branch_eq, Option.getD_some, Option.getD_none] at howner
  simp only [weight_only, identitiesOf_singleton] at hroot howner
  have hnil : (identitiesOf []).count i = 0 := rfl
  omega

namespace EditsOneBranch

variable (h : EditsOneBranch e text options q slot owner atoms parts made)
include h

/-- The content of the branch of the caret leaves, and what it holds afterwards comes. -/
theorem count_identities (i : Nat) :
    (e.insert text options).state.root.identities.count i + (identitiesOf atoms).count i =
      e.root.identities.count i + (identitiesOf ((parts.result made owner slot
        (e.standsFor text options.format parts.argument).2).getD [])).count i := by
  have hroot := weight_modifyAtom h.branch.atom?_eq (fun a => a.putBranch slot
    (parts.result made owner slot (e.standsFor text options.format parts.argument).2)) (only i).label
  have howner := weight_putBranch (only i).label owner slot
    (parts.result made owner slot (e.standsFor text options.format parts.argument).2)
  rw [← h.root_eq] at hroot
  rw [h.branch.branch_eq, Option.getD_some] at howner
  simp only [weight_only, identitiesOf_singleton] at hroot howner
  omega

variable (hnone : parts.selected = []) (hd : e.root.Distinct e.supply)
include hnone

theorem made_eq_standsFor : made = (e.standsFor text options.format parts.implicit).1 := by
  have hargument : parts.argument = parts.implicit := by
    simp [InsertionParts.argument, hnone]
  exact hargument ▸ h.made_eq

theorem count_parts_le (i : Nat) :
    (identitiesOf parts.kept).count i + (identitiesOf parts.implicit).count i ≤
      e.root.identities.count i := by
  rw [← h.divides.count_identities hnone]
  exact count_identities_branch_le h.branch i

theorem mem_identities_of_mem_implicit (hi : i ∈ identitiesOf parts.implicit) :
    i ∈ e.root.identities := by
  have hle := h.count_parts_le hnone i
  have hpos := List.count_pos_iff.2 hi
  exact List.count_pos_iff.1 (by omega)

include hd

theorem nodup_implicit : (identitiesOf parts.implicit).Nodup := by
  refine List.nodup_iff_count_le_one.2 fun i => ?_
  have hle := h.count_parts_le hnone i
  have honce := List.nodup_iff_count_le_one.1 hd.nodup i
  omega

/-- An identity of the formula stays with what stays, and comes back with what was made. -/
theorem count_insert (hi : i ∈ e.root.identities) :
    (e.insert text options).state.root.identities.count i + (identitiesOf parts.kept).count i +
        (identitiesOf parts.implicit).count i =
      1 + (if parts.givesWay made = true then 0 else (identitiesOf parts.kept).count i) +
        (identitiesOf made).count i := by
  have hedit := h.count_identities i
  have hsupply := (count_standsFor_le e text options.format parts.argument).1
  rw [h.divides.count_identities hnone, InsertionParts.count_result parts made owner slot
    (Nat.lt_of_lt_of_le (hd.below i hi) hsupply), List.count_eq_one_of_mem hd.nodup hi] at hedit
  omega

/-- Outside of what is taken, only a placeholder that gives way is lost. -/
theorem mem_insert_iff_of_not_mem (hi : i ∈ e.root.identities) (hout : i ∉ identitiesOf parts.implicit) :
    i ∈ (e.insert text options).state.root.identities ↔
      ¬(parts.givesWay made = true ∧ i ∈ identitiesOf parts.kept) := by
  have hsum := h.count_insert hnone hd hi
  have hmade := (count_standsFor_le e text options.format parts.implicit).2 i (hd.below i hi)
  rw [← h.made_eq_standsFor hnone, List.count_eq_zero.2 hout] at hmade
  rw [List.count_eq_zero.2 hout] at hsum
  rw [← List.count_pos_iff, ← List.count_pos_iff]
  split at hsum
  · rename_i hgives
    simp only [hgives, true_and]
    omega
  · rename_i hgives
    simp only [hgives, Bool.false_eq_true, false_and, not_false_eq_true, iff_true]
    omega

/-- What is taken is in no other place, so that it comes back only with what was made. -/
theorem mem_insert_iff_of_mem (hi : i ∈ identitiesOf parts.implicit) :
    i ∈ (e.insert text options).state.root.identities ↔ i ∈ identitiesOf made := by
  have hin := h.mem_identities_of_mem_implicit hnone hi
  have hsum := h.count_insert hnone hd hin
  have hle := h.count_parts_le hnone i
  have hpos := List.count_pos_iff.2 hi
  rw [List.count_eq_one_of_mem hd.nodup hin] at hle
  rw [← List.count_pos_iff, ← List.count_pos_iff]
  split at hsum <;> omega

end EditsOneBranch

/-- An insertion at the caret loses a lone placeholder that gives way, and what it takes as the argument
of a text that does not use it. -/
theorem Sound.insert_keepsIdentities (h : e.Sound) (hd : e.root.Distinct e.supply)
    (hc : e.selection.isCollapsed = true) (text : String) (options : InsertOptions) :
    ∃ q slot owner atoms parts made,
      EditsOneBranch e text options q slot owner atoms parts made ∧ parts.selected = [] ∧
      KeepsIdentities e text parts made (e.insert text options).state.root := by
  obtain ⟨q, slot, owner, atoms, parts, made, hedits⟩ := h.insert_editsOneBranch text options
  have hnone : parts.selected = [] := hedits.divides.selected_eq_nil hc
  have htakes {i : Nat} (hi : i ∈ identitiesOf parts.implicit) :
      takesImplicitArgument text.toList = true := by
    by_contra hnot
    have hnil := hedits.divides.implicit_eq_nil (by simp [InsertionParts.takesImplicit, hnot])
    rw [hnil] at hi
    cases hi
  have hstands {i : Nat} (hi : i ∈ identitiesOf parts.implicit) :
      (i ∈ (e.insert text options).state.root.identities → e.UsesArgument text parts.implicit) ∧
      (i ∈ identitiesOf (unprotected parts.implicit) → e.UsesArgument text parts.implicit →
        i ∈ (e.insert text options).state.root.identities) := by
    have hread := mem_standsFor (i := i) (htakes hi) (hedits.nodup_implicit hnone hd)
      (fun j hj => hd.below j (hedits.mem_identities_of_mem_implicit hnone hj)) options.format
    rw [hedits.mem_insert_iff_of_mem hnone hd hi, hedits.made_eq_standsFor hnone]
    exact ⟨hread.1 hi, hread.2⟩
  have hfirst : [parts.implicit][0]? = some parts.implicit := rfl
  refine ⟨q, slot, owner, atoms, parts, made, hedits, hnone, ?_, fun {i} hi => ?_,
    fun {i} hi => (hstands hi).1, fun hne => ?_, fun hne => ?_⟩
  · exact fun hi hout => hedits.mem_insert_iff_of_not_mem hnone hd hi hout
  · have hstand := hstands (mem_of_mem_unprotected hi)
    exact ⟨hstand.1, hstand.2 hi⟩
  · exact (mem_used_readAll hfirst hne text _ e.supply).1
  · exact (mem_used_readAll hfirst hne text _ e.supply).2

/-- After a backslash `#@` is no reference, although the text takes what is before the caret. -/
example : takesImplicitArgument "\\#@".toList = true ∧
    refersTo 0 (tokenize "\\#@").tokens = false := by
  decide +kernel

/-- The formula `x` with the caret behind it. -/
def letterTyped : Editor :=
  (Editor.ofRoot (Atom.newRoot [Atom.leaf 0 .ordinary (some "x") none] 1).1 2).setCaret (Path.inRoot 0)

theorem insert_keepsIdentities_letterTyped :
    letterTyped.Sound ∧ letterTyped.root.Distinct letterTyped.supply ∧
    letterTyped.selection.isCollapsed = true ∧
    ∃ q slot owner atoms parts made,
      EditsOneBranch letterTyped "\\#@" (InsertOptions.latex .after) q slot owner atoms parts made ∧
      parts.selected = [] ∧
      KeepsIdentities letterTyped "\\#@" parts made
        (letterTyped.insert "\\#@" (InsertOptions.latex .after)).state.root := by
  have hsound : letterTyped.Sound := ⟨rfl, by decide, rfl⟩
  have hdistinct : letterTyped.root.Distinct letterTyped.supply := ⟨by decide, by decide⟩
  exact ⟨hsound, hdistinct, rfl, hsound.insert_keepsIdentities hdistinct rfl _ _⟩

end Editor

end FormulaEditor

import FormulaEditor.Proofs.Editor.InsertingText
import FormulaEditor.Proofs.Field.Firing

/-!
# Typing plain math

Without shortcuts, characters that have no meaning of their own are typed into an empty field as the
atoms that their text is read as. Only primes and NUL differ: each that is typed is a symbol of its
own, whereas in a source a prime is a superscript of what stands before it, and NUL is not allowed.
-/

namespace FormulaEditor

theorem Atom.alikeList_iff_map_bare (as bs : List Atom) :
    alikeList as bs = true ↔ as.map bare = bs.map bare := by
  rw [alikeList_iff, mapLabelsOfList_eq_map, mapLabelsOfList_eq_map]
  rfl

namespace Latex.Reader

theorem hasSuperscript_of_map_bare {as bs : List Atom} (h : as.map Atom.bare = bs.map Atom.bare)
    (hsuperscript : HasSuperscript as) : HasSuperscript bs := by
  obtain ⟨a, ha, hsome⟩ := hsuperscript
  obtain ⟨b, hb, hbare⟩ := List.mem_map.1 (h ▸ List.mem_map_of_mem ha : a.bare ∈ bs.map Atom.bare)
  exact ⟨b, hb, (Atom.isSome_branch_of_bare_eq hbare _).trans hsome⟩

variable {mode : ReadingMode} {chars text : List Char} {atoms read : List Atom}

theorem AreOf.not_hasSuperscript (h : AreOf mode chars atoms) : ¬HasSuperscript atoms := by
  rintro ⟨a, ha, hsuperscript⟩
  obtain ⟨id, value, glyph, -, -⟩ := isTypedLeaf_of_areOf h a ha
  cases hsuperscript

/-- What is read of a text has an atom less for every NUL. -/
theorem AreOf.map_bare_eq_iff (hread : AreOf mode (text.filter isRead) read)
    (h : AreOf mode (text.filter isVisible) atoms) :
    read.map Atom.bare = atoms.map Atom.bare ↔ '\x00' ∉ text := by
  rw [hread.map_bare, h.map_bare]
  constructor
  · intro hsame hnul
    have hlength := congrArg List.length hsame
    have hlost := length_filter_isRead_lt hnul
    rw [List.length_map, List.length_map] at hlength
    omega
  · intro hnul
    rw [filter_isRead hnul]

end Latex.Reader

namespace Field

open Latex (ReadingMode isReserved isVisible spellPrime)
open Latex.Reader (AreOf HasSuperscript)

variable {f : Field} {text typed : List Char} {c : Char}

/-- Characters were typed into a new field without shortcuts, and the caret is behind their atoms. -/
structure HoldsPlain (f : Field) (text : List Char) : Prop where
  shortcuts : f.shortcuts = ⟨[], true⟩
  sound : f.Sound
  mode : f.editor.mode = .math
  leaves : ∃ atoms, AreOf .math (text.filter isVisible) atoms ∧
    f.editor.OpenedAtCaret Editor.empty.root Path.root .body Editor.empty.root [] atoms
      ((atoms.length : Int) - 1)

theorem holdsPlain_new (h : Field.new ⟨[], true⟩ = .ok f) : f.HoldsPlain [] := by
  have hsound := sound_new h
  cases h
  exact ⟨rfl, hsound, rfl, [], .nil, openedAtCaret_empty⟩

theorem HoldsPlain.inText_eq (h : f.HoldsPlain text) : f.editor.inText = false := by
  obtain ⟨atoms, -, hopened⟩ := h.leaves
  rw [Editor.inText_child hopened.caret_eq]
  rfl

/-- Without shortcuts, no text completes one. -/
theorem matchEnd?_none (typed : List Char) : ShortcutTable.matchEnd? ⟨[], true⟩ typed = none := rfl

/-- What a typed character leaves before shortcuts are looked for. -/
theorem HoldsPlain.run_insert (h : f.HoldsPlain text) (hc : isReserved c = false) :
    ∃ g, f.run (.insert (String.singleton c) InsertOptions.standard) = .done g ∧
      g.HoldsPlain (text ++ [c]) := by
  obtain ⟨atoms, hatoms, hopened⟩ := h.leaves
  have hrecorded : f.record.editor.OpenedAtCaret Editor.empty.root Path.root .body Editor.empty.root []
      atoms ((atoms.length : Int) - 1) := hopened.of_eq rfl rfl
  have hmode : (if f.record.editor.inText then ReadingMode.text else .math) = .math := by
    have htext : f.record.editor.inText = false := h.inText_eq
    rw [htext]
    rfl
  have hchars : ∀ d ∈ [c], isReserved d = false := by simpa using hc
  obtain ⟨e, leaves, hinserted, hleaves, hnone, hsome⟩ :=
    hrecorded.insert_plain h.sound.record.editor hmode hchars fun hone => absurd rfl hone
  have hrun : f.run (.insert (String.singleton c) InsertOptions.standard) =
      .done (f.record.withEditor e) := by
    show (f.record.editor.insert (String.ofList [c]) _).lift _ = _
    rw [hinserted]
    rfl
  have hcarried := h.sound.run (.insert (String.singleton c) InsertOptions.standard)
  have hsound := hcarried.sound (hcarried.isWellFormed_iff.2 rfl)
  have hmath : e.mode = .math := by
    have hkept := Editor.mode_insert f.record.editor (String.ofList [c]) InsertOptions.standard
    rw [hinserted] at hkept
    exact hkept.trans h.mode
  rw [hrun, Outcome.state_done] at hsound
  have hat : e.OpenedAtCaret Editor.empty.root Path.root .body Editor.empty.root [] (atoms ++ leaves)
      (((atoms ++ leaves).length : Int) - 1) := by
    by_cases hempty : leaves = []
    · rw [hempty, List.append_nil]
      exact hnone hempty
    · have hlone : isPlaceholderOnly (atoms ++ []) = false := by
        rw [List.append_nil]
        exact isPlaceholderOnly_of_forall_isTypedLeaf (isTypedLeaf_of_areOf hatoms)
      obtain ⟨hbefore, hafter⟩ := Editor.gap_append Path.root .body hlone
      rw [List.append_nil] at hbefore hafter
      have hlast := hsome hempty
      rwa [hbefore, hafter, List.append_nil] at hlast
  refine ⟨f.record.withEditor e, hrun, h.shortcuts, hsound, hmath, atoms ++ leaves, ?_, hat⟩
  rw [List.filter_append]
  exact hatoms.append hleaves

theorem HoldsPlain.typeChar (h : f.HoldsPlain text) (hc : isReserved c = false) :
    ∃ g, f.typeChar c = .done g ∧ g.HoldsPlain (text ++ [c]) := by
  have hspecial : c ≠ '\\' ∧ c ≠ '^' ∧ c ≠ '_' := by
    refine ⟨?_, ?_, ?_⟩ <;> rintro rfl <;> cases hc
  have htext := h.inText_eq
  unfold Field.typeChar
  rw [h.mode]
  unfold Field.typeMathChar
  simp only [hspecial, if_false]
  by_cases hspace : c = ' '
  · -- A space only ends what shortcuts are looked for in.
    subst hspace
    refine ⟨f.endTyping, by simp [htext], h.shortcuts, ⟨h.sound.editor, h.sound.history⟩, h.mode, ?_⟩
    obtain ⟨atoms, hatoms, hopened⟩ := h.leaves
    have hfilter : (text ++ [' ']).filter isVisible = text.filter isVisible := by
      rw [List.filter_append]
      exact List.append_nil _
    rw [hfilter]
    exact ⟨atoms, hatoms, hopened⟩
  · obtain ⟨g, hrun, hg⟩ := h.run_insert hc
    refine ⟨{ g with typed := g.typed ++ [c] }, ?_, hg.shortcuts, ⟨hg.sound.editor, hg.sound.history⟩,
      hg.mode, hg.leaves⟩
    unfold Field.insertTyped Field.applyShortcut
    simp only [hspace, decide_false, Bool.false_and, Bool.false_eq_true, if_false, hrun,
      Outcome.done_andThen, htext, hg.shortcuts, matchEnd?_none]

theorem HoldsPlain.typeChars (h : f.HoldsPlain typed) (hc : ∀ c ∈ text, isReserved c = false) :
    ∃ g, f.typeChars text = .done g ∧ g.HoldsPlain (typed ++ text) := by
  induction text generalizing f typed with
  | nil => exact ⟨f, rfl, by rwa [List.append_nil]⟩
  | cons c text ih =>
      obtain ⟨hhead, htail⟩ := List.forall_mem_cons.1 hc
      obtain ⟨g, hfirst, hg⟩ := h.typeChar hhead
      obtain ⟨k, hrest, hk⟩ := ih hg htail
      rw [List.append_assoc] at hk
      refine ⟨k, ?_, hk⟩
      rw [Field.typeChars, hfirst, Outcome.done_andThen, hrest]

theorem HoldsPlain.areOf_atoms (h : f.HoldsPlain text) :
    AreOf .math (text.filter isVisible) f.editor.atoms := by
  obtain ⟨atoms, hatoms, hopened⟩ := h.leaves
  have hroot : f.editor.root.branch .body = some atoms := by
    have hbranch := hopened.branch? 0
    rwa [Path.branch?_child, show Path.root.atom? f.editor.root = some f.editor.root from rfl] at hbranch
  have hshown : f.editor.atoms = atoms := by
    unfold Editor.atoms Atom.body
    rw [hroot]
    rfl
  rw [hshown]
  exact hatoms

/-- Without shortcuts, typing characters that have no meaning of their own is never refused. It leaves
the atoms that their text is read as with each prime spelled as a command, exactly if NUL is not among
them. So it leaves those of the text itself exactly if neither a prime nor NUL is. -/
theorem typeChars_plain (h : Field.new ⟨[], true⟩ = .ok f) (hc : ∀ c ∈ text, isReserved c = false)
    (n : Nat) :
    ∃ g, f.typeChars text = .done g ∧
      (Atom.alikeList (Latex.parseFormula (String.ofList (text.flatMap spellPrime)) n).1.atoms
        g.editor.atoms = true ↔ '\x00' ∉ text) ∧
      (Atom.alikeList (Latex.parseFormula (String.ofList text) n).1.atoms g.editor.atoms = true ↔
        Text.Quoted.singleQuote ∉ text ∧ '\x00' ∉ text) := by
  obtain ⟨g, htyped, hg⟩ := (holdsPlain_new h).typeChars hc
  have hatoms : AreOf .math (text.filter isVisible) g.editor.atoms := hg.areOf_atoms
  refine ⟨g, htyped, ?_, ?_⟩
  · rw [Atom.alikeList_iff_map_bare]
    exact (Latex.areOf_parseFragment_spellPrime hc [] n).map_bare_eq_iff hatoms
  · rw [Atom.alikeList_iff_map_bare]
    by_cases hprime : Text.Quoted.singleQuote ∈ text
    · -- The prime that is read is in a superscript, and there is none among typed atoms.
      refine iff_of_false (fun hsame => ?_) fun hnone => hnone.1 hprime
      have hscripted := Latex.hasSuperscript_parseFragment hc hprime [] n
      exact hatoms.not_hasSuperscript (Latex.Reader.hasSuperscript_of_map_bare hsame hscripted)
    · refine Iff.trans (AreOf.map_bare_eq_iff ?_ hatoms) (and_iff_right hprime).symm
      exact Latex.areOf_parseFragment_plain hc (fun _ => hprime) [] n

theorem typeChars_plain_derivative :
    ∃ f, Field.new ⟨[], true⟩ = .ok f ∧
      (∀ c ∈ "f' = 2x".toList, isReserved c = false) ∧
      ∃ g, f.typeChars "f' = 2x".toList = .done g ∧
        (Atom.alikeList (Latex.parseFormula (String.ofList ("f' = 2x".toList.flatMap spellPrime)) 0).1.atoms
          g.editor.atoms = true ↔ '\x00' ∉ "f' = 2x".toList) ∧
        (Atom.alikeList (Latex.parseFormula (String.ofList "f' = 2x".toList) 0).1.atoms
          g.editor.atoms = true ↔
            Text.Quoted.singleQuote ∉ "f' = 2x".toList ∧ '\x00' ∉ "f' = 2x".toList) := by
  have hnew : Field.new ⟨[], true⟩ = .ok ⟨Editor.empty, History.empty History.defaultLimit,
    ⟨[], true⟩, []⟩ := rfl
  have hchars : ∀ c ∈ "f' = 2x".toList, isReserved c = false := by simp [isReserved]
  exact ⟨_, hnew, hchars, typeChars_plain hnew hchars 0⟩

/-- A typed prime is an atom of its own, and a prime that is read belongs to the atom before it. A typed
NUL is an atom of its own, too, and one that is read is dropped. -/
theorem typeChars_not_alike :
    ∃ f, Field.new ⟨[], true⟩ = .ok f ∧ ∀ text ∈ ["x'", "x\x00"],
      (∀ c ∈ text.toList, c ∉ ['\\', '^', '_', '\x7b', '\x7d', '#', '%', '&', '$']) ∧
      ∃ g, f.typeChars text.toList = .done g ∧
        Atom.alikeList (Latex.parseFormula text 0).1.atoms g.editor.atoms = false := by
  have hnew : Field.new ⟨[], true⟩ = .ok ⟨Editor.empty, History.empty History.defaultLimit,
    ⟨[], true⟩, []⟩ := rfl
  refine ⟨_, hnew, List.forall_mem_cons.2 ⟨⟨by simp, _, rfl, by decide +kernel⟩,
    List.forall_mem_singleton.2 ⟨by simp, _, rfl, by decide +kernel⟩⟩⟩

end Field

end FormulaEditor

import FormulaEditor.Proofs.Editor.Completing
import FormulaEditor.Proofs.Editor.Erasing
import FormulaEditor.Proofs.Formula.Filtering

/-!
# A command that is discarded

Whatever was spelled of a command, discarding it takes exactly its characters out, and the branch of
the caret is settled with the atoms that stood around the gap. That is the branch as it was, unless a
lone placeholder made room for the command: settling brings a plain placeholder back where one is
required, an optional branch goes together with the placeholder that it held, and any other branch is
left without atoms.
-/

namespace FormulaEditor.Editor

open Atom (withLabels)

variable {e e₀ : Editor} {root owner : Atom} {q : Path} {slot : Slot}
  {atoms content before chars suggested after : List Atom} {offset : Int}

/-- Types characters of a command one after the other. -/
def spellCommand (e : Editor) : List Char → Outcome Editor Unit
  | [] => .done e
  | c :: rest => (e.insertCommandChar c).andThen fun e => e.spellCommand rest

/-- Starts a command, spells it, and discards it. -/
def discardCommand (e : Editor) (name : List Char) : Outcome Editor Unit :=
  e.enterCommandMode.andThen fun e => (e.spellCommand name).andThen Editor.exitCommandMode

/-! ## Spelling -/

theorem TypesCommand.insertCommandChar
    (h : e.TypesCommand root q slot owner atoms before chars suggested after) (c : Char) :
    ∃ e', e.insertCommandChar c = .done e' ∧ ∃ chars',
      e'.TypesCommand root q slot owner atoms before chars' suggested after := by
  refine ⟨e.typeIntoCommand c, ?_, _, h.typeIntoCommand c⟩
  unfold Editor.insertCommandChar
  rw [h.sound.whenValid]

/-- However a command is spelled, what stands around it is the same. -/
theorem TypesCommand.spellCommand
    (h : e.TypesCommand root q slot owner atoms before chars suggested after) (name : List Char) :
    ∃ e', e.spellCommand name = .done e' ∧ ∃ chars',
      e'.TypesCommand root q slot owner atoms before chars' suggested after := by
  induction name generalizing e chars with
  | nil => exact ⟨e, rfl, chars, h⟩
  | cons c rest ih =>
      obtain ⟨e₁, hinserted, chars₁, h₁⟩ := h.insertCommandChar c
      obtain ⟨e', hspelled, hshape⟩ := ih h₁
      refine ⟨e', ?_, hshape⟩
      rw [Editor.spellCommand, hinserted, Outcome.done_andThen, hspelled]

/-! ## Discarding -/

/-- A branch that was emptied around a lone placeholder is as it was only if it is settled with that
placeholder. -/
theorem Opened.alike_settleCaret_of_isPlaceholderOnly
    (h₀ : e₀.OpenedAtCaret root q slot owner atoms atoms leadingGap)
    (h : e.Opened root q slot owner atoms []) (hlone : isPlaceholderOnly atoms = true) (at' : Int) :
    (e.settleCaret (q.child slot at') leadingGap).Alike e₀ ↔
      owner.requiresContent slot = true ∧ atoms.map Atom.bare = [Atom.placeholder 0] := by
  have hne : atoms ≠ [] := by
    rintro rfl
    cases hlone
  cases hopt : slot.isOptional with
  | true =>
      -- The branch goes with the placeholder, and its owner stands without it in its own branch.
      have hrequires : owner.requiresContent slot = false := by
        cases slot <;> simp_all [Slot.isOptional, Atom.requiresContent]
      obtain ⟨q', slot', i, owner', atoms', rfl, hi, hb, hdissolved⟩ :=
        h.openedAtCaret_dissolved hopt at' leadingGap
      refine iff_of_false (fun halike => ?_) (by simp [hrequires])
      have hroot : e₀.root = q'.fill slot' atoms' root := by
        rw [h₀.root_eq, h₀.branch.fill_self, hb.fill_self]
      have hbranches := (Path.bare_fill_iff hb).1 (hdissolved.root_eq ▸ hroot ▸ halike.root)
      have hlt := Atom.lt_length_of_getElem?_eq_some hi
      have howner := congrArg (fun atoms => atoms[i]?.bind fun a => a.branch slot) hbranches
      simp only [List.getElem?_map, List.getElem?_set_self hlt, hi, Option.map_some, Option.bind_some,
        Atom.branch_bare, Atom.branch_putBranch_self, h.branch.branch_eq, Option.map_none] at howner
      cases howner
  | false =>
      have hsettled := h.openedAtCaret_settleCaret at' (isOffset_leadingGap []) fun _ => hopt
      rw [hsettled.alike_iff h₀]
      cases hr : owner.requiresContent slot with
      | true => simp [settled, hr, Atom.bare_placeholder, eq_comm]
      | false => simp [settled, hr, hne, eq_comm]

/-- Where atoms that were typed at a stop are taken out again, the formula is as it was, with the
exceptions that a lone placeholder makes. -/
theorem Opened.alike_settleCaret_iff
    (h₀ : e₀.OpenedAtCaret root q slot owner atoms atoms offset)
    (hstop : isPlaceholderOnly atoms = true → offset = leadingGap)
    (h : e.Opened root q slot owner atoms
      (beforeGap (q.child slot offset) atoms ++ afterGap (q.child slot offset) atoms)) (at' : Int) :
    (e.settleCaret (q.child slot at')
        ((beforeGap (q.child slot offset) atoms).length - 1)).Alike e₀ ↔
      (isPlaceholderOnly atoms = true →
        owner.requiresContent slot = true ∧ atoms.map Atom.bare = [Atom.placeholder 0]) := by
  cases hlone : isPlaceholderOnly atoms with
  | true =>
      obtain ⟨hbefore, hafter⟩ := gap_of_isPlaceholderOnly (q.child slot offset) hlone
      rw [hbefore, hafter] at h
      rw [hbefore]
      rw [hstop hlone] at h₀
      exact (h.alike_settleCaret_of_isPlaceholderOnly h₀ hlone at').trans (by simp)
  | false =>
      obtain ⟨hall, hindex⟩ := gap_of_not_isPlaceholderOnly q slot hlone h₀.isOffset
      rw [hall] at h
      rw [hindex]
      obtain ⟨hkept, hkeep⟩ := settled_eq_self h₀.branch h₀.isWellFormed e.supply
      have hsettled := h.openedAtCaret_settleCaret at' h₀.isOffset hkeep
      exact iff_of_true ((hsettled.alike_iff h₀).2 ⟨by rw [hkept], rfl⟩) (by simp)

/-- A command that is started at a stop and discarded leaves math mode with the formula and the
selection from before, exactly if the caret was not before a lone placeholder, or that is a plain one
which its branch requires. -/
theorem Sound.discardCommand_alike_iff (h : e.Sound)
    (hcaret : e.selection = Selection.caret (q.child slot offset))
    (hstop : q.child slot offset ∈ e.root.caretStops)
    (hnone : ∀ a ∈ e.root.subatoms, isCommandChar a = false) (name : List Char) :
    ∃ owner atoms e', IsBranch e.root q slot owner atoms ∧ e.discardCommand name = .done e' ∧
      e'.mode = .math ∧
      (e'.Alike e ↔ (isPlaceholderOnly atoms = true →
        owner.requiresContent slot = true ∧ atoms.map Atom.bare = [Atom.placeholder 0])) := by
  obtain ⟨⟨q', slot', offset', owner, atoms, hchild, hb, ho⟩, hbehind⟩ :=
    (mem_caretStops_iff h.isWellFormed).1 hstop
  obtain ⟨rfl, rfl, rfl⟩ := Path.child_injective hchild
  have hleading : isPlaceholderOnly atoms = true → offset = leadingGap := fun hlone =>
    Decidable.byContradiction fun hne => by
      rw [(hb.isBehindLonePlaceholder_iff offset).2 ⟨hne, hlone⟩] at hbehind
      cases hbehind
  have hbare : ∀ a ∈ atoms, isCommandChar a = false := by
    have hroot : withLabels (fun l => l.kind == .command) [e.root] = [] := by
      rw [withLabels, Atom.subatomsOfList, Atom.subatomsOfList, List.append_nil,
        List.filter_eq_nil_iff]
      exact fun a ha => Bool.eq_false_iff.1 (hnone a ha)
    intro a ha
    have hlabel := Atom.withLabels_eq_nil_iff.1 (hb.withLabels_eq_nil hroot) a ha
    exact (Atom.withLabels_singleton_eq_nil_iff.1 hlabel).1
  have h₀ : e.OpenedAtCaret e.root q slot owner atoms atoms offset := ⟨h.opened hb, hcaret, ho⟩
  obtain ⟨e₁, hentered, h₁⟩ := h₀.enterCommandMode h hbare
  obtain ⟨e₂, hspelled, chars, h₂⟩ := h₁.spellCommand name
  obtain ⟨e₃, at', hopened, hremoved⟩ := h₂.removeCommand
  refine ⟨owner, atoms, e₂.removeCommand, hb, ?_, mode_removeCommand e₂, ?_⟩
  · unfold Editor.discardCommand Editor.exitCommandMode
    rw [hentered, Outcome.done_andThen, hspelled, Outcome.done_andThen, h₂.sound.whenValid]
  · rw [hremoved]
    exact hopened.alike_settleCaret_iff h₀ hleading at'

/-- A letter whose superscript holds a placeholder, and the caret before the placeholder. -/
def emptyScript : Editor :=
  let base : Atom := .node ⟨2, .ordinary, some "x", some 'x', Marks.none⟩
    { Branches.none with superscript := some [.placeholder 1] }
  (ofRoot (.node ⟨0, .root, none, none, Marks.none⟩ { Branches.none with body := some [base] })
    3).setCaret ⟨[⟨.body, 0⟩, ⟨.superscript, leadingGap⟩]⟩

theorem discardCommand_alike_iff_emptyScript :
    emptyScript.Sound ∧ emptyScript.caret ∈ emptyScript.root.caretStops ∧
    (∀ a ∈ emptyScript.root.subatoms, isCommandChar a = false) ∧
    ∃ e', emptyScript.discardCommand ['a'] = .done e' ∧ e'.mode = .math ∧ ¬e'.Alike emptyScript := by
  have hsound : emptyScript.Sound := ⟨rfl, by decide, rfl⟩
  have hstop : (Path.inRoot 0).child .superscript leadingGap ∈ emptyScript.root.caretStops := by decide
  have hnone : ∀ a ∈ emptyScript.root.subatoms, isCommandChar a = false := by decide
  obtain ⟨owner, atoms, e', hb, hdiscarded, hmode, hiff⟩ :=
    hsound.discardCommand_alike_iff rfl hstop hnone ['a']
  cases hb.atom?_eq
  cases hb.branch_eq
  refine ⟨hsound, hstop, hnone, e', hdiscarded, hmode, fun halike => ?_⟩
  cases (hiff.1 halike rfl).1

end FormulaEditor.Editor

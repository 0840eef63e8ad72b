import FormulaEditor.Proofs.Editor.StopOrder

/-!
# What an edit of one branch leaves alone

Where one branch of a formula is changed from some index on, every path that does not go into that part
of the branch leads to the same atom as before, up to what is below it, and every other branch holds
the same atoms.
-/

namespace FormulaEditor

/-- The labels of the atoms in a branch of the atom at a path. -/
def Path.labelsIn (p : Path) (slot : Slot) (root : Atom) : Option (List Label) :=
  (p.atom? root).bind fun a => (a.branch slot).map (List.map Atom.label)

/-- One formula became another one by a change of a branch of the atom at `q` from an index on. -/
structure OnlyBranchChanges (root root' : Atom) (q : Path) (slot : Slot) (first : Nat) : Prop where
  /-- A path elsewhere leads to the same atom. -/
  label_eq {p : Path} : ¬q.GoesInto slot first p →
    (p.atom? root').map Atom.label = (p.atom? root).map Atom.label
  /-- Every other branch holds the same atoms. -/
  labelsIn_eq {p : Path} {other : Slot} : ¬q.GoesInto slot first p → (p = q → other ≠ slot) →
    p.labelsIn other root' = p.labelsIn other root

namespace Atom

/-! ## The same labels -/

/-- The same label, and the same labels in all branches but those that changed. -/
structure SameLabels (changed : Slot → Prop) (a a' : Atom) : Prop where
  label_eq : a'.label = a.label
  labels_eq {slot : Slot} : ¬changed slot →
    (a'.branch slot).map (List.map label) = (a.branch slot).map (List.map label)

theorem SameLabels.refl (changed : Slot → Prop) (a : Atom) : SameLabels changed a a :=
  ⟨rfl, fun _ => rfl⟩

theorem rel_sameLabels_refl (changed : Slot → Prop) (a? : Option Atom) :
    Option.Rel (SameLabels changed) a? a? := by
  cases a? with
  | none => exact .none
  | some a => exact .some (.refl changed a)

theorem map_label_of_rel {changed : Slot → Prop} {a? b? : Option Atom}
    (h : Option.Rel (SameLabels changed) a? b?) : b?.map label = a?.map label := by
  cases h with
  | none => rfl
  | some h => exact congrArg some h.label_eq

theorem labels_of_rel {changed : Slot → Prop} {a? b? : Option Atom}
    (h : Option.Rel (SameLabels changed) a? b?) {slot : Slot} (hs : ¬changed slot) :
    (b?.bind fun b => (b.branch slot).map (List.map label)) =
      a?.bind fun a => (a.branch slot).map (List.map label) := by
  cases h with
  | none => rfl
  | some h => exact h.labels_eq hs

theorem sameLabels_putBranch (a : Atom) (slot : Slot) (content : Option (List Atom)) :
    SameLabels (· = slot) a (a.putBranch slot content) :=
  ⟨rfl, fun h => by rw [branch_putBranch_of_ne a h]⟩

/-- Putting an atom with the same label in place of another one changes no label. -/
theorem sameLabels_putBranch_set {a child child' : Atom} {slot : Slot} {atoms : List Atom} {i : Nat}
    (hb : a.branch slot = some atoms) (hi : atoms[i]? = some child)
    (hl : child'.label = child.label) (changed : Slot → Prop) :
    SameLabels changed a (a.putBranch slot (some (atoms.set i child'))) := by
  refine ⟨rfl, fun {other} _ => ?_⟩
  by_cases ho : other = slot
  · subst ho
    have hlt := lt_length_of_getElem?_eq_some hi
    have hsame : (atoms.set i child').map label = atoms.map label := by
      refine List.ext_getElem? fun j => ?_
      rw [List.map_set, List.getElem?_set, List.getElem?_map]
      split
      · rename_i hij
        rw [← hij, hi, List.length_map, if_pos hlt, hl]
        rfl
      · rfl
    rw [branch_putBranch_self, hb, Option.map_some, hsame, Option.map_some]
  · rw [branch_putBranch_of_ne a ho]

/-! ## Descending elsewhere -/

/-- Descending into another branch, or to an atom before the change, finds the same. -/
theorem descend?_putBranch {a : Atom} {slot : Slot} {content : Option (List Atom)} {first : Nat}
    (htake : (content.getD []).take first = ((a.branch slot).getD []).take first) {s : Step}
    (hs : s.slot = slot → s.offset < first) (rest : List Step) :
    (a.putBranch slot content).descend? (s :: rest) = a.descend? (s :: rest) := by
  have hget (b : Option (List Atom)) (i : Nat) :
      (b.bind fun atoms => atoms[i]?) = (b.getD [])[i]? := by
    cases b <;> rfl
  by_cases ho : s.slot = slot
  · subst ho
    simp only [descend?, branch_putBranch_self, Option.bind_eq_bind]
    cases hi : s.index? with
    | none => cases content <;> cases a.branch s.slot <;> rfl
    | some i =>
        have hlt : i < first := by
          have hoffset := hs rfl
          unfold Step.index? at hi
          split at hi <;> cases hi
          omega
        have hsame := congrArg (·[i]?) htake
        simp only [List.getElem?_take, hlt, if_true] at hsame
        simp only [Option.bind_some]
        rw [← Option.bind_assoc, hget content i, hsame, ← hget, Option.bind_assoc]
  · simp only [descend?, branch_putBranch_of_ne a ho]

/-- A descent that does not go into the changed part of the branch leads to the same atom. -/
theorem descend?_modifyAt?_elsewhere {a a' owner : Atom} {steps : List Step} {slot : Slot}
    {content : Option (List Atom)} {first : Nat} (hd : a.descend? steps = some owner)
    (hm : a.modifyAt? (fun b => b.putBranch slot content) steps = some a')
    (htake : (content.getD []).take first = ((owner.branch slot).getD []).take first)
    (other : List Step) (ho : ∀ i rest, other = steps ++ ⟨slot, i⟩ :: rest → i < (first : Int)) :
    Option.Rel (SameLabels fun changed => other = steps ∧ changed = slot) (a.descend? other)
      (a'.descend? other) := by
  induction steps generalizing a a' other with
  | nil =>
      cases hd
      cases hm
      cases other with
      | nil =>
          exact .some ⟨rfl, fun h => (sameLabels_putBranch owner slot content).labels_eq
            fun heq => h ⟨rfl, heq⟩⟩
      | cons s rest =>
          rw [descend?_putBranch htake fun heq => ho s.offset rest (by rw [← heq]; rfl)]
          exact rel_sameLabels_refl _ _
  | cons s steps ih =>
      obtain ⟨atoms, i, child, hb, hi, hc, hbelow⟩ := descend?_cons_eq_some hd
      rw [modifyAt?_cons hb hi hc] at hm
      obtain ⟨child', hchild, rfl⟩ := Option.map_eq_some_iff.1 hm
      have hlt := lt_length_of_getElem?_eq_some hc
      cases other with
      | nil =>
          have hself : Option.Rel (SameLabels fun changed => [] = steps ∧ changed = slot) (some child)
              (some child') := ih hbelow hchild [] fun i rest h => by simp at h
          cases hself with
          | some h => exact .some (sameLabels_putBranch_set hb hc h.label_eq _)
      | cons t rest =>
          by_cases hst : t = s
          · subst hst
            have hrest := ih hbelow hchild rest fun j more h =>
              ho j more (by rw [h, List.cons_append])
            simpa [descend?, hb, hi, hc, List.getElem?_set_self hlt] using hrest
          · rw [descend?_putBranch_set hb hi hst]
            exact rel_sameLabels_refl _ _

end Atom

/-! ## Anywhere in a formula -/

/-- A branch that was changed from an index on is the only one that changed. -/
theorem onlyBranchChanges_modifyAtom {root owner : Atom} {q : Path} {slot : Slot}
    (hq : q.atom? root = some owner) {content : Option (List Atom)} {first : Nat}
    (htake : (content.getD []).take first = ((owner.branch slot).getD []).take first) :
    OnlyBranchChanges root (q.modifyAtom (fun a => a.putBranch slot content) root) q slot first := by
  have hrel {p : Path} (hp : ¬q.GoesInto slot first p) := Atom.descend?_modifyAt?_elsewhere hq
    (Path.modifyAtom?_eq_some hq fun a => a.putBranch slot content) htake p.steps
    fun i rest h => Int.not_le.1 fun hle => hp ⟨i, rest, h, hle⟩
  refine ⟨fun {p} hp => Atom.map_label_of_rel (hrel hp), fun {p other} hp hother => ?_⟩
  refine Atom.labels_of_rel (hrel hp) fun ⟨hsteps, hslot⟩ => hother ?_ hslot
  cases p
  cases q
  exact congrArg Path.mk hsteps

end FormulaEditor

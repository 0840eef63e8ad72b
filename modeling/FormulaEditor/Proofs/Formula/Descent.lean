import FormulaEditor.Formula.Path
import FormulaEditor.Proofs.Formula.Edits

/-!
# Following steps and changing what they lead to

Two descents agree: changing the atom that steps lead to succeeds exactly where following them does,
and what is read back afterwards is the changed atom. Well-formedness is kept by a change that keeps
the kind of the atom and leaves it well formed.
-/

namespace FormulaEditor.Atom

theorem descend?_append (a : Atom) (steps rest : List Step) :
    a.descend? (steps ++ rest) = (a.descend? steps).bind fun b => b.descend? rest := by
  induction steps generalizing a with
  | nil => rfl
  | cons s steps ih =>
      simp only [List.cons_append, descend?, ih, Option.bind_eq_bind, Option.bind_assoc]

/-- The three things that one step of a descent finds. -/
theorem descend?_cons_eq_some {a b : Atom} {s : Step} {rest : List Step}
    (h : a.descend? (s :: rest) = some b) :
    ∃ atoms i child, a.branch s.slot = some atoms ∧ s.index? = some i ∧ atoms[i]? = some child ∧
      child.descend? rest = some b := by
  simp only [descend?, Option.bind_eq_bind, Option.bind_eq_some_iff] at h
  obtain ⟨atoms, hb, i, hi, child, hc, hd⟩ := h
  exact ⟨atoms, i, child, hb, hi, hc, hd⟩

theorem modifyAt?_cons {a child : Atom} {s : Step} {atoms : List Atom} {i : Nat}
    (hb : a.branch s.slot = some atoms) (hi : s.index? = some i) (hc : atoms[i]? = some child)
    (f : Atom → Atom) (rest : List Step) :
    a.modifyAt? f (s :: rest) =
      (child.modifyAt? f rest).map fun c => a.putBranch s.slot (some (atoms.set i c)) := by
  rw [modifyAt?, hb, hi]
  simp only [Option.bind_eq_bind, Option.bind_some, hc]
  cases child.modifyAt? f rest <;> rfl

theorem modifyAt?_eq_none {a : Atom} {steps : List Step} (h : a.descend? steps = none)
    (f : Atom → Atom) : a.modifyAt? f steps = none := by
  induction steps generalizing a with
  | nil => cases h
  | cons s rest ih =>
      rw [modifyAt?]
      cases hb : a.branch s.slot with
      | none => rfl
      | some atoms =>
          cases hi : s.index? with
          | none => rfl
          | some i =>
              cases hc : atoms[i]? with
              | none => simp [hc]
              | some child =>
                  have hd : child.descend? rest = none := by simpa [descend?, hb, hi, hc] using h
                  simp [hc, ih hd]

theorem modifyAt?_isSome {a b : Atom} {steps : List Step} (h : a.descend? steps = some b)
    (f : Atom → Atom) : (a.modifyAt? f steps).isSome = true := by
  induction steps generalizing a with
  | nil => rfl
  | cons s rest ih =>
      obtain ⟨atoms, i, child, hb, hi, hc, hd⟩ := descend?_cons_eq_some h
      rw [modifyAt?_cons hb hi hc, Option.isSome_map]
      exact ih hd

theorem lt_length_of_getElem?_eq_some {α : Type} {xs : List α} {i : Nat} {x : α}
    (h : xs[i]? = some x) : i < xs.length :=
  (List.getElem?_eq_some_iff.1 h).1

/-- What was changed is read back. -/
theorem descend?_modifyAt? {a b a' : Atom} {steps : List Step} {f : Atom → Atom}
    (h : a.descend? steps = some b) (hm : a.modifyAt? f steps = some a') :
    a'.descend? steps = some (f b) := by
  induction steps generalizing a a' with
  | nil =>
      cases h
      cases hm
      rfl
  | cons s rest ih =>
      obtain ⟨atoms, i, child, hb, hi, hc, hd⟩ := descend?_cons_eq_some h
      rw [modifyAt?_cons hb hi hc] at hm
      obtain ⟨c, hcm, rfl⟩ := Option.map_eq_some_iff.1 hm
      simp [descend?, hi, List.getElem?_set_self (lt_length_of_getElem?_eq_some hc), ih hd hcm]

theorem modifyAt?_append {a b : Atom} {steps : List Step} (h : a.descend? steps = some b)
    (f : Atom → Atom) (rest : List Step) {b' : Atom} (hb : b.modifyAt? f rest = some b') :
    a.modifyAt? f (steps ++ rest) = a.modifyAt? (fun _ => b') steps := by
  induction steps generalizing a with
  | nil =>
      cases h
      exact hb
  | cons s steps ih =>
      obtain ⟨atoms, i, child, hbr, hi, hc, hd⟩ := descend?_cons_eq_some h
      rw [List.cons_append, modifyAt?_cons hbr hi hc, modifyAt?_cons hbr hi hc, ih hd]

/-- Only the value at the atom that is reached matters. -/
theorem modifyAt?_congr {a b : Atom} {steps : List Step} {f g : Atom → Atom}
    (h : a.descend? steps = some b) (hfg : f b = g b) : a.modifyAt? f steps = a.modifyAt? g steps := by
  induction steps generalizing a with
  | nil =>
      cases h
      simp [modifyAt?, hfg]
  | cons s rest ih =>
      obtain ⟨atoms, i, child, hb, hi, hc, hd⟩ := descend?_cons_eq_some h
      rw [modifyAt?_cons hb hi hc, modifyAt?_cons hb hi hc, ih hd]

theorem modifyAt?_modifyAt? {a b a' : Atom} {steps : List Step} {f g : Atom → Atom}
    (h : a.descend? steps = some b) (hm : a.modifyAt? f steps = some a') :
    a'.modifyAt? g steps = a.modifyAt? (fun c => g (f c)) steps := by
  induction steps generalizing a a' with
  | nil =>
      cases hm
      rfl
  | cons s rest ih =>
      obtain ⟨atoms, i, child, hb, hi, hc, hd⟩ := descend?_cons_eq_some h
      rw [modifyAt?_cons hb hi hc] at hm
      obtain ⟨c, hcm, rfl⟩ := Option.map_eq_some_iff.1 hm
      have hlt := lt_length_of_getElem?_eq_some hc
      rw [modifyAt?_cons (branch_putBranch_self _ _ _) hi (List.getElem?_set_self hlt),
        modifyAt?_cons hb hi hc, ih hd hcm]
      simp

/-- A change that changes nothing at the atom it reaches changes nothing. -/
theorem modifyAt?_eq_self {a b : Atom} {steps : List Step} {f : Atom → Atom}
    (h : a.descend? steps = some b) (hf : f b = b) : a.modifyAt? f steps = some a := by
  induction steps generalizing a with
  | nil =>
      cases h
      simp [modifyAt?, hf]
  | cons s rest ih =>
      obtain ⟨atoms, i, child, hb, hi, hc, hd⟩ := descend?_cons_eq_some h
      obtain ⟨hlt, hget⟩ := List.getElem?_eq_some_iff.1 hc
      rw [modifyAt?_cons hb hi hc, ih hd, Option.map_some, ← hget, List.set_getElem_self, ← hb,
        putBranch_branch]

/-! ## What a change leaves alone -/

/-- Two steps into one branch that lead to the same atom are the same. -/
theorem step_eq_of_index?_eq {s t : Step} {i : Nat} (hslot : t.slot = s.slot)
    (hs : s.index? = some i) (ht : t.index? = some i) : t = s := by
  unfold Step.index? at hs ht
  split at hs <;> cases hs
  split at ht
  · have hoffset := Option.some.inj ht
    have heq : t.offset = s.offset := by omega
    show Step.mk t.slot t.offset = Step.mk s.slot s.offset
    rw [hslot, heq]
  · cases ht

/-- Another step does not lead to the atom that was replaced. -/
theorem descend?_putBranch_set {a : Atom} {s t : Step} {atoms : List Atom} {i : Nat}
    (hb : a.branch s.slot = some atoms) (hi : s.index? = some i) (hne : t ≠ s) (c : Atom)
    (rest : List Step) :
    (a.putBranch s.slot (some (atoms.set i c))).descend? (t :: rest) = a.descend? (t :: rest) := by
  by_cases hslot : t.slot = s.slot
  · simp only [descend?, hslot, branch_putBranch_self, hb, Option.bind_eq_bind, Option.bind_some]
    cases hj : t.index? with
    | none => rfl
    | some j =>
        have hij : i ≠ j := by
          rintro rfl
          exact hne (step_eq_of_index?_eq hslot hi hj)
        rw [Option.bind_some, Option.bind_some, List.getElem?_set_ne hij]
  · simp only [descend?, branch_putBranch_of_ne a hslot]

/-- What a change of the atom below one step does to the branch of that step. -/
theorem modifyAt?_cons_eq_some {a a' : Atom} {f : Atom → Atom} {s : Step} {rest : List Step}
    (h : a.modifyAt? f (s :: rest) = some a') :
    ∃ atoms i child child', a.branch s.slot = some atoms ∧ s.index? = some i ∧
      atoms[i]? = some child ∧ child.modifyAt? f rest = some child' ∧
      a' = a.putBranch s.slot (some (atoms.set i child')) := by
  simp only [modifyAt?, Option.bind_eq_bind, Option.bind_eq_some_iff, Option.pure_def,
    Option.some.injEq] at h
  obtain ⟨atoms, hb, i, hi, child, hc, child', hm, rfl⟩ := h
  exact ⟨atoms, i, child, child', hb, hi, hc, hm, rfl⟩

theorem modifyAt?_isSome_eq (a : Atom) (f : Atom → Atom) (steps : List Step) :
    (a.modifyAt? f steps).isSome = (a.descend? steps).isSome := by
  cases h : a.descend? steps with
  | none => rw [modifyAt?_eq_none h f]
  | some b => exact modifyAt?_isSome h f

/-- Steps that neither go through the changed atom nor end above it lead to the same atom. -/
theorem descend?_modifyAt?_of_not_prefix {a a' : Atom} {f : Atom → Atom} {steps other : List Step}
    (hm : a.modifyAt? f steps = some a') (hthrough : ¬steps <+: other) (habove : ¬other <+: steps) :
    a'.descend? other = a.descend? other := by
  induction steps generalizing a a' other with
  | nil => exact absurd List.nil_prefix hthrough
  | cons s steps ih =>
      cases other with
      | nil => exact absurd List.nil_prefix habove
      | cons t other =>
          obtain ⟨atoms, i, child, child', hb, hi, hc, hchild, rfl⟩ := modifyAt?_cons_eq_some hm
          by_cases hst : t = s
          · subst hst
            have hbelow : child'.descend? other = child.descend? other := by
              apply ih hchild
              · intro h
                exact hthrough (List.cons_prefix_cons.2 ⟨rfl, h⟩)
              · intro h
                exact habove (List.cons_prefix_cons.2 ⟨rfl, h⟩)
            have hlt := lt_length_of_getElem?_eq_some hc
            simp [descend?, hb, hi, hc, List.getElem?_set_self hlt, hbelow]
          · exact descend?_putBranch_set hb hi hst child' other

/-- Steps that end above the changed atom lead to the atom with the change below it. -/
theorem descend?_modifyAt?_above {a a' : Atom} {f : Atom → Atom} {above rest : List Step}
    (hm : a.modifyAt? f (above ++ rest) = some a') :
    a'.descend? above = (a.descend? above).bind fun b => b.modifyAt? f rest := by
  induction above generalizing a a' with
  | nil => simpa [descend?] using hm.symm
  | cons s above ih =>
      obtain ⟨atoms, i, child, child', hb, hi, hc, hchild, rfl⟩ := modifyAt?_cons_eq_some hm
      have hlt := lt_length_of_getElem?_eq_some hc
      simp [descend?, hb, hi, hc, List.getElem?_set_self hlt, ih hchild]

/-- Above the changed atom, a branch that does not hold it is the same. -/
theorem branch_descend?_modifyAt?_above {a a' : Atom} {f : Atom → Atom} {above rest : List Step}
    {s : Step} {slot : Slot} (hm : a.modifyAt? f (above ++ s :: rest) = some a')
    (hne : slot ≠ s.slot) :
    ((a'.descend? above).bind fun b => b.branch slot) =
      (a.descend? above).bind fun b => b.branch slot := by
  induction above generalizing a a' with
  | nil =>
      obtain ⟨atoms, i, child, child', -, -, -, -, rfl⟩ := modifyAt?_cons_eq_some hm
      exact branch_putBranch_of_ne a hne _
  | cons t above ih =>
      obtain ⟨atoms, i, child, child', hb, hi, hc, hchild, rfl⟩ := modifyAt?_cons_eq_some hm
      have hlt := lt_length_of_getElem?_eq_some hc
      simp only [descend?, branch_putBranch_self, hb, hi, hc, List.getElem?_set_self hlt,
        Option.bind_eq_bind, Option.bind_some, ih hchild]

/-! ## Properties that are passed down -/

/-- What an atom passes on to the atoms in its branches is passed on to what steps lead to. -/
theorem of_descend? {P : Atom → Prop}
    (hP : ∀ {a : Atom} {slot : Slot} {atoms : List Atom}, P a → a.branch slot = some atoms →
      ∀ b ∈ atoms, P b)
    {a b : Atom} {steps : List Step} (h : P a) (hd : a.descend? steps = some b) : P b := by
  induction steps generalizing a with
  | nil =>
      cases hd
      exact h
  | cons s rest ih =>
      obtain ⟨atoms, i, child, hb, -, hc, hd⟩ := descend?_cons_eq_some hd
      exact ih (hP h hb child (List.mem_of_getElem? hc)) hd

/-- If an atom of a branch may also be replaced by one of its kind, a change that keeps the kind of
an atom and gives it the property keeps it for all atoms on the way. -/
theorem of_modifyAt? {P : Atom → Prop}
    (hP : ∀ {a : Atom} {slot : Slot} {atoms : List Atom}, P a → a.branch slot = some atoms →
      ∀ b ∈ atoms, P b)
    (hset : ∀ {a child c : Atom} {slot : Slot} {atoms : List Atom} {i : Nat}, P a →
      a.branch slot = some atoms → atoms[i]? = some child → c.kind = child.kind → P c →
        P (a.putBranch slot (some (atoms.set i c))))
    {a b a' : Atom} {steps : List Step} {f : Atom → Atom} (h : P a)
    (hd : a.descend? steps = some b) (hk : (f b).kind = b.kind) (hf : P (f b))
    (hm : a.modifyAt? f steps = some a') : P a' ∧ a'.kind = a.kind := by
  induction steps generalizing a a' with
  | nil =>
      cases hd
      cases hm
      exact ⟨hf, hk⟩
  | cons s rest ih =>
      obtain ⟨atoms, i, child, hb, hi, hc, hd⟩ := descend?_cons_eq_some hd
      rw [modifyAt?_cons hb hi hc] at hm
      obtain ⟨c, hcm, rfl⟩ := Option.map_eq_some_iff.1 hm
      obtain ⟨hchild, hkind⟩ := ih (hP h hb child (List.mem_of_getElem? hc)) hd hcm
      exact ⟨hset h hb hc hkind hchild, rfl⟩

/-! ## Well-formedness -/

theorem isWellFormed_descend? {a b : Atom} {steps : List Step} (h : a.isWellFormed = true)
    (hd : a.descend? steps = some b) : b.isWellFormed = true :=
  of_descend? (P := fun a => a.isWellFormed = true)
    (fun h hb => (branchWellFormed h hb).wellFormed) h hd

/-- An atom of a branch may be replaced by one of its kind. -/
theorem BranchWellFormed.set {k : Kind} {slot : Slot} {atoms : List Atom}
    (h : BranchWellFormed k slot atoms) {i : Nat} {child c : Atom} (hc : atoms[i]? = some child)
    (hk : c.kind = child.kind) (hw : c.isWellFormed = true) :
    BranchWellFormed k slot (atoms.set i c) := by
  have hmem := List.mem_of_getElem? hc
  refine ⟨h.allowed, fun hf => by simpa using h.filled hf, fun b hb => ?_, fun b hb => ?_⟩
  · rcases List.mem_or_eq_of_mem_set hb with hb | rfl
    · exact h.admitted b hb
    · exact hk ▸ h.admitted child hmem
  · rcases List.mem_or_eq_of_mem_set hb with hb | rfl
    · exact h.wellFormed b hb
    · exact hw

theorem isWellFormed_modifyAt? {a b a' : Atom} {steps : List Step} {f : Atom → Atom}
    (h : a.isWellFormed = true) (hd : a.descend? steps = some b) (hk : (f b).kind = b.kind)
    (hw : (f b).isWellFormed = true) (hm : a.modifyAt? f steps = some a') :
    a'.isWellFormed = true ∧ a'.kind = a.kind :=
  of_modifyAt? (P := fun a => a.isWellFormed = true)
    (fun h hb => (branchWellFormed h hb).wellFormed)
    (fun h hb hc hk hw => isWellFormed_putBranch h ((branchWellFormed h hb).set hc hk hw))
    h hd hk hw hm

end FormulaEditor.Atom

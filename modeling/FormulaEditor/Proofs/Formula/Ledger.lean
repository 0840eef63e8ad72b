import FormulaEditor.Proofs.Formula.Alike
import FormulaEditor.Proofs.Formula.Weight

/-!
# A ledger of identities

Every new atom takes its identity from the supply. If identities have weights, then what is made
outweighs what it was made from by just the weight of the identities that the supply gave out.
Marked errors may have a weight of their own, which is not taken from the supply.
-/

namespace FormulaEditor

/-- Weights for identities, and for the mark of an error. -/
structure Scale where
  identity : Nat → Nat
  error : Nat

namespace Scale

open Atom

/-- The weight of a label. -/
def label (c : Scale) (l : Label) : Nat :=
  c.identity l.id + if l.marks.error then c.error else 0

/-- The weight of all identities that a supply has given out. -/
def given (c : Scale) (supply : Nat) : Nat :=
  ((List.range supply).map c.identity).sum

variable (c : Scale)

theorem given_succ (n : Nat) : c.given (n + 1) = c.given n + c.identity n := by
  simp [given, List.range_succ]

theorem given_mono {n n' : Nat} (h : n ≤ n') : c.given n ≤ c.given n' := by
  induction h with
  | refl => exact Nat.le_refl _
  | step _ ih =>
      rw [given_succ]
      omega

/-- Identities without weight add none. -/
theorem given_eq {n n' : Nat} (h : n ≤ n') (hz : ∀ k, n ≤ k → c.identity k = 0) :
    c.given n' = c.given n := by
  induction h with
  | refl => rfl
  | @step m hm ih => rw [given_succ, ih, hz m hm, Nat.add_zero]

/-- Something of weight `x` was made into something of weight `y`, while the supply went from `n` to
`n'`: the difference is the weight of the identities that were given out. -/
structure Makes (x n y n' : Nat) : Prop where
  le : n ≤ n'
  weight : y + c.given n = x + c.given n'

variable {c} {x y z n n' n'' : Nat}

theorem Makes.refl : c.Makes x n x n :=
  ⟨Nat.le_refl n, rfl⟩

theorem Makes.trans (h : c.Makes x n y n') (h' : c.Makes y n' z n'') : c.Makes x n z n'' := by
  have hw := h.weight
  have hw' := h'.weight
  exact ⟨Nat.le_trans h.le h'.le, by omega⟩

/-- Two things that are made one after the other. -/
theorem Makes.both {x' y' : Nat} (h : c.Makes x n y n') (h' : c.Makes x' n' y' n'') :
    c.Makes (x + x') n (y + y') n'' := by
  have hw := h.weight
  have hw' := h'.weight
  exact ⟨Nat.le_trans h.le h'.le, by omega⟩

/-! ## New atoms -/

/-- The weight of an atom whose label has no mark. -/
theorem weight_node (c : Scale) (n : Nat) (kind : Kind) (value : Option String)
    (glyph : Option Char) (branches : Branches Atom) :
    weight c.label [.node ⟨n, kind, value, glyph, Marks.none⟩ branches] =
      c.identity n + weight c.label branches.toList := by
  rw [weight_singleton]
  simp [label, Marks.none, children]

theorem weight_placeholder (c : Scale) (n : Nat) :
    weight c.label [placeholder n] = c.identity n :=
  weight_node c n .placeholder none none Branches.none

/-- Other marks have the same weight, where marks have none. -/
theorem weight_mapMarks {c : Scale} (hc : c.error = 0) (f : Marks → Marks) (a : Atom) :
    weight c.label [a.mapMarks f] = weight c.label [a] := by
  have h := weight_mapLabel c.label (fun l => { l with marks := f l.marks }) a
  have hlabel : c.label { a.label with marks := f a.label.marks } = c.label a.label := by
    simp [label, hc]
  rw [hlabel] at h
  rw [mapMarks]
  omega

/-- An atom with a new identity is made from its branches. -/
theorem makes_node (c : Scale) (kind : Kind) (value : Option String) (glyph : Option Char)
    (branches : Branches Atom) (n : Nat) :
    c.Makes (weight c.label branches.toList) n
      (weight c.label [.node ⟨n, kind, value, glyph, Marks.none⟩ branches]) (n + 1) := by
  refine ⟨Nat.le_succ n, ?_⟩
  rw [weight_node, given_succ]
  omega

theorem makes_newLeaf (c : Scale) (kind : Kind) (value : Option String) (glyph : Option Char)
    (n : Nat) : c.Makes 0 n (weight c.label [leaf n kind value glyph]) (n + 1) :=
  makes_node c kind value glyph Branches.none n

theorem makes_filled (c : Scale) (atoms : List Atom) (n : Nat) :
    c.Makes (weight c.label atoms) n (weight c.label (filled atoms n).1) (filled atoms n).2 := by
  by_cases h : atoms = []
  · rw [h]
    exact makes_newLeaf c .placeholder none none n
  · rw [filled_of_ne_nil h]
    exact Makes.refl

theorem makes_newFraction (c : Scale) (value : String) (num den : List Atom) (n : Nat) :
    c.Makes (weight c.label num + weight c.label den) n
      (weight c.label [(newFraction value num den n).1]) (newFraction value num den n).2 := by
  have hnum := makes_filled c num n
  have hden := makes_filled c den (filled num n).2
  have hnode := makes_node c .fraction (some value) none
    { Branches.none with
      numerator := some (filled num n).1, denominator := some (filled den (filled num n).2).1 }
    (filled den (filled num n).2).2
  have hlist : weight c.label (Branches.toList { Branches.none with
      numerator := some (filled num n).1, denominator := some (filled den (filled num n).2).1 }) =
      weight c.label (filled num n).1 + weight c.label (filled den (filled num n).2).1 := by
    simp [Branches.toList, Slot.all, Branches.get, Branches.none, weight_append]
  rw [hlist] at hnode
  exact (hnum.both hden).trans hnode

/-- An empty index is left out, which weighs nothing. -/
theorem weight_nonemptyIndex (w : Label → Nat) (index : Option (List Atom)) :
    weight w ((nonemptyIndex index).getD []) = weight w (index.getD []) := by
  cases index with
  | none => rfl
  | some atoms => cases atoms <;> rfl

theorem makes_newRadical (c : Scale) (radicand : List Atom) (index : Option (List Atom))
    (n : Nat) :
    c.Makes (weight c.label radicand + weight c.label (index.getD [])) n
      (weight c.label [(newRadical radicand index n).1]) (newRadical radicand index n).2 := by
  have hradicand := makes_filled c radicand n
  have hnode := makes_node c .radical (some radicalCommand) none
    { Branches.none with index := nonemptyIndex index, radicand := some (filled radicand n).1 }
    (filled radicand n).2
  have hlist : weight c.label (Branches.toList { Branches.none with
      index := nonemptyIndex index, radicand := some (filled radicand n).1 }) =
      weight c.label (filled radicand n).1 + weight c.label (index.getD []) := by
    rw [← weight_nonemptyIndex c.label index]
    simp [Branches.toList, Slot.all, Branches.get, Branches.none, weight_append, Nat.add_comm]
  rw [hlist] at hnode
  exact (hradicand.both Makes.refl).trans hnode

theorem makes_newWrapper (c : Scale) {kind : Kind} (hs : kind.shape = .sequence)
    (value : Option String) (atoms : List Atom) (n : Nat) :
    c.Makes (weight c.label atoms) n (weight c.label [(newWrapper kind value atoms n).1])
      (newWrapper kind value atoms n).2 := by
  have hbody : c.Makes (weight c.label atoms) n (weight c.label (wrapperBody kind atoms n).1)
      (wrapperBody kind atoms n).2 := by
    unfold wrapperBody
    split
    · exact makes_filled c atoms n
    · exact Makes.refl
  have hsupply : (newWrapper kind value atoms n).2 = (wrapperBody kind atoms n).2 + 1 := by
    cases kind <;> first | rfl | cases hs
  have hnode := makes_node c kind value none
    { Branches.none with body := some (wrapperBody kind atoms n).1 } (wrapperBody kind atoms n).2
  have hlist : weight c.label
      (Branches.toList { Branches.none with body := some (wrapperBody kind atoms n).1 }) =
      weight c.label (wrapperBody kind atoms n).1 := by
    simp [Branches.toList, Slot.all, Branches.get, Branches.none]
  rw [hlist] at hnode
  rw [newWrapper_apply hs, hsupply]
  exact hbody.trans hnode

/-- Atoms that are made one after the other, each from its own part. -/
theorem makes_mapM {α : Type} {f : α → Minting Atom} {g : α → Nat}
    (h : ∀ part n, c.Makes (g part) n (weight c.label [(f part n).1]) (f part n).2)
    (parts : List α) (n : Nat) :
    c.Makes (parts.map g).sum n (weight c.label (parts.mapM f n).1) (parts.mapM f n).2 := by
  induction parts generalizing n with
  | nil => exact Makes.refl
  | cons part rest ih =>
      rw [Minting.mapM_cons_apply, List.map_cons, List.sum_cons, weight_cons]
      exact (h part n).both (ih (f part n).2)

/-! ## Copies -/

mutual

/-- A copy is made from the supply alone, where marks have no weight. -/
theorem makes_relabel (hc : c.error = 0) : (a : Atom) → (n : Nat) →
    c.Makes 0 n (weight c.label [(relabel a n).1]) (relabel a n).2
  | .node l ⟨body, sup, sub, numerator, denominator, index, radicand⟩, n => by
      have h₁ := makes_relabelBranch hc body (n + 1)
      have h₂ := h₁.both (makes_relabelBranch hc sup _)
      have h₃ := h₂.both (makes_relabelBranch hc sub _)
      have h₄ := h₃.both (makes_relabelBranch hc numerator _)
      have h₅ := h₄.both (makes_relabelBranch hc denominator _)
      have h₆ := h₅.both (makes_relabelBranch hc index _)
      have h₇ := h₆.both (makes_relabelBranch hc radicand _)
      have htop : c.Makes 0 n (c.label { l with id := n }) (n + 1) := by
        refine ⟨Nat.le_succ n, ?_⟩
        rw [given_succ, label, hc]
        simp only [ite_self]
        omega
      have hall := htop.both h₇
      simp only [weight_singleton, weight_children, Slot.all, List.map_cons, List.map_nil,
        List.sum_cons, List.sum_nil, relabel, Minting.bind_apply, Minting.pure_apply,
        newIdentity_apply, label_node, branch, branches_node, Branches.get, Nat.add_zero]
      simpa only [Nat.add_zero, Nat.add_assoc] using hall

theorem makes_relabelBranch (hc : c.error = 0) : (b : Option (List Atom)) → (n : Nat) →
    c.Makes 0 n (weight c.label ((relabelBranch b n).1.getD [])) (relabelBranch b n).2
  | none, _ => Makes.refl
  | some atoms, n => makes_relabelList hc atoms n

theorem makes_relabelList (hc : c.error = 0) : (atoms : List Atom) → (n : Nat) →
    c.Makes 0 n (weight c.label (relabelList atoms n).1) (relabelList atoms n).2
  | [], _ => Makes.refl
  | a :: rest, n => by
      have hfirst := makes_relabel hc a n
      have hrest := makes_relabelList hc rest (relabel a n).2
      simp only [relabelList, Minting.bind_apply, Minting.pure_apply]
      rw [weight_cons]
      exact hfirst.both hrest

end

/-! ## Counting an identity -/

/-- Only one identity has a weight. -/
def only (i : Nat) : Scale :=
  ⟨fun k => if k = i then 1 else 0, 0⟩

theorem given_only (i n : Nat) : (only i).given n = if i < n then 1 else 0 := by
  induction n with
  | zero => rfl
  | succ n ih =>
      rw [given_succ, ih]
      by_cases hlt : i < n
      · have hne : n ≠ i := by omega
        simp [only, hlt, hne, Nat.lt_succ_of_lt hlt]
      · by_cases heq : n = i
        · simp [only, heq]
        · have hge : ¬i < n + 1 := by omega
          simp [only, hlt, heq, hge]

end Scale

namespace Atom

/-- The identities of a sequence of atoms and everything below it, in document order. -/
def identitiesOf (atoms : List Atom) : List Nat :=
  (subatomsOfList atoms).map id

theorem identitiesOf_singleton (a : Atom) : identitiesOf [a] = a.identities := by
  simp [identitiesOf, identities, subatomsOfList]

theorem identitiesOf_flatten (contents : List (List Atom)) :
    identitiesOf contents.flatten = (contents.map identitiesOf).flatten := by
  induction contents with
  | nil => rfl
  | cons content rest ih =>
      rw [List.flatten_cons, List.map_cons, List.flatten_cons, ← ih, identitiesOf,
        subatomsOfList_append, List.map_append]
      rfl

/-- The weight of a formula is the number of times that the only identity with a weight occurs. -/
theorem weight_only (i : Nat) (atoms : List Atom) :
    weight (Scale.only i).label atoms = (identitiesOf atoms).count i := by
  rw [weight, identitiesOf]
  induction subatomsOfList atoms with
  | nil => rfl
  | cons a rest ih =>
      rw [List.map_cons, List.sum_cons, ih, List.map_cons, List.count_cons, Nat.add_comm]
      simp [Scale.only, Scale.label, id]

end Atom

end FormulaEditor

import Mathlib.Algebra.Ring.Nat
import Mathlib.Tactic.SplitIfs
import FormulaEditor.Formula.Splice
import FormulaEditor.Proofs.Formula.Location

/-!
# The weight of a formula

Where every atom counts for something, the total of a formula is the sum over all its atoms. Edits
move atoms about, and the total of what an edit leaves is settled by the totals of what it takes away
and puts in, if what an atom counts for does not depend on what its branches hold.

Where every label has a weight, the weight of a formula is such a total. With labels that weigh one
if they carry some identity and nothing otherwise, the weight is the number of times that the
identity occurs.
-/

namespace FormulaEditor.Atom

/-- The sum over all atoms in a sequence and below it. -/
def total (t : Atom → Nat) (atoms : List Atom) : Nat :=
  ((subatomsOfList atoms).map t).sum

/-- The sum of the weights of all labels in a sequence of atoms and below it. -/
def weight (w : Label → Nat) (atoms : List Atom) : Nat :=
  ((subatomsOfList atoms).map fun a => w a.label).sum

/-! ## Totals -/

section

variable {t : Atom → Nat} {a b : Atom} {slot : Slot} {atoms as bs : List Atom}

@[simp] theorem total_nil (t : Atom → Nat) : total t [] = 0 := rfl

theorem total_append (t : Atom → Nat) (as bs : List Atom) :
    total t (as ++ bs) = total t as + total t bs := by
  simp only [total, subatomsOfList_append, List.map_append, List.sum_append]

theorem total_cons (t : Atom → Nat) (a : Atom) (rest : List Atom) :
    total t (a :: rest) = total t [a] + total t rest :=
  total_append t [a] rest

theorem total_singleton (t : Atom → Nat) (a : Atom) : total t [a] = t a + total t a.children := by
  simp only [total, subatomsOfList, List.append_nil, subatoms_eq, List.map_cons, List.sum_cons]

theorem total_le_of_sublist (t : Atom → Nat) (h : as.Sublist bs) : total t as ≤ total t bs := by
  induction h with
  | slnil => exact Nat.le_refl _
  | @cons as bs a _ ih =>
      rw [total_cons t a bs]
      omega
  | @cons_cons as bs a _ ih =>
      rw [total_cons t a as, total_cons t a bs]
      omega

theorem total_flatten (t : Atom → Nat) (contents : List (List Atom)) :
    total t contents.flatten = (contents.map (total t)).sum := by
  induction contents with
  | nil => rfl
  | cons content rest ih => rw [List.flatten_cons, total_append, ih, List.map_cons, List.sum_cons]

/-- A sequence counts for what its atoms count for one by one. -/
theorem total_eq_sum (t : Atom → Nat) (atoms : List Atom) :
    total t atoms = (atoms.map fun a => total t [a]).sum := by
  induction atoms with
  | nil => rfl
  | cons a rest ih => rw [total_cons, ih, List.map_cons, List.sum_cons]

theorem total_children (t : Atom → Nat) (a : Atom) :
    total t a.children = (Slot.all.map fun slot => total t ((a.branch slot).getD [])).sum := by
  rw [children, Branches.toList, List.flatMap_def, total_flatten, List.map_map]
  rfl

/-- The old content of a branch leaves, and the new one comes. -/
theorem total_children_putBranch (t : Atom → Nat) (a : Atom) (slot : Slot)
    (content : Option (List Atom)) :
    total t (a.putBranch slot content).children + total t ((a.branch slot).getD []) =
      total t a.children + total t (content.getD []) := by
  obtain ⟨label, ⟨body, sup, sub, numerator, denominator, index, radicand⟩⟩ := a
  simp only [total_children, Slot.all, List.map_cons, List.map_nil, List.sum_cons, List.sum_nil]
  cases slot <;>
    simp only [putBranch, branch, branches_node, Branches.set, Branches.get] <;> omega

/-- The total of an atom changes with one of its branches, and with what the atom itself counts
for. -/
theorem total_putBranch (t : Atom → Nat) (a : Atom) (slot : Slot)
    (content : Option (List Atom)) :
    total t [a.putBranch slot content] + t a + total t ((a.branch slot).getD []) =
      total t [a] + t (a.putBranch slot content) + total t (content.getD []) := by
  have h := total_children_putBranch t a slot content
  rw [total_singleton, total_singleton]
  omega

/-- An atom in a branch may be replaced by another one. -/
theorem total_set (t : Atom → Nat) {i : Nat} (hi : atoms[i]? = some a) (b : Atom) :
    total t (atoms.set i b) + total t [a] = total t atoms + total t [b] := by
  induction atoms generalizing i with
  | nil => cases hi
  | cons c rest ih =>
      cases i with
      | zero =>
          cases hi
          rw [List.set_cons_zero, total_cons, total_cons t a rest]
          omega
      | succ i =>
          have hrest := ih hi
          rw [List.set_cons_succ, total_cons, total_cons t c rest]
          omega

theorem total_eraseIdx (t : Atom → Nat) {i : Nat} (hi : atoms[i]? = some a) :
    total t (atoms.eraseIdx i) + total t [a] = total t atoms := by
  induction atoms generalizing i with
  | nil => cases hi
  | cons b rest ih =>
      cases i with
      | zero =>
          cases hi
          rw [List.eraseIdx_cons_zero, total_cons t a rest]
          omega
      | succ i =>
          have hrest := ih hi
          rw [List.eraseIdx_cons_succ, total_cons, total_cons t b rest]
          omega

/-- What an atom counts for depends on which branches it has, but not on what they hold. -/
def IgnoresContent (t : Atom → Nat) : Prop :=
  ∀ (a : Atom) (slot : Slot) (content : List Atom), (a.branch slot).isSome = true →
    t (a.putBranch slot (some content)) = t a

theorem total_putBranch_of_branch (ht : IgnoresContent t) (hb : a.branch slot = some atoms)
    (content : List Atom) :
    total t [a.putBranch slot (some content)] + total t atoms = total t [a] + total t content := by
  have h := total_putBranch t a slot (some content)
  rw [ht a slot content (Option.isSome_of_eq_some hb), hb, Option.getD_some, Option.getD_some] at h
  omega

/-- A change further down changes the total by as much as it does there. -/
theorem total_modifyAt? (ht : IgnoresContent t) {a' : Atom} {steps : List Step} {f : Atom → Atom}
    (hd : a.descend? steps = some b) (hm : a.modifyAt? f steps = some a') :
    total t [a'] + total t [b] = total t [a] + total t [f b] := by
  induction steps generalizing a a' with
  | nil =>
      cases hd
      cases hm
      omega
  | cons s rest ih =>
      obtain ⟨atoms, i, child, hb, hi, hc, hd⟩ := descend?_cons_eq_some hd
      rw [modifyAt?_cons hb hi hc] at hm
      obtain ⟨c, hcm, rfl⟩ := Option.map_eq_some_iff.1 hm
      have hchild := ih hd hcm
      have hset := total_set t hc c
      have hput := total_putBranch_of_branch ht hb (atoms.set i c)
      omega

/-- A branch of a formula that is filled changes the total by what it holds. -/
theorem total_fill (ht : IgnoresContent t) {root owner : Atom} {q : Path}
    (h : IsBranch root q slot owner atoms) (content : List Atom) :
    total t [q.fill slot content root] + total t atoms = total t [root] + total t content := by
  have hroot := total_modifyAt? ht h.atom?_eq
    (Path.modifyAtom?_eq_some h.atom?_eq fun a => a.putBranch slot (some content))
  have howner := total_putBranch_of_branch ht h.branch_eq content
  unfold Path.fill
  omega

/-- A change of labels that is not seen in what single atoms count for is not seen in the total. -/
theorem total_mapLabels {f : Label → Label} (hf : ∀ a, t (a.mapLabels f) = t a) (a : Atom) :
    total t [a.mapLabels f] = total t [a] := by
  induction a using branchInduction with
  | step a ih =>
      have hslot (slot : Slot) : total t (((a.mapLabels f).branch slot).getD []) =
          total t ((a.branch slot).getD []) := by
        rw [branch_mapLabels]
        cases hb : a.branch slot with
        | none => rfl
        | some atoms =>
            rw [Option.map_some, Option.getD_some, Option.getD_some, total_eq_sum,
              total_eq_sum t atoms, List.map_map]
            exact congrArg List.sum (List.map_congr_left (ih slot atoms hb))
      rw [total_singleton, total_singleton, hf, total_children, total_children]
      simp only [hslot]

/-- What is cut out of a sequence makes room for something else. -/
theorem total_splice (t : Atom → Nat) (atoms middle : List Atom) {start stop : Nat}
    (h : start ≤ stop) :
    total t (splice atoms start stop middle) + total t (slice atoms start stop) =
      total t atoms + total t middle := by
  have hwhole := congrArg (total t) (splice_slice atoms h)
  simp only [splice, total_append] at hwhole ⊢
  omega

/-- What is spliced into a gap is added. -/
theorem total_splice_gap (t : Atom → Nat) (atoms middle : List Atom) (i : Nat) :
    total t (splice atoms i i middle) = total t atoms + total t middle := by
  have h := total_splice t atoms middle (Nat.le_refl i)
  have hnone : slice atoms i i = [] := by simp [slice]
  rwa [hnone, total_nil, Nat.add_zero] at h

end

/-! ## Weights -/

variable {w : Label → Nat} {a b : Atom} {slot : Slot} {atoms as bs content : List Atom}

@[simp] theorem weight_nil (w : Label → Nat) : weight w [] = 0 := rfl

theorem weight_append (w : Label → Nat) (as bs : List Atom) :
    weight w (as ++ bs) = weight w as + weight w bs :=
  total_append _ as bs

theorem weight_cons (w : Label → Nat) (a : Atom) (rest : List Atom) :
    weight w (a :: rest) = weight w [a] + weight w rest :=
  total_cons _ a rest

theorem weight_singleton (w : Label → Nat) (a : Atom) :
    weight w [a] = w a.label + weight w a.children :=
  total_singleton _ a

theorem weight_perm (w : Label → Nat) (h : as.Perm bs) : weight w as = weight w bs := by
  induction h with
  | nil => rfl
  | cons a _ ih => rw [weight_cons, ih, ← weight_cons]
  | swap a b rest =>
      rw [weight_cons w b (a :: rest), weight_cons w a rest, weight_cons w a (b :: rest),
        weight_cons w b rest]
      omega
  | trans _ _ ih ih' => exact ih.trans ih'

theorem weight_reverse (w : Label → Nat) (atoms : List Atom) :
    weight w atoms.reverse = weight w atoms :=
  weight_perm w (List.reverse_perm atoms)

theorem weight_le_of_sublist (w : Label → Nat) (h : as.Sublist bs) :
    weight w as ≤ weight w bs :=
  total_le_of_sublist _ h

theorem weight_flatten (w : Label → Nat) (contents : List (List Atom)) :
    weight w contents.flatten = (contents.map (weight w)).sum :=
  total_flatten _ contents

theorem weight_map (w : Label → Nat) {f : Atom → Atom} (hf : ∀ a, weight w [f a] = weight w [a])
    (atoms : List Atom) : weight w (atoms.map f) = weight w atoms := by
  induction atoms with
  | nil => rfl
  | cons a rest ih => rw [List.map_cons, weight_cons, hf, ih, ← weight_cons]

/-! ## Branches -/

theorem weight_children (w : Label → Nat) (a : Atom) :
    weight w a.children = (Slot.all.map fun slot => weight w ((a.branch slot).getD [])).sum :=
  total_children _ a

/-- The old content of a branch leaves, and the new one comes. -/
theorem weight_children_putBranch (w : Label → Nat) (a : Atom) (slot : Slot)
    (content : Option (List Atom)) :
    weight w (a.putBranch slot content).children + weight w ((a.branch slot).getD []) =
      weight w a.children + weight w (content.getD []) :=
  total_children_putBranch _ a slot content

theorem weight_branch_le (w : Label → Nat) (hb : a.branch slot = some atoms) :
    weight w atoms ≤ weight w a.children := by
  have h := weight_children_putBranch w a slot none
  rw [hb, Option.getD_some, Option.getD_none, weight_nil] at h
  omega

theorem weight_putBranch (w : Label → Nat) (a : Atom) (slot : Slot)
    (content : Option (List Atom)) :
    weight w [a.putBranch slot content] + weight w ((a.branch slot).getD []) =
      weight w [a] + weight w (content.getD []) := by
  have h := weight_children_putBranch w a slot content
  rw [weight_singleton, weight_singleton, label_putBranch]
  omega

theorem weight_putBranch_of_branch (w : Label → Nat) (hb : a.branch slot = some atoms)
    (content : List Atom) :
    weight w [a.putBranch slot (some content)] + weight w atoms =
      weight w [a] + weight w content := by
  simpa [hb] using weight_putBranch w a slot (some content)

/-- An optional branch that is detached takes its content with it. -/
theorem weight_removeBranch (w : Label → Nat) (a : Atom) (slot : Slot) :
    weight w [(a.removeBranch slot).2] + weight w ((a.removeBranch slot).1.getD []) =
      weight w [a] := by
  unfold removeBranch
  split
  · simpa using weight_putBranch w a slot none
  · rfl

/-- A branch that is emptied may get a placeholder. -/
theorem weight_setBranch_nil_le (w : Label → Nat) (a : Atom) (slot : Slot) (filler : Nat) :
    weight w [(a.setBranch slot [] filler).getD a] ≤
      weight w [a] + weight w [placeholder filler] := by
  have hnone := weight_putBranch w a slot none
  have hempty := weight_putBranch w a slot (some [])
  have hfilled := weight_putBranch w a slot (some [placeholder filler])
  simp only [Option.getD_none, Option.getD_some, weight_nil] at hnone hempty hfilled
  unfold setBranch
  simp only [List.isEmpty_nil, Bool.true_and]
  split_ifs <;> simp only [Option.getD_some, Option.getD_none] <;> omega

theorem weight_ensureBranch_le (w : Label → Nat) (a : Atom) (slot : Slot) (filler : Nat) :
    weight w [a.ensureBranch slot filler] ≤ weight w [a] + weight w [placeholder filler] := by
  have hfilled := weight_putBranch w a slot (some [placeholder filler])
  rw [Option.getD_some] at hfilled
  unfold ensureBranch
  simp only
  split_ifs <;> omega

/-- An atom in a branch may be replaced by another one. -/
theorem weight_set (w : Label → Nat) {i : Nat} (hi : atoms[i]? = some a) (b : Atom) :
    weight w (atoms.set i b) + weight w [a] = weight w atoms + weight w [b] :=
  total_set _ hi b

/-- A change further down changes the weight by as much as it does there. -/
theorem weight_modifyAt? {a' : Atom} {steps : List Step} {f : Atom → Atom}
    (hd : a.descend? steps = some b) (hm : a.modifyAt? f steps = some a') (w : Label → Nat) :
    weight w [a'] + weight w [b] = weight w [a] + weight w [f b] :=
  total_modifyAt? (fun _ _ _ _ => rfl) hd hm

/-! ## Labels -/

theorem weight_mapLabel (w : Label → Nat) (f : Label → Label) (a : Atom) :
    weight w [a.mapLabel f] + w a.label = weight w [a] + w (f a.label) := by
  obtain ⟨label, branches⟩ := a
  rw [weight_singleton, weight_singleton]
  simp only [mapLabel, label_node, children, branches_node]
  omega

/-- A change of labels that keeps their weights keeps the weight of the formula. -/
theorem weight_mapLabels {f : Label → Label} (hf : ∀ l, w (f l) = w l) (a : Atom) :
    weight w [a.mapLabels f] = weight w [a] :=
  total_mapLabels (fun b => by rw [label_mapLabels, hf]) a

/-! ## Sequences -/

/-- What is cut out of a sequence makes room for something else. -/
theorem weight_splice (w : Label → Nat) (atoms middle : List Atom) {start stop : Nat}
    (h : start ≤ stop) :
    weight w (splice atoms start stop middle) + weight w (slice atoms start stop) =
      weight w atoms + weight w middle :=
  total_splice _ atoms middle h

/-- What is spliced into a gap is added. -/
theorem weight_splice_gap (w : Label → Nat) (atoms middle : List Atom) (i : Nat) :
    weight w (splice atoms i i middle) = weight w atoms + weight w middle :=
  total_splice_gap _ atoms middle i

/-! ## Places in a formula -/

section

variable {root : Atom} {p : Path}

theorem weight_modifyAtom (h : p.atom? root = some a) (f : Atom → Atom) (w : Label → Nat) :
    weight w [p.modifyAtom f root] + weight w [a] = weight w [root] + weight w [f a] :=
  weight_modifyAt? h (Path.modifyAtom?_eq_some h f) w

theorem weight_fill {q : Path} {owner : Atom} (h : IsBranch root q slot owner atoms)
    (content : List Atom) (w : Label → Nat) :
    weight w [q.fill slot content root] + weight w atoms = weight w [root] + weight w content :=
  total_fill (fun _ _ _ _ => rfl) h content

theorem modifyAtom_of_none (h : p.atom? root = none) (f : Atom → Atom) :
    p.modifyAtom f root = root := by
  rw [Path.modifyAtom, Path.modifyAtom?, modifyAt?_eq_none h, Option.getD_none]

/-- A branch that a path points into is one of an atom. -/
theorem exists_of_branch? (h : p.branch? root = some atoms) :
    ∃ q slot offset owner, p = Path.child q slot offset ∧ q.atom? root = some owner ∧
      owner.branch slot = some atoms := by
  cases hroot : p.isRoot with
  | true =>
      rw [Path.eq_root_of_isRoot hroot] at h
      cases h
  | false =>
      obtain ⟨q, slot, offset, rfl⟩ := Path.exists_child hroot
      rw [Path.branch?_child] at h
      obtain ⟨owner, howner, hb⟩ := Option.bind_eq_some_iff.1 h
      exact ⟨q, slot, offset, owner, rfl, howner, hb⟩

theorem weight_modifyBranch (h : p.branch? root = some atoms) (f : List Atom → List Atom)
    (w : Label → Nat) :
    weight w [p.modifyBranch f root] + weight w atoms = weight w [root] + weight w (f atoms) := by
  obtain ⟨q, slot, offset, owner, rfl, howner, hb⟩ := exists_of_branch? h
  have hmodify : (q.child slot offset).modifyBranch f root =
      q.modifyAtom (fun a => a.putBranch slot (some (f atoms))) root := by
    simp only [Path.modifyBranch, Path.modifyBranch?, Path.slot?_child, Path.owner?_child, howner,
      Option.bind_eq_bind, Option.bind_some, hb, Path.modifyOwner?, Path.isRoot_child,
      Bool.false_eq_true, if_false, Path.parent_child]
    rfl
  have hroot := weight_modifyAtom howner (fun a => a.putBranch slot (some (f atoms))) w
  have hput := weight_putBranch_of_branch w hb (f atoms)
  rw [hmodify]
  omega

/-- An atom may be replaced by a sequence. -/
theorem weight_modifyBranch_replace {i : Nat} (hi : p.index? = some i) (h : p.atom? root = some a)
    (middle : List Atom) (w : Label → Nat) :
    weight w [p.modifyBranch (fun b => splice b i (i + 1) middle) root] + weight w [a] =
      weight w [root] + weight w middle := by
  cases hroot : p.isRoot with
  | true =>
      rw [Path.eq_root_of_isRoot hroot] at hi
      cases hi
  | false =>
      obtain ⟨q, slot, offset, rfl⟩ := Path.exists_child hroot
      obtain ⟨owner, atoms, j, howner, hb, rfl, hj⟩ := Path.exists_of_atom?_child h
      rw [Path.index?_child, Step.index?_natCast] at hi
      cases hi
      have hbranch : (q.child slot i).branch? root = some atoms := by
        rw [Path.branch?_child, howner, Option.bind_some, hb]
      have hput := weight_modifyBranch hbranch (fun b => splice b i (i + 1) middle) w
      have hsplice := weight_splice w atoms middle (Nat.le_add_right i 1)
      rw [slice_singleton hj] at hsplice
      omega

theorem modifyBranch_of_none (h : p.branch? root = none) (f : List Atom → List Atom) :
    p.modifyBranch f root = root := by
  have hnone : p.modifyBranch? f root = none := by
    simp only [Path.branch?, Option.bind_eq_bind] at h
    simp only [Path.modifyBranch?, Option.bind_eq_bind]
    cases hs : p.slot? with
    | none => rfl
    | some slot =>
        cases ho : p.owner? root with
        | none => rfl
        | some owner =>
            rw [hs, ho, Option.bind_some, Option.bind_some] at h
            simp [h]
  rw [Path.modifyBranch, hnone, Option.getD_none]

/-- An atom that is changed, if there is one, gains no more than the change can add. -/
theorem weight_modifyAtom_le {f : Atom → Atom} {k : Nat}
    (hf : ∀ a, weight w [f a] ≤ weight w [a] + k) (p : Path) (root : Atom) :
    weight w [p.modifyAtom f root] ≤ weight w [root] + k := by
  cases h : p.atom? root with
  | none =>
      rw [modifyAtom_of_none h]
      omega
  | some a =>
      have hroot := weight_modifyAtom h f w
      have hatom := hf a
      omega

theorem weight_modifyOwner_le {f : Atom → Atom} {k : Nat}
    (hf : ∀ a, weight w [f a] ≤ weight w [a] + k) (p : Path) (root : Atom) :
    weight w [p.modifyOwner f root] ≤ weight w [root] + k := by
  rw [Path.modifyOwner, Path.modifyOwner?]
  split
  · exact Nat.le_add_right _ _
  · exact weight_modifyAtom_le hf p.parent root

theorem weight_modifyBranch_le {f : List Atom → List Atom} {k : Nat}
    (hf : ∀ atoms, weight w (f atoms) ≤ weight w atoms + k) (p : Path) (root : Atom) :
    weight w [p.modifyBranch f root] ≤ weight w [root] + k := by
  cases h : p.branch? root with
  | none =>
      rw [modifyBranch_of_none h]
      omega
  | some atoms =>
      have hroot := weight_modifyBranch h f w
      have hbranch := hf atoms
      omega

end

end FormulaEditor.Atom

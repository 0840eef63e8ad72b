import Mathlib.Algebra.Order.BigOperators.Group.Finset
import FormulaEditor.Proofs.Formula.Ledger
import FormulaEditor.Proofs.Latex.Writing

/-!
# What is read is paid for

The atoms that are read come from three sources: the supply of identities, the arguments of the
fragment, and the problems that are shown in the formula as errors. Reading gives nothing for free,
in whatever way a source is repaired: what is read weighs no more than the identities that were
given out meanwhile, the arguments that were used meanwhile, and an error for every problem that was
reported. It weighs as much as that, unless identities that were given out have a weight, which a
reader that goes back loses again, or an argument is a group whose braces are left out.
-/

namespace FormulaEditor

open Atom Latex Latex.Reader

/-- Whether a problem is shown in the formula, by an atom that is marked as an error. -/
def Latex.Problem.isShown : Problem → Bool
  | unknownCommand _ | argumentCount .. | duplicateScript | disallowedChar _ => true
  | unclosedGroup | unmatchedClose | missingArgument | unknownEnvironment _
  | mismatchedEnvironment .. | unclosedEnvironment _ | invalidShortcut _ => false

namespace Scale

/-- The weight of the arguments that were used. -/
def substituted (c : Scale) (args : List (List Atom)) (used : List Nat) : Nat :=
  ∑ i ∈ used.toFinset, weight c.label (args.getD i [])

/-- The weight of all that a state has spent so far. -/
def stock (c : Scale) (args : List (List Atom)) (s : Reader) : Nat :=
  c.given s.supply + c.substituted args s.used +
    c.error * s.problems.countP fun d => d.problem.isShown

/-- A sequence that loses no weight as the index of a radical, where the braces of a lone group are
left out. -/
def IsLight (c : Scale) (atoms : List Atom) : Prop :=
  weight c.label (Reader.unprotected atoms) = weight c.label atoms

/-- Nothing that reading drops has a weight: neither the identities from `n` on, nor the braces of
an argument. -/
structure IsExact (c : Scale) (args : List (List Atom)) (n : Nat) : Prop where
  spare : ∀ k, n ≤ k → c.identity k = 0
  light : ∀ atoms ∈ args, c.IsLight atoms

variable {c : Scale} {args : List (List Atom)} {x y z n n' : Nat} {a : Atom}
  {as bs done content : List Atom}

theorem IsExact.mono (h : c.IsExact args n) (hn : n ≤ n') : c.IsExact args n' :=
  ⟨fun k hk => h.spare k (Nat.le_trans hn hk), h.light⟩

theorem substituted_cons {i : Nat} {used : List Nat} (h : i ∉ used) :
    c.substituted args (i :: used) =
      weight c.label (args.getD i []) + c.substituted args used := by
  rw [substituted, substituted, List.toFinset_cons, Finset.sum_insert (by simpa using h)]

/-- The arguments that were used weigh no more than all arguments. -/
theorem substituted_le (c : Scale) (args : List (List Atom)) (used : List Nat) :
    c.substituted args used ≤ weight c.label args.flatten := by
  have hall : ∑ i ∈ Finset.range args.length, weight c.label (args.getD i []) =
      weight c.label args.flatten := by
    induction args with
    | nil => rfl
    | cons atoms rest ih =>
        rw [List.length_cons, Finset.sum_range_succ', List.flatten_cons, weight_append, ← ih,
          Nat.add_comm]
        rfl
  rw [← hall]
  refine Finset.sum_le_sum_of_ne_zero fun i _ hne => ?_
  rw [Finset.mem_range]
  by_contra hge
  apply hne
  simp [List.getD, List.getElem?_eq_none (Nat.le_of_not_lt hge)]

/-! ## Light sequences -/

theorem weight_unprotected_le (c : Scale) (atoms : List Atom) :
    weight c.label (Reader.unprotected atoms) ≤ weight c.label atoms := by
  unfold Reader.unprotected
  split
  · rename_i a
    split
    · rw [weight_singleton, body]
      cases hb : a.branch .body with
      | none => exact Nat.zero_le _
      | some atoms =>
          have hle := weight_branch_le c.label hb
          rw [Option.getD_some]
          omega
    · exact Nat.le_refl _
  · exact Nat.le_refl _

theorem isLight_of_weight_eq_zero (h : weight c.label as = 0) : c.IsLight as := by
  have hle := weight_unprotected_le c as
  rw [IsLight]
  omega

theorem isLight_of_not_isBareGroup (h : a.isBareGroup = false) : c.IsLight [a] := by
  simp [IsLight, Reader.unprotected, h]

theorem isLight_nil : c.IsLight [] :=
  rfl

/-- Only a lone group has braces to lose. -/
theorem isLight_append (ha : c.IsLight as) (hb : c.IsLight bs) : c.IsLight (as ++ bs) := by
  match as, bs with
  | [], bs => exact hb
  | as, [] => rwa [List.append_nil]
  | a :: as, b :: bs =>
      have hne : Reader.unprotected (a :: as ++ b :: bs) = a :: as ++ b :: bs := by
        cases as <;> rfl
      rw [IsLight, hne]

theorem isLight_reverse (h : c.IsLight as) : c.IsLight as.reverse := by
  match as with
  | [] => exact h
  | [a] => exact h
  | a :: b :: rest =>
      have hne : Reader.unprotected (a :: b :: rest).reverse = (a :: b :: rest).reverse := by
        unfold Reader.unprotected
        split
        · rename_i heq
          have hlength := congrArg List.length heq
          simp at hlength
        · rfl
      rw [IsLight, hne]

theorem isLight_newGroup (hz : ∀ k, n ≤ k → c.identity k = 0) (atoms : List Atom) :
    c.IsLight [(newWrapper .group none atoms n).1] := by
  have hbody : Reader.unprotected [(newWrapper .group none atoms n).1] = atoms := rfl
  have hmakes := makes_newWrapper c (rfl : Kind.shape .group = .sequence) none atoms n
  have hgiven := c.given_eq hmakes.le hz
  have hweight := hmakes.weight
  rw [IsLight, hbody]
  omega

/-! ## Weighing states -/

/-- Between two states something of weight `x` became something of weight `y`, and the difference
was spent. -/
structure Weighs (c : Scale) (args : List (List Atom)) (x : Nat) (s : Reader) (y : Nat)
    (s' : Reader) : Prop where
  supply : s.supply ≤ s'.supply
  le : y + c.stock args s ≤ x + c.stock args s'
  ge : c.IsExact args s.supply → x + c.stock args s' ≤ y + c.stock args s

/-- Between two states the sequence `done` became another one, and what it grew by was spent. It was
light before it grew if it is afterwards. -/
structure Weighed (c : Scale) (args : List (List Atom)) (done : List Atom) (s : Reader)
    (r : List Atom × Reader) : Prop where
  weighs : Weighs c args (weight c.label done) s (weight c.label r.1) r.2
  light : c.IsExact args s.supply → c.IsLight done → c.IsLight r.1

section

variable {s s' s'' : Reader}

theorem Weighs.refl (x : Nat) (s : Reader) : c.Weighs args x s x s :=
  ⟨Nat.le_refl _, Nat.le_refl _, fun _ => Nat.le_refl _⟩

theorem Weighs.trans (h : c.Weighs args x s y s') (h' : c.Weighs args y s' z s'') :
    c.Weighs args x s z s'' := by
  refine ⟨Nat.le_trans h.supply h'.supply, ?_, fun he => ?_⟩
  · have hle := h.le
    have hle' := h'.le
    omega
  · have hge := h.ge he
    have hge' := h'.ge (he.mono h.supply)
    omega

theorem Weighs.add (h : c.Weighs args x s y s') (k : Nat) :
    c.Weighs args (x + k) s (y + k) s' := by
  refine ⟨h.supply, ?_, fun he => ?_⟩
  · have hle := h.le
    omega
  · have hge := h.ge he
    omega

/-- What is read first is kept while the rest is read. -/
theorem Weighs.both {x' y' : Nat} (h : c.Weighs args x s y s') (h' : c.Weighs args x' s' y' s'') :
    c.Weighs args (x + x') s (y + y') s'' := by
  have hrest := h'.add y
  rw [Nat.add_comm x', Nat.add_comm y'] at hrest
  exact (h.add x').trans hrest

/-- Only the tokens that are left do not count. -/
theorem Weighs.withRest (h : c.Weighs args x s y s') (rest : List SpannedToken) :
    c.Weighs args x s y (s'.withRest rest) :=
  ⟨h.supply, h.le, h.ge⟩

theorem Weighs.capped (h : c.Weighs args x s y s') (n : Nat) :
    c.Weighs args x s y (s'.capped n) :=
  h.withRest _

theorem Weighs.of_withRest {rest : List SpannedToken}
    (h : c.Weighs args x (s.withRest rest) y s') : c.Weighs args x s y s' :=
  ⟨h.supply, h.le, h.ge⟩

theorem stock_mint {α : Type} (c : Scale) (args : List (List Atom)) (s : Reader)
    (m : Minting α) :
    c.stock args (s.mint m).2 + c.given s.supply = c.stock args s + c.given (m s.supply).2 := by
  have hmint : c.stock args (s.mint m).2 = c.given (m s.supply).2 + c.substituted args s.used +
      c.error * s.problems.countP fun d => d.problem.isShown := rfl
  rw [hmint, stock]
  omega

theorem Weighs.mint {α : Type} {m : Minting α} (h : c.Weighs args x s y s')
    (hm : c.Makes y s'.supply z (m s'.supply).2) : c.Weighs args x s z (s'.mint m).2 := by
  have hstock := stock_mint c args s' m
  have hweight := hm.weight
  exact h.trans ⟨hm.le, by omega, fun _ => by omega⟩

theorem stock_report (c : Scale) (args : List (List Atom)) (s : Reader) (span : Span)
    (problem : Problem) :
    c.stock args (s.report span problem) =
      c.stock args s + if problem.isShown then c.error else 0 := by
  simp only [stock, Reader.report, List.countP_cons, Nat.mul_add]
  split <;> simp [Nat.add_assoc]

/-- A problem that is shown is owed an error. -/
theorem Weighs.report (h : c.Weighs args x s y s') (span : Span) {problem : Problem}
    (hp : problem.isShown = true) :
    c.Weighs args x s (y + c.error) (s'.report span problem) := by
  have hstock := stock_report c args s' span problem
  rw [if_pos hp] at hstock
  refine ⟨h.supply, ?_, fun he => ?_⟩
  · have hle := h.le
    omega
  · have hge := h.ge he
    omega

theorem Weighs.report_of_not_isShown (h : c.Weighs args x s y s') (span : Span)
    {problem : Problem} (hp : problem.isShown = false) :
    c.Weighs args x s y (s'.report span problem) := by
  have hstock := stock_report c args s' span problem
  rw [hp] at hstock
  refine ⟨h.supply, ?_, fun he => ?_⟩
  · have hle := h.le
    simp at hstock
    omega
  · have hge := h.ge he
    simp at hstock
    omega

/-- Going back keeps the identities that were given out, and nothing else. -/
theorem weighs_rewind (h : s.supply ≤ s'.supply) : c.Weighs args x s x (s.rewind s') := by
  have hmono := c.given_mono h
  refine ⟨h, ?_, fun he => ?_⟩
  · simp only [stock, Reader.rewind]
    omega
  · have heq := c.given_eq h he.spare
    simp only [stock, Reader.rewind]
    omega

theorem Weighed.same (h : c.Weighs args 0 s 0 s') : c.Weighed args done s (done, s') := by
  have hadd := h.add (weight c.label done)
  rw [Nat.zero_add] at hadd
  exact ⟨hadd, fun _ hl => hl⟩

theorem Weighed.of_weighs {r : List Atom × Reader} (h : c.Weighs args 0 s 0 s')
    (hr : c.Weighed args done s' r) : c.Weighed args done s r := by
  have hadd := h.add (weight c.label done)
  rw [Nat.zero_add] at hadd
  exact ⟨hadd.trans hr.weighs, fun he => hr.light (he.mono h.supply)⟩

/-! ## New items -/

/-- A new item is put behind those before. -/
theorem weighed_push {m : Minting Atom}
    (h : c.Weighs args 0 s (weight c.label [(s'.mint m).1]) (s'.mint m).2)
    (hl : c.IsExact args s.supply → c.IsLight [(s'.mint m).1]) :
    c.Weighed args done s (push done m s') := by
  refine ⟨?_, fun he hd => isLight_append (hl he) hd⟩
  have hadd := h.add (weight c.label done)
  rw [Nat.zero_add, ← weight_append] at hadd
  exact hadd

theorem weighed_pushLeaf (h : c.Weighs args 0 s 0 s') (kind : Kind) (value : Option String)
    (glyph : Option Char) (hk : kind ≠ .group) :
    c.Weighed args done s (push done (newLeaf kind value glyph) s') := by
  refine weighed_push (h.mint (makes_newLeaf c kind value glyph s'.supply)) fun _ => ?_
  refine isLight_of_not_isBareGroup ?_
  have hkind : (leaf s'.supply kind value glyph).kind = kind := rfl
  simpa [isBareGroup, Reader.mint, hkind] using fun hkind' => absurd hkind' hk

theorem weight_markError (hm : a.marks.error = false) :
    weight c.label [a.markError] = weight c.label [a] + c.error := by
  have h := weight_mapLabel c.label (fun l => { l with marks := { l.marks with error := true } }) a
  have hlabel : a.label.marks.error = false := hm
  simp only [label, hlabel, if_true] at h
  simp at h
  rw [markError, mapMarks]
  omega

theorem isBareGroup_of_kind (hk : a.kind ≠ .group) : a.isBareGroup = false := by
  simp [isBareGroup, hk]

/-- A marked leaf is the error that a problem owes. -/
theorem weighed_pushMarked (h : c.Weighs args 0 s c.error s') (kind : Kind)
    (value : Option String) (glyph : Option Char) (hk : kind ≠ .group) :
    c.Weighed args done s
      (push done (newLeaf kind value glyph >>= fun a => pure a.markError) s') := by
  have hleaf := makes_newLeaf c kind value glyph s'.supply
  have hmark : weight c.label [(leaf s'.supply kind value glyph).markError] =
      weight c.label [leaf s'.supply kind value glyph] + c.error := weight_markError rfl
  have hmade : (s'.mint (newLeaf kind value glyph >>= fun a => pure a.markError)).1 =
      (leaf s'.supply kind value glyph).markError := rfl
  have hsupply : ((newLeaf kind value glyph >>= fun a => pure a.markError) s'.supply).2 =
      s'.supply + 1 := rfl
  refine weighed_push (h.mint ⟨Nat.le_succ _, ?_⟩) fun _ => ?_
  · have hweight := hleaf.weight
    rw [hmade, hsupply]
    omega
  · exact isLight_of_not_isBareGroup (isBareGroup_of_kind hk)

theorem weighed_pushUnknown (h : c.Weighs args 0 s 0 s') (command : String) {problem : Problem}
    (hp : problem.isShown = true) (span : Span) :
    c.Weighed args done s (pushUnknown done command problem span s') := by
  have hreport := h.report span hp
  rw [Nat.zero_add] at hreport
  exact weighed_pushMarked hreport .unknownCommand (some command) none (by simp)

/-- The character of a formula is a leaf. -/
theorem exists_newMathChar (ch : Char) :
    ∃ kind value glyph, kind ≠ Kind.group ∧ newMathChar ch = newLeaf kind value glyph := by
  have hkind : (charKind ch).1 ≠ .group := by
    unfold charKind
    split <;> simp
  unfold newMathChar
  split
  · exact ⟨.ordinary, _, _, by simp, rfl⟩
  · split
    · exact ⟨.space, _, _, by simp, rfl⟩
    · exact ⟨(charKind ch).1, _, _, hkind, rfl⟩

/-! ## Scripts -/

section

variable {slot : Slot} (hs : slot.isScript = true)
include hs

theorem isBareGroup_putBranch (a : Atom) (content : List Atom) :
    (a.putBranch slot (some content)).isBareGroup = false := by
  cases slot <;> cases hs <;> simp [isBareGroup, hasScripts]

theorem mint_withBranch (hk : a.kind.allowsScripts = true) (hb : a.branch slot = none)
    (content : List Atom) (s : Reader) :
    (s.mint (withBranch a slot content)).1 =
      if content = [] then a else a.putBranch slot (some content) :=
  withBranch_apply hk hs hb content s.supply

/-- An atom that gets a script weighs as much as both. The identity set aside for the script is not
used. -/
theorem weighs_withBranch (h : c.Weighs args x s (weight c.label [a] + weight c.label content) s')
    (hk : a.kind.allowsScripts = true) (hb : a.branch slot = none) :
    c.Weighs args x s (weight c.label [(s'.mint (withBranch a slot content)).1])
      (s'.mint (withBranch a slot content)).2 := by
  have hmade : weight c.label [(s'.mint (withBranch a slot content)).1] =
      weight c.label [a] + weight c.label content := by
    rw [mint_withBranch hs hk hb]
    split
    · rename_i he
      rw [he, weight_nil, Nat.add_zero]
    · have hput := weight_putBranch c.label a slot (some content)
      rw [hb, Option.getD_none, weight_nil, Option.getD_some] at hput
      exact hput
  have hstock := stock_mint c args s' (withBranch a slot content)
  have hsupply : (withBranch a slot content s'.supply).2 = s'.supply + 1 := rfl
  have hsucc := c.given_succ s'.supply
  rw [hsupply] at hstock
  rw [hmade]
  refine h.trans ⟨Nat.le_succ _, by omega, fun he => ?_⟩
  have hzero := he.spare s'.supply (Nat.le_refl _)
  omega

theorem isLight_withBranch (hk : a.kind.allowsScripts = true) (hb : a.branch slot = none)
    (hl : c.IsLight [a]) (content : List Atom) (s : Reader) :
    c.IsLight [(s.mint (withBranch a slot content)).1] := by
  rw [mint_withBranch hs hk hb]
  split
  · exact hl
  · exact isLight_of_not_isBareGroup (isBareGroup_putBranch hs a content)

/-- A script on a new placeholder, which may have been changed into something that weighs `k` more.
-/
theorem weighed_pushScripted {f : Atom → Atom} {k : Nat}
    (hkind : ∀ n, (f (placeholder n)).kind = .placeholder)
    (hnone : ∀ n, (f (placeholder n)).branch slot = none)
    (hweight : ∀ n, weight c.label [f (placeholder n)] = weight c.label [placeholder n] + k)
    (h : c.Weighs args 0 s (weight c.label content + k) s') :
    c.Weighed args done s
      (push done (newPlaceholder >>= fun base => withBranch (f base) slot content) s') := by
  have hallowed (n : Nat) : (f (placeholder n)).kind.allowsScripts = true := by
    rw [hkind]
    rfl
  have hleaf := makes_newLeaf c .placeholder none none s'.supply
  have hbase : c.Weighs args 0 s
      (weight c.label [f (placeholder s'.supply)] + weight c.label content)
      (s'.mint newPlaceholder).2 := by
    refine h.mint ⟨hleaf.le, ?_⟩
    have hmade := hleaf.weight
    have hplaceholder : placeholder s'.supply = leaf s'.supply .placeholder none none := rfl
    have hsupply : (newPlaceholder s'.supply).2 = s'.supply + 1 := rfl
    rw [hsupply, hweight, hplaceholder]
    omega
  have hbare : (f (placeholder s'.supply)).isBareGroup = false :=
    isBareGroup_of_kind (by simp [hkind])
  have hbind : s'.mint (newPlaceholder >>= fun base => withBranch (f base) slot content) =
      (s'.mint newPlaceholder).2.mint (withBranch (f (placeholder s'.supply)) slot content) := rfl
  refine weighed_push ?_ fun _ => ?_
  · rw [hbind]
    exact weighs_withBranch hs hbase (hallowed _) (hnone _)
  · rw [hbind]
    exact isLight_withBranch hs (hallowed _) (hnone _) (isLight_of_not_isBareGroup hbare) content _

theorem weighed_attachScript (h : c.Weighs args 0 s (weight c.label content) s') (span : Span) :
    c.Weighed args done s (attachScript slot content done span s') := by
  have hplain : c.Weighed args done s
      (push done (newPlaceholder >>= fun base => withBranch base slot content) s') :=
    weighed_pushScripted hs (fun _ => rfl) (fun n => branch_placeholder n slot) (fun _ => rfl) h
  unfold attachScript
  cases done with
  | nil => exact hplain
  | cons last before =>
      simp only
      split
      · rename_i hk
        split
        · rename_i hnone
          rw [Option.isNone_iff_eq_none] at hnone
          have hlast := (Weighs.refl (weight c.label [last]) s).both h
          have hscripted := (weighs_withBranch hs hlast hk hnone).add (weight c.label before)
          refine ⟨?_, fun _ hl => ?_⟩
          · rw [Nat.add_zero, ← weight_cons, ← weight_cons] at hscripted
            exact hscripted
          · cases before with
            | nil => exact isLight_withBranch hs hk hnone hl content s'
            | cons _ _ => rfl
        · have hnone (n : Nat) : (placeholder n).markError.branch slot = none := by
            rw [markError, branch_mapMarks]
            exact branch_placeholder n slot
          exact weighed_pushScripted hs (fun _ => rfl) hnone (fun n => weight_markError rfl)
            (h.report span rfl)
      · exact hplain

end

theorem weighed_attachPrime (h : c.Weighs args 0 s 0 s') (span : Span) :
    c.Weighed args done s (attachPrime done span s') := by
  have hprime : c.Weighs args 0 s (weight c.label [(s'.mint newPrime).1]) (s'.mint newPrime).2 :=
    h.mint (makes_newLeaf c .ordinary (some primeCommand) (some primeGlyph) s'.supply)
  have hattach : c.Weighed args done s
      (attachScript .superscript [(s'.mint newPrime).1] done span (s'.mint newPrime).2) :=
    weighed_attachScript rfl hprime span
  unfold attachPrime
  simp only
  split
  · rename_i last before
    split
    · rename_i sup hsup
      split
      · have hput := weight_putBranch_of_branch c.label hsup (sup ++ [(s'.mint newPrime).1])
        have hgrown := hprime.add (weight c.label (last :: before))
        rw [weight_append] at hput
        rw [Nat.zero_add] at hgrown
        refine ⟨?_, fun _ hl => ?_⟩
        · have heq : weight c.label (last.putBranch .superscript
              (some (sup ++ [(s'.mint newPrime).1])) :: before) =
              weight c.label [(s'.mint newPrime).1] + weight c.label (last :: before) := by
            rw [weight_cons, weight_cons c.label last]
            omega
          rw [heq]
          exact hgrown
        · cases before with
          | nil => exact isLight_of_not_isBareGroup (isBareGroup_putBranch rfl last _)
          | cons _ _ => rfl
      · exact hattach
    · exact hattach
  · exact hattach

/-! ## Arguments -/

/-- A copy takes all its identities from the supply. -/
theorem weighs_copy (herror : c.error = 0) (h : c.Weighs args 0 s 0 s') (atoms : List Atom) :
    c.Weighs args 0 s (weight c.label (s'.mint (relabelList atoms)).1)
        (s'.mint (relabelList atoms)).2 ∧
      (c.IsExact args s.supply → c.IsLight (s'.mint (relabelList atoms)).1) := by
  have hcopy := makes_relabelList herror atoms s'.supply
  refine ⟨h.mint hcopy, fun he => isLight_of_weight_eq_zero ?_⟩
  have hgiven := c.given_eq hcopy.le (he.mono h.supply).spare
  have hweight := hcopy.weight
  have hmade : (s'.mint (relabelList atoms)).1 = (relabelList atoms s'.supply).1 := rfl
  rw [hmade]
  omega

/-- An argument that is used from then on is spent itself. -/
theorem weighs_use (h : c.Weighs args 0 s 0 s') {i : Nat} {atoms : List Atom}
    (hi : args[i]? = some atoms) (hnew : i ∉ s'.used) :
    c.Weighs args 0 s (weight c.label atoms) { s' with used := i :: s'.used } := by
  have hget : args.getD i [] = atoms := by simp [List.getD, hi]
  have hstock : c.stock args { s' with used := i :: s'.used } =
      c.stock args s' + weight c.label atoms := by
    simp only [stock, substituted_cons hnew, hget]
    omega
  refine h.trans ⟨Nat.le_refl _, ?_, fun _ => ?_⟩
  · rw [hstock]
    omega
  · rw [hstock]
    omega

/-- A reference stands for a new placeholder, for a copy, or for an argument that is used from then
on. -/
theorem weighs_substitute (hc : c.error = 0 ∨ args = []) (ref : ArgumentRef)
    (h : c.Weighs args 0 s 0 s') :
    c.Weighs args 0 s (weight c.label (substitute args ref s').1) (substitute args ref s').2 ∧
      (c.IsExact args s.supply → c.IsLight (substitute args ref s').1) := by
  have hplaceholder : c.Weighs args 0 s (weight c.label (s'.mint (filled [])).1)
      (s'.mint (filled [])).2 ∧ (c.IsExact args s.supply → c.IsLight (s'.mint (filled [])).1) :=
    ⟨h.mint (makes_filled c [] s'.supply), fun _ => isLight_of_not_isBareGroup rfl⟩
  have hindex (i : Nat) : c.Weighs args 0 s (weight c.label (substitute args (.index i) s').1)
      (substitute args (.index i) s').2 ∧
        (c.IsExact args s.supply → c.IsLight (substitute args (.index i) s').1) := by
    simp only [substitute]
    split
    · exact hplaceholder
    · exact hplaceholder
    · rename_i atoms hne hi
      have hmem := List.mem_of_getElem? hi
      split
      · have herror : c.error = 0 := by
          rcases hc with hc | hc
          · exact hc
          · rw [hc] at hmem
            cases hmem
        exact weighs_copy herror h atoms
      · rename_i hunused
        exact ⟨weighs_use h hi (by simpa using hunused), fun he => he.light atoms hmem⟩
  cases ref with
  | index i => exact hindex i
  | implicit => exact hindex 0
  | placeholder => exact hplaceholder

theorem weighs_environmentName (h : c.Weighs args x s y s') :
    c.Weighs args x s y (environmentName s').2 := by
  unfold environmentName
  split
  · exact h.withRest _
  · exact h

/-! ## Arrays -/

/-- An empty row has no weight. -/
theorem weight_withoutEmptyLast (w : Label → Nat) (rows : List (List (List Atom))) :
    weight w (withoutEmptyLast rows).flatten.flatten = weight w rows.flatten.flatten := by
  unfold withoutEmptyLast
  split
  · rename_i row before hrev
    have hrows : rows = (row :: before).reverse ++ [[[]]] := by
      rw [← List.reverse_reverse rows, hrev, List.reverse_cons]
    rw [hrows]
    simp [weight_append]
  · rfl

theorem weight_rows_cons (w : Label → Nat) (cells : List (List Atom))
    (rows : List (List (List Atom))) :
    weight w (cells.reverse :: rows).flatten.flatten =
      weight w cells.flatten + weight w rows.flatten.flatten := by
  rw [List.flatten_cons, List.flatten_append, weight_append, weight_flatten, List.map_reverse,
    List.sum_reverse, ← weight_flatten]

theorem weight_rows_reverse (w : Label → Nat) (rows : List (List (List Atom))) :
    weight w rows.reverse.flatten.flatten = weight w rows.flatten.flatten := by
  refine weight_perm w (List.Perm.flatten ?_)
  exact (List.reverse_perm rows).flatten

/-- The rows of an array that is over, the last one still in the making. -/
theorem weight_finishedRows (w : Label → Nat) (cells : List (List Atom))
    (rows : List (List (List Atom))) :
    weight w (withoutEmptyLast (cells.reverse :: rows).reverse).flatten.flatten =
      weight w cells.flatten + weight w rows.flatten.flatten := by
  rw [weight_withoutEmptyLast, weight_rows_reverse, weight_rows_cons]

/-- A cell is added to a row in the making. -/
theorem Weighed.addCell {r : List Atom × Reader} (h : c.Weighed args [] s r)
    (cells : List (List Atom)) (rows : List (List (List Atom))) :
    c.Weighs args (weight c.label cells.flatten + weight c.label rows.flatten.flatten) s
      (weight c.label (r.1 :: cells).flatten + weight c.label rows.flatten.flatten) r.2 := by
  have hboth := h.weighs.add (weight c.label cells.flatten + weight c.label rows.flatten.flatten)
  rw [weight_nil, Nat.zero_add, ← Nat.add_assoc] at hboth
  rw [List.flatten_cons, weight_append]
  exact hboth

theorem makes_newArray (c : Scale) (name : String) (rows : List (List (List Atom))) (n : Nat) :
    c.Makes (weight c.label rows.flatten.flatten) n (weight c.label [(newArray name rows n).1])
      (newArray name rows n).2 := by
  have hcell (content : List Atom) (n : Nat) := makes_newWrapper c (rfl : Kind.shape .cell = _)
    none content n
  have hrow (cells : List (List Atom)) (n : Nat) : c.Makes (weight c.label cells.flatten) n
      (weight c.label [(newRow cells n).1]) (newRow cells n).2 := by
    have hcells := makes_mapM (f := newCell) hcell cells n
    have hwrapper := makes_newWrapper c (rfl : Kind.shape .row = _) none (cells.mapM newCell n).1
      (cells.mapM newCell n).2
    rw [weight_flatten]
    exact hcells.trans hwrapper
  have hrows := makes_mapM hrow rows n
  have hwrapper := makes_newWrapper c (rfl : Kind.shape .array = _) (some name)
    (rows.mapM newRow n).1 (rows.mapM newRow n).2
  have hsum : weight c.label rows.flatten.flatten =
      (rows.map fun cells => weight c.label cells.flatten).sum := by
    rw [List.flatten_flatten, weight_flatten, List.map_map]
    rfl
  rw [newArray_eq, hsum]
  exact hrows.trans hwrapper

/-! ## Commands with arguments -/

/-- All arguments of a command become content of its atom. -/
theorem makes_newWithArguments (c : Scale) {name : String} {m : Meaning}
    (hf : Vocabulary.find? name = some m) (ht : m.action.takesArguments = true)
    {contents : List (List Atom)} (hl : contents.length = m.arity) {index : Option (List Atom)}
    (hi : m.action ≠ .radical → index = none) (command : String) (n : Nat) :
    c.Makes ((contents.map (weight c.label)).sum + weight c.label (index.getD [])) n
      (weight c.label [(newWithArguments m.action command contents index n).1])
      (newWithArguments m.action command contents index n).2 := by
  have harity := Vocabulary.arity_of_takesArguments hf ht
  have hwrapper (kind : Kind) (hs : kind.shape = .sequence) (hone : m.arity = 1)
      (hnone : index = none) :
      c.Makes ((contents.map (weight c.label)).sum + weight c.label (index.getD [])) n
        (weight c.label [(newWrapper kind (some command) (contents.getD 0 []) n).1])
        (newWrapper kind (some command) (contents.getD 0 []) n).2 := by
    rw [hone] at hl
    obtain ⟨content, rfl⟩ := List.length_eq_one_iff.1 hl
    rw [hnone]
    exact makes_newWrapper c hs (some command) content n
  cases haction : m.action with
  | fraction =>
      rw [haction, if_pos rfl] at harity
      rw [harity] at hl
      obtain ⟨num, den, rfl⟩ := List.length_eq_two.1 hl
      rw [hi (by simp [haction])]
      exact makes_newFraction c command num den n
  | radical =>
      rw [haction, if_neg (by simp)] at harity
      rw [harity] at hl
      obtain ⟨radicand, rfl⟩ := List.length_eq_one_iff.1 hl
      exact makes_newRadical c radicand index n
  | accent glyph =>
      have hone := hwrapper .accent rfl (by simpa [haction] using harity) (hi (by simp [haction]))
      have hglyph := weight_mapLabel c.label (fun l => { l with glyph := some glyph })
        (newWrapper .accent (some command) (contents.getD 0 []) n).1
      exact ⟨hone.le, Eq.trans (congrArg (· + c.given n) (Nat.add_right_cancel hglyph)) hone.weight⟩
  | font => exact hwrapper .font rfl (by simpa [haction] using harity) (hi (by simp [haction]))
  | text => exact hwrapper .text rfl (by simpa [haction] using harity) (hi (by simp [haction]))
  | _ =>
      rw [haction] at ht
      cases ht

/-! ## What is pushed -/

/-- The content of a group is paid for, and the group takes one identity from the supply. -/
theorem weighed_pushGroup (h : c.Weighs args 0 s (weight c.label content) s') :
    c.Weighed args done s (push done (newWrapper .group none content) s') := by
  have hmakes := makes_newWrapper c (rfl : Kind.shape .group = .sequence) none content s'.supply
  refine weighed_push (h.mint hmakes) fun he => ?_
  exact isLight_newGroup (he.mono h.supply).spare content

theorem weighed_pushArray {rows : List (List (List Atom))}
    (h : c.Weighs args 0 s (weight c.label rows.flatten.flatten) s') (name : String) :
    c.Weighed args done s (push done (newArray name rows) s') :=
  weighed_push (h.mint (makes_newArray c name rows s'.supply)) fun _ =>
    isLight_of_not_isBareGroup rfl

theorem weighed_pushWithArguments {name : String} {m : Meaning}
    (hf : Vocabulary.find? name = some m) (ht : m.action.takesArguments = true)
    {contents : List (List Atom)} (hl : contents.length = m.arity) {index : Option (List Atom)}
    (hi : m.action ≠ .radical → index = none)
    (h : c.Weighs args 0 s
      ((contents.map (weight c.label)).sum + weight c.label (index.getD [])) s')
    (command : String) :
    c.Weighed args done s (push done (newWithArguments m.action command contents index) s') := by
  have hmakes := makes_newWithArguments c hf ht hl hi command s'.supply
  have hkind : (newWithArguments m.action command contents index s'.supply).1.kind ≠ .group :=
    ne_of_mem_of_not_mem (kind_newWithArguments ht command contents index _) (by decide)
  exact weighed_push (h.mint hmakes) fun _ =>
    isLight_of_not_isBareGroup (isBareGroup_of_kind hkind)

end

end Scale

end FormulaEditor

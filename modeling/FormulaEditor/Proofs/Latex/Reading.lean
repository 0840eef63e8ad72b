import FormulaEditor.Latex.Reader
import FormulaEditor.Proofs.Formula.Making

/-!
# What the reader makes

Reading makes atoms in a few ways: from characters, from commands, around sequences read before, and
by adding scripts to the latest atom. What is closed under these ways holds of every atom that is
read. Some of the ways go with a problem that is reported; in a strict reading these are left out,
and the conclusion holds where no problem was reported.
-/

namespace FormulaEditor.Latex

/-- Whether a command makes an atom around arguments that are read after it. -/
def Action.takesArguments : Action → Bool
  | fraction | radical | accent _ | font | text => true
  | symbol .. | function | space | placeholder | beginEnvironment | endEnvironment | newRow => false

/-- A command takes arguments if it is none of the others. -/
theorem Action.takesArguments_of_not {action : Action}
    (hsymbol : ∀ kind glyph, action = .symbol kind glyph → False)
    (hfunction : action = .function → False) (hspace : action = .space → False)
    (hplaceholder : action = .placeholder → False) (hrow : action = .newRow → False)
    (hend : action = .endEnvironment → False) (hbegin : action = .beginEnvironment → False) :
    action.takesArguments = true := by
  cases action with
  | symbol kind glyph => exact (hsymbol kind glyph rfl).elim
  | function => exact (hfunction rfl).elim
  | space => exact (hspace rfl).elim
  | placeholder => exact (hplaceholder rfl).elim
  | newRow => exact (hrow rfl).elim
  | endEnvironment => exact (hend rfl).elim
  | beginEnvironment => exact (hbegin rfl).elim
  | _ => rfl

theorem Action.not_allowedInText {action : Action} (h : action.takesArguments = true) :
    action.allowedInText = false := by
  cases action <;> first | rfl | cases h

/-- How the arguments of a command are read. -/
def Action.argumentMode (action : Action) : ReadingMode :=
  if action = .text then .text else .math

/-- The rows of an array: none is without a cell, and everything in a cell has the property. -/
def Rows (P : Atom → Prop) (rows : List (List (List Atom))) : Prop :=
  ∀ cells ∈ rows, cells ≠ [] ∧ ∀ content ∈ cells, ∀ a ∈ content, P a

namespace Reader

/-- The kinds of the atoms that commands make around their arguments. -/
theorem kind_newWithArguments {action : Action} (ht : action.takesArguments = true)
    (command : String) (contents : List (List Atom)) (index : Option (List Atom)) (n : Nat) :
    (newWithArguments action command contents index n).1.kind ∈
      [Kind.fraction, .radical, .accent, .font, .text] := by
  cases action with
  | fraction => exact List.mem_cons_self
  | radical => exact .tail _ (.head _)
  | accent glyph => exact .tail _ (.tail _ (.head _))
  | font => exact .tail _ (.tail _ (.tail _ (.head _)))
  | text => exact .tail _ (.tail _ (.tail _ (.tail _ (.head _))))
  | _ => cases ht

theorem length_rest_lt {s : Reader} {t : SpannedToken} {rest : List SpannedToken}
    (h : s.rest = t :: rest) : (s.withRest rest).rest.length < s.rest.length := by
  simp [withRest, h]

theorem length_capped_lt {s : Reader} {t : SpannedToken} {rest : List SpannedToken}
    (h : s.rest = t :: rest) (s' : Reader) :
    (s'.capped rest.length).rest.length < s.rest.length := by
  have hle := length_capped s' rest.length
  rw [h, List.length_cons]
  omega

/-! ## Later states -/

/-- A state that reading leads to: it has fewer tokens left and more problems behind it. -/
structure LeadsTo (s s' : Reader) : Prop where
  rest : s'.rest <:+ s.rest
  problems : s.problems.length ≤ s'.problems.length

namespace LeadsTo

theorem refl (s : Reader) : s.LeadsTo s :=
  ⟨List.suffix_refl _, Nat.le_refl _⟩

theorem trans {s s' s'' : Reader} (h : s.LeadsTo s') (h' : s'.LeadsTo s'') : s.LeadsTo s'' :=
  ⟨h'.rest.trans h.rest, Nat.le_trans h.problems h'.problems⟩

theorem capped {s s' : Reader} (h : s.LeadsTo s') (n : Nat) : s.LeadsTo (s'.capped n) :=
  ⟨(List.drop_suffix _ _).trans h.rest, h.problems⟩

theorem withRest {s s' : Reader} (h : s.LeadsTo s') {rest : List SpannedToken}
    (hr : rest <:+ s'.rest) : s.LeadsTo (s'.withRest rest) :=
  ⟨hr.trans h.rest, h.problems⟩

theorem skip {s s' : Reader} (h : s.LeadsTo s') : s.LeadsTo s'.skip :=
  h.withRest (List.tail_suffix _)

theorem mint {s s' : Reader} (h : s.LeadsTo s') {α : Type} (m : Minting α) :
    s.LeadsTo (s'.mint m).2 :=
  ⟨h.rest, h.problems⟩

theorem report {s s' : Reader} (h : s.LeadsTo s') (span : Span) (problem : Problem) :
    s.LeadsTo (s'.report span problem) :=
  ⟨h.rest, Nat.le_succ_of_le h.problems⟩

theorem forall_tokens {s s' : Reader} (h : s.LeadsTo s') {T : Token → Prop}
    (hs : ∀ t ∈ s.rest, T t.token) : ∀ t ∈ s'.rest, T t.token :=
  fun t ht => hs t (h.rest.subset ht)

end LeadsTo

theorem leadsTo_rest {s : Reader} {t : SpannedToken} {rest : List SpannedToken}
    (h : s.rest = t :: rest) : s.LeadsTo (s.withRest rest) :=
  (LeadsTo.refl s).withRest (h ▸ List.suffix_cons t rest)

theorem leadsTo_rewind (s s' : Reader) : s.LeadsTo (s.rewind s') :=
  ⟨List.suffix_refl _, Nat.le_refl _⟩

/-- No problem was reported on the way, if the reading is strict. -/
def Quiet (strict : Prop) (s s' : Reader) : Prop :=
  strict → s'.problems.length ≤ s.problems.length

/-- The two halves of a quiet way are quiet. -/
theorem Quiet.split {strict : Prop} {s s' s'' : Reader} (h : Quiet strict s s'')
    (h₁ : s.LeadsTo s') (h₂ : s'.LeadsTo s'') : Quiet strict s s' ∧ Quiet strict s' s'' := by
  have hle₁ := h₁.problems
  have hle₂ := h₂.problems
  refine ⟨fun hs => ?_, fun hs => ?_⟩
  · exact Nat.le_trans hle₂ (h hs)
  · exact Nat.le_trans (h hs) hle₁

theorem not_strict_of_report {strict : Prop} {s s' : Reader} {span : Span} {problem : Problem}
    (hl : s.LeadsTo s') (h : Quiet strict s (s'.report span problem)) : ¬strict := by
  intro hs
  have hle := h hs
  have hge := hl.problems
  simp only [report, List.length_cons] at hle
  omega

end Reader

/-! ## Closed properties -/

section

open Reader

/-- A command may be taken as unknown outside of text if it has no meaning, or if its meaning goes with
arguments, which may be missing. -/
def MayBeUnknown (mode : ReadingMode) (name : String) : Prop :=
  ∀ m, mode = .math → Vocabulary.find? name = some m →
    m.action.takesArguments = true ∨ m.action = .beginEnvironment

/-- A property of atoms that is kept by all ways in which the reader makes atoms from tokens with the
property `T`. -/
structure ReadingClosed (args : List (List Atom)) (strict : Prop) (T : Token → Prop)
    (P : ReadingMode → Atom → Prop) : Prop where
  char {c : Char} (n : Nat) : T (.char c) → c ≠ Text.Quoted.singleQuote →
    P .math (newMathChar c n).1
  textChar {c : Char} (n : Nat) : T (.char c) → P .text (Atom.newChar .ordinary c n).1
  prime (mode : ReadingMode) (n : Nat) : P mode (newPrime n).1
  placeholder (mode : ReadingMode) (n : Nat) : P mode (Atom.placeholder n)
  group {mode : ReadingMode} {atoms : List Atom} (n : Nat) : (∀ a ∈ atoms, P mode a) →
    P mode (Atom.newWrapper .group none atoms n).1
  body {mode : ReadingMode} {a : Atom} : P mode a → a.isBareGroup = true → ∀ b ∈ a.body, P mode b
  script {mode : ReadingMode} {a : Atom} {slot : Slot} {content : List Atom} : P mode a →
    a.kind.allowsScripts = true → slot.isScript = true → content ≠ [] →
    (∀ b ∈ content, P mode b) → P mode (a.putBranch slot (some content))
  superscript {mode : ReadingMode} {a : Atom} {sup : List Atom} : P mode a →
    a.branch .superscript = some sup → ∀ b ∈ sup, P mode b
  argument {i : Nat} {atoms : List Atom} (mode : ReadingMode) : args[i]? = some atoms →
    ∀ a ∈ atoms, P mode a
  copy {i : Nat} {atoms : List Atom} (mode : ReadingMode) (n : Nat) : args[i]? = some atoms →
    ∀ a ∈ (Atom.relabelList atoms n).1, P mode a
  alignment (mode : ReadingMode) (n : Nat) : ¬strict → T .alignment →
    P mode (Atom.newChar .ordinary '&' n).1.markError
  duplicate (mode : ReadingMode) (n : Nat) : ¬strict → P mode (Atom.placeholder n).markError
  unknown {name : String} (mode : ReadingMode) (n : Nat) : ¬strict → T (.control name) →
    MayBeUnknown mode name → P mode (newUnknownCommand (Vocabulary.command name) n).1
  symbol {name : String} {m : Meaning} {kind : Kind} {glyph : Char} (mode : ReadingMode) (n : Nat) :
    T (.control name) → Vocabulary.find? name = some m → m.action = .symbol kind glyph →
    P mode (Atom.newLeaf kind (some (Vocabulary.command name)) (some glyph) n).1
  function {name : String} {m : Meaning} (n : Nat) : T (.control name) →
    Vocabulary.find? name = some m → m.action = .function →
    P .math (Atom.newLeaf .operator (some (Vocabulary.command name)) none n).1
  space {name : String} {m : Meaning} (mode : ReadingMode) (n : Nat) : T (.control name) →
    Vocabulary.find? name = some m → m.action = .space →
    P mode (Atom.newLeaf .space (some (Vocabulary.command name)) none n).1
  array {environment : String} {rows : List (List (List Atom))} (n : Nat) :
    Vocabulary.isArrayEnvironment environment = true → rows ≠ [] → Rows (P .math) rows →
    P .math (newArray environment rows n).1
  withArguments {name : String} {m : Meaning} {contents : List (List Atom)}
    {index : Option (List Atom)} (n : Nat) : T (.control name) →
    Vocabulary.find? name = some m → m.action.takesArguments = true →
    contents.length = m.arity → (∀ content ∈ contents, ∀ a ∈ content, P m.action.argumentMode a) →
    (∀ content, index = some content → ∀ a ∈ content, P .math a) →
    P .math (newWithArguments m.action (Vocabulary.command name) contents index n).1

/-- What reading leaves behind: a later state and, where it was quiet, atoms with the property if
those before had it. -/
structure Reads (strict : Prop) (P : Atom → Prop) (done : List Atom) (s : Reader)
    (r : List Atom × Reader) : Prop where
  leadsTo : s.LeadsTo r.2
  atoms : Quiet strict s r.2 → (∀ a ∈ done, P a) → ∀ a ∈ r.1, P a

variable {args : List (List Atom)} {strict : Prop} {T : Token → Prop}
  {P : ReadingMode → Atom → Prop} {mode : ReadingMode} {done : List Atom} {s s' : Reader}

theorem reads_push (hl : s.LeadsTo s') {m : Minting Atom}
    (hm : Quiet strict s s' → P mode (m s'.supply).1) :
    Reads strict (P mode) done s (push done m s') := by
  refine ⟨hl.mint m, fun hq hd a ha => ?_⟩
  rcases List.mem_cons.1 ha with rfl | ha
  · exact hm hq
  · exact hd a ha

theorem reads_pushUnknown (hc : ReadingClosed args strict T P) (hl : s.LeadsTo s') {name : String}
    (ht : T (.control name)) (hm : MayBeUnknown mode name) (problem : Problem) (span : Span) :
    Reads strict (P mode) done s (pushUnknown done (Vocabulary.command name) problem span s') :=
  reads_push (hl.report span problem) fun hq =>
    hc.unknown mode _ (not_strict_of_report hl hq) ht hm

/-- Attaching a script that an atom does not have puts the content there, or leaves the atom as it
is where the content is empty. -/
theorem withBranch_apply {a : Atom} {slot : Slot} (hk : a.kind.allowsScripts = true)
    (hs : slot.isScript = true) (hb : a.branch slot = none) (content : List Atom) (n : Nat) :
    (withBranch a slot content n).1 =
      if content = [] then a else a.putBranch slot (some content) := by
  have hopt := Slot.isOptional_of_isScript hs
  have hallowed : a.kind.allowsSlot slot = true := by
    cases slot <;> first | exact hk | cases hs
  simp only [withBranch, Minting.bind_apply, newIdentity_apply, Minting.pure_apply]
  split
  · rename_i he
    rw [he, Atom.setBranch_nil_of_isOptional a hopt, Option.getD_some, ← hb, Atom.putBranch_branch]
  · rename_i hne
    rw [Atom.setBranch_of_ne_nil a hne hopt hallowed, Option.getD_some]

theorem ReadingClosed.withBranch (hc : ReadingClosed args strict T P) {a : Atom} {slot : Slot}
    {content : List Atom} (ha : P mode a) (hk : a.kind.allowsScripts = true)
    (hs : slot.isScript = true) (hb : a.branch slot = none) (h : ∀ b ∈ content, P mode b) (n : Nat) :
    P mode (withBranch a slot content n).1 := by
  rw [withBranch_apply hk hs hb]
  split
  · exact ha
  · rename_i hne
    exact hc.script ha hk hs hne h

theorem reads_attachScript (hc : ReadingClosed args strict T P) {slot : Slot}
    (hs : slot.isScript = true) {content : List Atom} (span : Span) (hl : s.LeadsTo s')
    (hcontent : Quiet strict s s' → ∀ a ∈ content, P mode a) :
    Reads strict (P mode) done s (attachScript slot content done span s') := by
  have hkind (n : Nat) : (Atom.placeholder n).kind.allowsScripts = true := rfl
  unfold attachScript
  cases done with
  | nil =>
      exact reads_push hl fun hq => hc.withBranch (hc.placeholder mode _) (hkind _) hs
        (Atom.branch_placeholder _ slot) (hcontent hq) _
  | cons last before =>
      simp only
      split
      · rename_i hallowed
        split
        · rename_i hnone
          rw [Option.isNone_iff_eq_none] at hnone
          refine ⟨hl.mint (withBranch last slot content), fun hq hd a ha => ?_⟩
          rcases List.mem_cons.1 ha with rfl | ha
          · exact hc.withBranch (hd last List.mem_cons_self) hallowed hs hnone (hcontent hq) _
          · exact hd a (List.mem_cons_of_mem last ha)
        · refine reads_push (hl.report span .duplicateScript) fun hq => ?_
          have hstrict := not_strict_of_report hl hq
          refine hc.withBranch (hc.duplicate mode s'.supply hstrict) (hkind s'.supply) hs ?_
            (hcontent fun h => absurd h hstrict) _
          rw [Atom.markError, Atom.branch_mapMarks]
          exact Atom.branch_placeholder _ slot
      · exact reads_push hl fun hq => hc.withBranch (hc.placeholder mode _) (hkind _) hs
          (Atom.branch_placeholder _ slot) (hcontent hq) _

theorem reads_attachPrime (hc : ReadingClosed args strict T P) (span : Span) (hl : s.LeadsTo s') :
    Reads strict (P mode) done s (attachPrime done span s') := by
  have hprime : ∀ a ∈ [(s'.mint newPrime).1], P mode a := by
    intro a ha
    rw [List.mem_singleton.1 ha]
    exact hc.prime mode s'.supply
  have hattach : Reads strict (P mode) done s
      (attachScript .superscript [(s'.mint newPrime).1] done span (s'.mint newPrime).2) :=
    reads_attachScript hc rfl span (hl.mint newPrime) fun _ => hprime
  unfold attachPrime
  simp only
  split
  · rename_i last before
    split
    · rename_i sup hsup
      split
      · rename_i hall
        rw [Bool.and_eq_true] at hall
        refine ⟨hl.mint newPrime, fun _ hd a ha => ?_⟩
        rcases List.mem_cons.1 ha with rfl | ha
        · have hlast := hd last List.mem_cons_self
          refine hc.script hlast hall.1 rfl (by simp) fun b hb => ?_
          rcases List.mem_append.1 hb with hb | hb
          · exact hc.superscript hlast hsup b hb
          · exact hprime b hb
        · exact hd a (List.mem_cons_of_mem last ha)
      · exact hattach
    · exact hattach
  · exact hattach

theorem reads_substitute (hc : ReadingClosed args strict T P) (mode : ReadingMode)
    (ref : ArgumentRef) (hl : s.LeadsTo s') :
    s.LeadsTo (substitute args ref s').2 ∧ ∀ a ∈ (substitute args ref s').1, P mode a := by
  have hplaceholder : ∀ a ∈ (s'.mint (Atom.filled [])).1, P mode a := by
    intro a ha
    rw [List.mem_singleton.1 ha]
    exact hc.placeholder mode s'.supply
  have hargument (i : Nat) : s.LeadsTo (substitute args (.index i) s').2 ∧
      ∀ a ∈ (substitute args (.index i) s').1, P mode a := by
    simp only [substitute]
    split
    · exact ⟨hl.mint _, hplaceholder⟩
    · exact ⟨hl.mint _, hplaceholder⟩
    · rename_i atoms hi
      split
      · exact ⟨hl.mint _, hc.copy mode _ hi⟩
      · exact ⟨⟨hl.rest, hl.problems⟩, hc.argument mode hi⟩
  cases ref with
  | index i => exact hargument i
  | implicit => exact hargument 0
  | placeholder => exact ⟨hl.mint _, hplaceholder⟩

theorem nameChars_suffix (rest : List SpannedToken) : (nameChars rest).2 <:+ rest := by
  induction rest with
  | nil => exact List.suffix_refl _
  | cons t rest ih =>
      simp only [nameChars]
      split
      · exact List.suffix_cons t rest
      · exact List.suffix_cons t rest
      · exact ih.trans (List.suffix_cons t rest)
      · exact ih.trans (List.suffix_cons t rest)

theorem leadsTo_environmentName (hl : s.LeadsTo s') : s.LeadsTo (environmentName s').2 := by
  unfold environmentName
  split
  · exact hl.withRest ((nameChars_suffix _).trans (List.tail_suffix _))
  · exact hl

theorem forall_unprotected (hc : ReadingClosed args strict T P) {atoms : List Atom}
    (h : ∀ a ∈ atoms, P mode a) : ∀ a ∈ unprotected atoms, P mode a := by
  unfold unprotected
  split
  · rename_i a
    split
    · rename_i hbare
      exact hc.body (h a List.mem_cons_self) hbare
    · exact h
  · exact h

/-- Leaving out an empty row at the end leaves rows. -/
theorem rows_withoutEmptyLast {Q : Atom → Prop} {rows : List (List (List Atom))}
    (h : Rows Q rows) (hne : rows ≠ []) :
    Rows Q (withoutEmptyLast rows) ∧ withoutEmptyLast rows ≠ [] := by
  unfold withoutEmptyLast
  split
  · rename_i row before hrev
    refine ⟨fun cells hmem => h cells ?_, by simp⟩
    have hmem' : cells ∈ rows.reverse := by
      rw [hrev]
      exact List.mem_cons_of_mem _ (List.mem_reverse.1 hmem)
    exact List.mem_reverse.1 hmem'
  · exact ⟨h, hne⟩

theorem math_of_allowed {mode : ReadingMode} {action : Action}
    (h : (mode == .math || action.allowedInText) = true) (ha : action.allowedInText = false) :
    mode = .math := by
  simpa [ha] using h

/-! ## Every reading function -/

theorem Reads.of_leadsTo {P : Atom → Prop} {r : List Atom × Reader} (hl : s.LeadsTo s')
    (h : Reads strict P done s' r) : Reads strict P done s r :=
  ⟨hl.trans h.leadsTo, fun hq => h.atoms (hq.split hl h.leadsTo).2⟩

theorem Reads.same {P : Atom → Prop} (hl : s.LeadsTo s') : Reads strict P done s (done, s') :=
  ⟨hl, fun _ hd => hd⟩

mutual

theorem reads_readItems (hc : ReadingClosed args strict T P) (stop : Stop) (mode : ReadingMode)
    (done : List Atom) (s : Reader) (hs : ∀ t ∈ s.rest, T t.token) :
    Reads strict (P mode) done s (readItems args stop mode done s) := by
  have hend : Reads strict (P mode) done s (done.reverse, s) :=
    ⟨.refl s, fun _ hd a ha => hd a (List.mem_reverse.1 ha)⟩
  unfold readItems
  split
  · exact hend
  · rename_i t rest hrest
    split
    · exact hend
    · have hitem := reads_readItem hc mode done s hs
      have hcap := hitem.leadsTo.capped rest.length
      have hlt := length_capped_lt hrest (readItem args mode done s).2
      have hitems := reads_readItems hc stop mode (readItem args mode done s).1
        ((readItem args mode done s).2.capped rest.length) (hcap.forall_tokens hs)
      refine ⟨hcap.trans hitems.leadsTo, fun hq hd => ?_⟩
      obtain ⟨hq₁, hq₂⟩ := hq.split hcap hitems.leadsTo
      exact hitems.atoms hq₂ (hitem.atoms hq₁ hd)
termination_by 4 * s.rest.length + 1
decreasing_by
  all_goals omega

theorem reads_readItem (hc : ReadingClosed args strict T P) (mode : ReadingMode)
    (done : List Atom) (s : Reader) (hs : ∀ t ∈ s.rest, T t.token) :
    Reads strict (P mode) done s (readItem args mode done s) := by
  unfold readItem
  split
  · exact Reads.same (.refl s)
  · rename_i t rest hrest
    have hafter := leadsTo_rest hrest
    have hlt := length_rest_lt hrest
    have hs' := hafter.forall_tokens hs
    have ht : T t.token := hs t (hrest ▸ List.mem_cons_self)
    simp only
    split
    · exact Reads.same hafter
    · exact (reads_readScript hc rfl mode done t.span (s.withRest rest) hs').of_leadsTo hafter
    · exact (reads_readScript hc rfl mode done t.span (s.withRest rest) hs').of_leadsTo hafter
    · rename_i c heq
      rw [heq] at ht
      split
      · split
        · exact reads_attachPrime hc t.span hafter
        · rename_i hne
          exact reads_push hafter fun _ => hc.char _ ht hne
      · exact reads_push hafter fun _ => hc.textChar _ ht
    · have hgroup := reads_readGroup hc mode (s.withRest rest) hs'
      have hl := hafter.trans hgroup.leadsTo
      refine reads_push hl fun hq => hc.group _ ?_
      exact hgroup.atoms (hq.split hafter hgroup.leadsTo).2 (by simp)
    · exact Reads.same (hafter.report t.span .unmatchedClose)
    · rename_i heq
      rw [heq] at ht
      refine reads_push (hafter.report t.span (.disallowedChar '&')) fun hq => ?_
      exact hc.alignment mode _ (not_strict_of_report hafter hq) ht
    · rename_i ref heq
      have hsub := reads_substitute hc mode ref hafter
      refine ⟨hsub.1, fun _ hd a ha => ?_⟩
      rcases List.mem_append.1 ha with ha | ha
      · exact hsub.2 a (List.mem_reverse.1 ha)
      · exact hd a ha
    · rename_i name heq
      rw [heq] at ht
      exact (reads_readCommand hc ht t.span mode done (s.withRest rest) hs').of_leadsTo hafter
termination_by 4 * s.rest.length
decreasing_by
  all_goals omega

theorem reads_readGroup (hc : ReadingClosed args strict T P) (mode : ReadingMode) (s : Reader)
    (hs : ∀ t ∈ s.rest, T t.token) : Reads strict (P mode) [] s (readGroup args mode s) := by
  have hitems := reads_readItems hc .group mode [] s hs
  unfold readGroup
  simp only
  split
  · exact ⟨hitems.leadsTo.skip, hitems.atoms⟩
  · exact hitems
termination_by 4 * s.rest.length + 2

theorem reads_readArgument (hc : ReadingClosed args strict T P) (mode : ReadingMode) (s : Reader)
    (hs : ∀ t ∈ s.rest, T t.token) :
    s.LeadsTo (readArgument args mode s).2 ∧
      (Quiet strict s (readArgument args mode s).2 →
        ∀ content, (readArgument args mode s).1 = some content → ∀ a ∈ content, P mode a) := by
  unfold readArgument
  split
  · exact ⟨.refl s, fun _ content h => by cases h⟩
  · rename_i t rest hrest
    have hafter := leadsTo_rest hrest
    have hlt := length_rest_lt hrest
    split
    · have hgroup := reads_readGroup hc mode (s.withRest rest) (hafter.forall_tokens hs)
      refine ⟨hafter.trans hgroup.leadsTo, fun hq content h => ?_⟩
      cases h
      exact hgroup.atoms (hq.split hafter hgroup.leadsTo).2 (by simp)
    · split
      · exact ⟨.refl s, fun _ content h => by cases h⟩
      · have hitem := reads_readItem hc mode [] s hs
        refine ⟨hitem.leadsTo, fun hq content h a ha => ?_⟩
        cases h
        exact hitem.atoms hq (by simp) a (List.mem_reverse.1 ha)
termination_by 4 * s.rest.length + 1
decreasing_by
  all_goals omega

theorem reads_readScript (hc : ReadingClosed args strict T P) {slot : Slot}
    (hslot : slot.isScript = true) (mode : ReadingMode) (done : List Atom) (span : Span)
    (s : Reader) (hs : ∀ t ∈ s.rest, T t.token) :
    Reads strict (P mode) done s (readScript args slot mode done span s) := by
  have hargument := reads_readArgument hc mode s hs
  unfold readScript
  simp only
  split
  · rename_i content hcontent
    exact reads_attachScript hc hslot span hargument.1 fun hq => hargument.2 hq content hcontent
  · refine reads_attachScript hc hslot span
      ((hargument.1.report span .missingArgument).mint _) fun _ a ha => ?_
    rw [List.mem_singleton.1 ha]
    exact hc.placeholder mode _
termination_by 4 * s.rest.length + 2

theorem reads_readArguments (hc : ReadingClosed args strict T P) (mode : ReadingMode) (count : Nat)
    (s : Reader) (hs : ∀ t ∈ s.rest, T t.token) :
    s.LeadsTo (readArguments args mode count s).2 ∧
      (Quiet strict s (readArguments args mode count s).2 →
        ∀ contents, (readArguments args mode count s).1 = .ok contents →
          contents.length = count ∧ ∀ content ∈ contents, ∀ a ∈ content, P mode a) := by
  cases count with
  | zero =>
      rw [readArguments]
      refine ⟨.refl s, fun _ contents h => ?_⟩
      cases h
      exact ⟨rfl, by simp⟩
  | succ count =>
      rw [readArguments]
      split
      · exact ⟨.refl s, fun _ contents h => by cases h⟩
      · rename_i t rest hrest
        have hfirst := reads_readArgument hc mode s hs
        simp only
        split
        · exact ⟨hfirst.1, fun _ contents h => by cases h⟩
        · rename_i content hcontent
          have hcap := hfirst.1.capped rest.length
          have hlt := length_capped_lt hrest (readArgument args mode s).2
          have hothers := reads_readArguments hc mode count
            ((readArgument args mode s).2.capped rest.length) (hcap.forall_tokens hs)
          split
          · rename_i contents hcontents
            refine ⟨hcap.trans hothers.1, fun hq all h => ?_⟩
            cases h
            obtain ⟨hq₁, hq₂⟩ := hq.split hcap hothers.1
            obtain ⟨hlength, hall⟩ := hothers.2 hq₂ contents hcontents
            refine ⟨by rw [List.length_cons, hlength], fun c hmem => ?_⟩
            rcases List.mem_cons.1 hmem with rfl | hmem
            · exact hfirst.2 hq₁ c hcontent
            · exact hall c hmem
          · exact ⟨hcap.trans hothers.1, fun _ contents h => by cases h⟩
termination_by 4 * s.rest.length + 2
decreasing_by
  all_goals omega

theorem reads_readIndex (hc : ReadingClosed args strict T P) (s : Reader)
    (hs : ∀ t ∈ s.rest, T t.token) :
    s.LeadsTo (readIndex args s).2 ∧ (Quiet strict s (readIndex args s).2 →
      ∀ content, (readIndex args s).1 = some content → ∀ a ∈ content, P .math a) := by
  unfold readIndex
  split
  · exact ⟨.refl s, fun _ content h => by cases h⟩
  · rename_i t rest hrest
    have hafter := leadsTo_rest hrest
    have hlt := length_rest_lt hrest
    split
    · have hitems := reads_readItems hc .bracket .math [] (s.withRest rest)
        (hafter.forall_tokens hs)
      have hatoms (hq : Quiet strict s (readItems args .bracket .math [] (s.withRest rest)).2) :
          ∀ a ∈ unprotected (readItems args .bracket .math [] (s.withRest rest)).1, P .math a :=
        forall_unprotected hc (hitems.atoms (hq.split hafter hitems.leadsTo).2 (by simp))
      simp only
      split
      · refine ⟨(hafter.trans hitems.leadsTo).skip, fun hq content h => ?_⟩
        cases h
        exact hatoms hq
      · refine ⟨hafter.trans hitems.leadsTo, fun hq content h => ?_⟩
        cases h
        exact hatoms hq
    · exact ⟨.refl s, fun _ content h => by cases h⟩
termination_by 4 * s.rest.length + 2
decreasing_by
  all_goals omega

theorem reads_readRows (hc : ReadingClosed args strict T P) (name : String) (span : Span)
    (cells : List (List Atom)) (rows : List (List (List Atom))) (s : Reader)
    (hs : ∀ t ∈ s.rest, T t.token) :
    s.LeadsTo (readRows args name span cells rows s).2 ∧
      (Quiet strict s (readRows args name span cells rows s).2 →
        (∀ content ∈ cells, ∀ a ∈ content, P .math a) → Rows (P .math) rows →
          Rows (P .math) (readRows args name span cells rows s).1 ∧
            (readRows args name span cells rows s).1 ≠ []) := by
  have hitems := reads_readItems hc .cell .math [] s hs
  have hcap := hitems.leadsTo.capped s.rest.length
  have hcells (hq : Quiet strict s (readItems args .cell .math [] s).2)
      (hd : ∀ content ∈ cells, ∀ a ∈ content, P .math a) :
      ∀ content ∈ (readItems args .cell .math [] s).1 :: cells, ∀ a ∈ content, P .math a := by
    intro content hmem
    rcases List.mem_cons.1 hmem with rfl | hmem
    · exact hitems.atoms hq (by simp)
    · exact hd content hmem
  have hrow (hq : Quiet strict s (readItems args .cell .math [] s).2)
      (hd : ∀ content ∈ cells, ∀ a ∈ content, P .math a) (hr : Rows (P .math) rows) :
      Rows (P .math) (((readItems args .cell .math [] s).1 :: cells).reverse :: rows) := by
    intro row hmem
    rcases List.mem_cons.1 hmem with rfl | hmem
    · exact ⟨by simp, fun content h => hcells hq hd content (List.mem_reverse.1 h)⟩
    · exact hr row hmem
  have hfinished (hq : Quiet strict s (readItems args .cell .math [] s).2)
      (hd : ∀ content ∈ cells, ∀ a ∈ content, P .math a) (hr : Rows (P .math) rows) :=
    rows_withoutEmptyLast (fun row hmem => hrow hq hd hr row (List.mem_reverse.1 hmem))
      (List.reverse_ne_nil_iff.2 (List.cons_ne_nil _ _))
  unfold readRows
  simp only
  split
  · refine ⟨hcap.report span _, fun hq => hfinished (hq.split hcap ?_).1⟩
    exact (LeadsTo.refl _).report span _
  · rename_i t rest hrest
    have hafter := hcap.withRest (hrest ▸ List.suffix_cons t rest)
    have hlt : (((readItems args .cell .math [] s).2.capped s.rest.length).withRest rest).rest.length <
        s.rest.length :=
      Nat.lt_of_lt_of_le (length_rest_lt hrest) (length_capped _ _)
    have hreport := (LeadsTo.refl ((readItems args .cell .math [] s).2.capped
      s.rest.length)).report span (.unclosedEnvironment name)
    split
    · have hrest' := reads_readRows hc name span ((readItems args .cell .math [] s).1 :: cells) rows
        _ (hafter.forall_tokens hs)
      refine ⟨hafter.trans hrest'.1, fun hq hd hr => ?_⟩
      obtain ⟨hq₁, hq₂⟩ := hq.split hafter hrest'.1
      exact hrest'.2 hq₂ (hcells hq₁ hd) hr
    · split
      · have hrest' := reads_readRows hc name span []
          (((readItems args .cell .math [] s).1 :: cells).reverse :: rows)
          _ (hafter.forall_tokens hs)
        refine ⟨hafter.trans hrest'.1, fun hq hd hr => ?_⟩
        obtain ⟨hq₁, hq₂⟩ := hq.split hafter hrest'.1
        exact hrest'.2 hq₂ (by simp) (hrow hq₁ hd hr)
      · split
        · have hended := leadsTo_environmentName hafter
          have hend := leadsTo_environmentName (LeadsTo.refl
            (((readItems args .cell .math [] s).2.capped s.rest.length).withRest rest))
          split
          · exact ⟨hended, fun hq => hfinished (hq.split hafter hend).1⟩
          · exact ⟨hended.report t.span _, fun hq =>
              hfinished (hq.split hafter (hend.report t.span _)).1⟩
        · exact ⟨hcap.report span _, fun hq => hfinished (hq.split hcap hreport).1⟩
    · exact ⟨hcap.report span _, fun hq => hfinished (hq.split hcap hreport).1⟩
termination_by 4 * s.rest.length + 2
decreasing_by
  all_goals omega

theorem reads_readCommand (hc : ReadingClosed args strict T P) {name : String}
    (ht : T (.control name)) (span : Span) (mode : ReadingMode) (done : List Atom) (s : Reader)
    (hs : ∀ t ∈ s.rest, T t.token) :
    Reads strict (P mode) done s (readCommand args name span mode done s) := by
  unfold readCommand
  simp only
  split
  · rename_i hfilter
    refine reads_pushUnknown hc (.refl s) ht (fun m hmode hfind => ?_) _ span
    rw [hmode, hfind] at hfilter
    cases hfilter
  · rename_i meaning hfilter
    obtain ⟨hfind, hallowed⟩ := Option.filter_eq_some_iff.1 hfilter
    split
    · rename_i kind glyph haction
      exact reads_push (.refl s) fun _ => hc.symbol mode _ ht hfind haction
    · rename_i haction
      obtain rfl := math_of_allowed hallowed (by rw [haction]; rfl)
      exact reads_push (.refl s) fun _ => hc.function _ ht hfind haction
    · rename_i haction
      exact reads_push (.refl s) fun _ => hc.space mode _ ht hfind haction
    · split
      · exact reads_push (LeadsTo.refl s).skip.skip fun _ => hc.placeholder mode _
      · exact reads_push (.refl s) fun _ => hc.placeholder mode _
    · exact Reads.same (.refl s)
    · exact Reads.same (leadsTo_environmentName ((LeadsTo.refl s).report span .unmatchedClose))
    · rename_i haction
      obtain rfl := math_of_allowed hallowed (by rw [haction]; rfl)
      split
      · refine reads_pushUnknown hc (.refl s) ht (fun m _ hm => .inr ?_) _ span
        rw [← Option.some.inj (hfind.symm.trans hm)]
        exact haction
      · rename_i environment henvironment
        have hnamed := leadsTo_environmentName (LeadsTo.refl s)
        split
        · rename_i hknown
          have hcap := hnamed.capped s.rest.length
          have hlt := length_capped (environmentName s).2 s.rest.length
          have hrows := reads_readRows hc environment span [] [] _ (hcap.forall_tokens hs)
          have hl := hcap.trans hrows.1
          refine reads_push hl fun hq => ?_
          have hall := hrows.2 (hq.split hcap hrows.1).2 (by simp) (by simp [Rows])
          exact hc.array _ hknown hall.2 hall.1
        · have hcap := (hnamed.report span (.unknownEnvironment environment)).capped s.rest.length
          have hlt := length_capped ((environmentName s).2.report span
            (.unknownEnvironment environment)) s.rest.length
          have hrows := reads_readRows hc environment span [] [] _ (hcap.forall_tokens hs)
          have hl := hcap.trans hrows.1
          refine reads_push hl fun hq => hc.group _ fun a ha => ?_
          have hall := hrows.2 (hq.split hcap hrows.1).2 (by simp) (by simp [Rows])
          obtain ⟨content, hcontent, ha⟩ := List.mem_flatten.1 ha
          obtain ⟨row, hrow, hcontent⟩ := List.mem_flatten.1 hcontent
          exact (hall.1 row hrow).2 content hcontent a ha
    · rename_i hsymbol hfunction hspace hplaceholder hrow hend hbegin
      have htakes := Action.takesArguments_of_not hsymbol hfunction hspace hplaceholder hrow hend hbegin
      obtain rfl := math_of_allowed hallowed (Action.not_allowedInText htakes)
      have hindex : s.LeadsTo (if meaning.action = .radical then readIndex args s else (none, s)).2 ∧
          (Quiet strict s (if meaning.action = .radical then readIndex args s else (none, s)).2 →
            ∀ content, (if meaning.action = .radical then readIndex args s else (none, s)).1 =
              some content → ∀ a ∈ content, P .math a) := by
        split
        · exact reads_readIndex hc s hs
        · exact ⟨.refl s, fun _ content h => by cases h⟩
      generalize (if meaning.action = .radical then readIndex args s else (none, s)) = index at hindex ⊢
      have hcap := hindex.1.capped s.rest.length
      have hlt := length_capped index.2 s.rest.length
      have harguments := reads_readArguments hc meaning.action.argumentMode meaning.arity _
        (hcap.forall_tokens hs)
      unfold Action.argumentMode at harguments
      split
      · rename_i contents hcontents
        refine reads_push (hcap.trans harguments.1) fun hq => ?_
        obtain ⟨hq₁, hq₂⟩ := hq.split hcap harguments.1
        obtain ⟨hlength, hall⟩ := harguments.2 hq₂ contents hcontents
        exact hc.withArguments _ ht hfind htakes hlength hall (hindex.2 hq₁)
      · refine reads_pushUnknown hc (leadsTo_rewind s _) ht (fun m _ hm => .inl ?_) _ span
        rw [← Option.some.inj (hfind.symm.trans hm)]
        exact htakes
termination_by 4 * s.rest.length + 3

end

/-- What holds of every atom is closed under reading, so that what is known of a reading in general is
known of each. -/
theorem readingClosed_true (args : List (List Atom)) :
    ReadingClosed args False (fun _ => True) fun _ _ => True := by
  constructor <;> intros <;> trivial

/-- Whatever a command is read as, its tokens are used up. -/
theorem leadsTo_readCommand (args : List (List Atom)) (name : String) (span : Span)
    (mode : ReadingMode) (done : List Atom) (s : Reader) :
    s.LeadsTo (readCommand args name span mode done s).2 :=
  (reads_readCommand (readingClosed_true args) trivial span mode done s fun _ _ => trivial).leadsTo

/-- What is closed under reading holds of everything that is read from a token stream. -/
theorem forall_parse (hc : ReadingClosed args strict T P) {tokens : List SpannedToken}
    (ht : ∀ t ∈ tokens, T t.token) (mode : ReadingMode) (supply : Nat)
    (hq : strict → (parse tokens mode args supply).1.diagnostics = []) :
    ∀ a ∈ (parse tokens mode args supply).1.atoms, P mode a := by
  have hread := reads_readItems hc .endOfInput mode [] (Reader.start tokens supply) ht
  refine hread.atoms (fun hs => ?_) (by simp)
  have hnil := hq hs
  simp only [parse, readAll, List.reverse_eq_nil_iff] at hnil
  simp [hnil]

end

end FormulaEditor.Latex

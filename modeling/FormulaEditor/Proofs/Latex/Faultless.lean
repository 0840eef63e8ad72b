import FormulaEditor.Proofs.Latex.Legible

/-!
# Formulas that are read without a problem

What is read without a problem, and without commands for text, is legible in the strict sense,
whatever the tokens after it are.
-/

namespace FormulaEditor

/-- The atom without its scripts. -/
def Atom.nucleus (a : Atom) : Atom :=
  (a.putBranch .superscript none).putBranch .subscript none

namespace Latex

open Atom (bare)

variable {textless flawless : Prop} {mode : ReadingMode} {k : List Token} {a b : Atom} {atoms : List Atom}

theorem Legible.of_bare_eq (h : Legible textless flawless mode k a) (hb : b.bare = a.bare) :
    Legible textless flawless mode k b := by
  cases h with
  | char hs hc hprime ha => exact .char hs hc hprime (hb.trans ha)
  | textChar hc ha => exact .textChar hc (hb.trans ha)
  | symbol hf haction ha => exact .symbol hf haction (hb.trans ha)
  | function hf haction ha => exact .function hf haction (hb.trans ha)
  | space hf haction ha => exact .space hf haction (hb.trans ha)
  | unknown hs hfind hn hname hk ha => exact .unknown hs hfind hn hname hk (hb.trans ha)
  | placeholder ha => exact .placeholder (hb.trans ha)
  | group hc ha => exact .group hc (hb.trans ha)
  | withArguments hs hi hc hx ha => exact .withArguments hs hi hc hx (hb.trans ha)
  | array hn hg hc ha => exact .array hn hg hc (hb.trans ha)
  | script hl hs hk hnone hsup hne hc ha => exact .script hl hs hk hnone hsup hne hc (hb.trans ha)

/-- A command without a meaning stands for itself, whatever follows it. -/
theorem isStranded_of_find?_eq_none {name : String} (hf : Vocabulary.find? name = none)
    (mode : ReadingMode) (k : List Token) : IsStranded mode name k := by
  intro span done s hs
  rw [Reader.readCommand.eq_def]
  simp only [hf, Option.filter_none]
  exact ⟨rfl, _, rfl⟩

/-- Where every command that is kept as it is written lacks a meaning, what follows an atom does not
matter. -/
theorem Legible.anywhere (h : Legible True flawless mode k a) (k' : List Token) :
    Legible True flawless mode k' a := by
  induction h generalizing k' with
  | char hs hc hprime ha => exact .char hs hc hprime ha
  | textChar hc ha => exact .textChar hc ha
  | symbol hf haction ha => exact .symbol hf haction ha
  | function hf haction ha => exact .function hf haction ha
  | space hf haction ha => exact .space hf haction ha
  | unknown hs hfind hn hname hk ha =>
      exact .unknown hs hfind hn hname (isStranded_of_find?_eq_none (hfind trivial) _ _) ha
  | placeholder ha => exact .placeholder ha
  | group hc ha ih => exact .group (fun before a after heq => ih before a after heq _) ha
  | withArguments hs hi hc hx ha ihc ihx =>
      exact .withArguments hs hi
        (fun before content after heq before' a after' heq' =>
          ihc before content after heq before' a after' heq' _)
        (fun atoms hatoms before a after heq => ihx atoms hatoms before a after heq _) ha
  | array hn hg hc ha ih =>
      exact .array hn hg (fun above cells below hrows before content after heq before' a after' heq' =>
        ih above cells below hrows before content after heq before' a after' heq' _) ha
  | script hl hs hk hnone hsup hne hc ha ih ihc =>
      exact .script (ih _) hs hk hnone hsup hne (fun before a after heq => ihc before a after heq _) ha

theorem InPlace.of_forall (h : ∀ a ∈ atoms, Legible True flawless mode [] a) (k : List Token) :
    InPlace (Legible True flawless mode) k atoms := by
  intro before a after heq
  exact (h a (by rw [heq]; simp)).anywhere _

/-! ## Parts of legible atoms -/

theorem hasScripts_of_bare_eq (h : a.bare = b.bare) : a.hasScripts = b.hasScripts := by
  have hsome (slot : Slot) : (a.branch slot).isSome = (b.branch slot).isSome := by
    rw [← Option.isSome_map, Atom.branch_of_bare_eq h slot, Option.isSome_map]
  simp only [Atom.hasScripts, hsome]

/-- An atom without scripts that is no group. -/
structure IsSimple (a : Atom) : Prop where
  scripts : a.hasScripts = false
  kind : a.kind ≠ .group

theorem isSimple_newMathChar (c : Char) (n : Nat) : IsSimple (Reader.newMathChar c n).1 := by
  have hkind : (Reader.charKind c).1 ≠ .group := by
    unfold Reader.charKind
    split <;> nofun
  unfold Reader.newMathChar
  split
  · exact ⟨rfl, nofun⟩
  · split
    · exact ⟨rfl, nofun⟩
    · exact ⟨rfl, hkind⟩

theorem isSimple_newWithArguments {action : Action} (ht : action.takesArguments = true)
    (command : String) (contents : List (List Atom)) (index : Option (List Atom)) (n : Nat) :
    IsSimple (Reader.newWithArguments action command contents index n).1 := by
  cases action with
  | fraction | radical | accent glyph | font | text => exact ⟨rfl, nofun⟩
  | _ => cases ht

theorem isSimple_newArray (name : String) (rows : List (List (List Atom))) (n : Nat) :
    IsSimple (Reader.newArray name rows n).1 :=
  ⟨rfl, nofun⟩

theorem nucleus_of_unscripted (h : a.hasScripts = false) : a.nucleus = a := by
  simp only [Atom.hasScripts, Bool.or_eq_false_iff, Option.isSome_eq_false_iff,
    Option.isNone_iff_eq_none] at h
  obtain ⟨hsup, hsub⟩ := h
  have hsup' : a.putBranch .superscript none = a := hsup ▸ Atom.putBranch_branch a .superscript
  rw [Atom.nucleus, hsup', ← hsub, Atom.putBranch_branch]

theorem bare_nucleus (a : Atom) : a.nucleus.bare = a.bare.nucleus := by
  simp [Atom.nucleus, Atom.bare_putBranch]

theorem body_putBranch {slot : Slot} (hs : slot.isScript = true) (a : Atom)
    (content : Option (List Atom)) : (a.putBranch slot content).body = a.body := by
  cases slot <;> first | rfl | cases hs

theorem nucleus_putBranch {slot : Slot} (hs : slot.isScript = true) (a : Atom)
    (content : Option (List Atom)) : (a.putBranch slot content).nucleus = a.nucleus := by
  cases slot <;> first | rfl | cases hs

/-- What a legible atom without text consists of. -/
structure Parts (flawless : Prop) (mode : ReadingMode) (a : Atom) : Prop where
  nucleus : Legible True flawless mode [] a.nucleus
  script : ∀ slot atoms, slot.isScript = true → a.branch slot = some atoms →
    a.kind.allowsScripts = true ∧ atoms ≠ [] ∧ ∀ b ∈ atoms, Legible True flawless mode [] b
  body : a.kind = .group → ∀ b ∈ a.body, Legible True flawless mode [] b

theorem legible_of_map_bare_eq {atoms' : List Atom} (h : ∀ a ∈ atoms, Legible textless flawless mode k a)
    (hb : atoms'.map bare = atoms.map bare) : ∀ a ∈ atoms', Legible textless flawless mode k a := by
  intro a ha
  have hmem : a.bare ∈ atoms.map bare := hb ▸ List.mem_map_of_mem ha
  obtain ⟨b, hmem, hbare⟩ := List.mem_map.1 hmem
  exact (h b hmem).of_bare_eq hbare.symm

theorem Parts.of_unscripted (h : Legible True flawless mode k a) (hs : a.hasScripts = false)
    (hbody : a.kind = .group → ∀ b ∈ a.body, Legible True flawless mode [] b) : Parts flawless mode a := by
  refine ⟨nucleus_of_unscripted hs ▸ h.anywhere [], fun slot atoms hslot hb => ?_, hbody⟩
  rw [Atom.hasScripts_eq_false.1 hs slot hslot] at hb
  cases hb

theorem Legible.parts (h : Legible True flawless mode k a) : Parts flawless mode a := by
  have hsimple {mode : ReadingMode} {a b : Atom} (hl : Legible True flawless mode [] a)
      (ha : a.bare = b.bare) (hb : IsSimple b) : Parts flawless mode a := by
    refine .of_unscripted hl ((hasScripts_of_bare_eq ha).trans hb.scripts) fun hk => ?_
    exact absurd ((Atom.kind_of_bare_eq ha).symm.trans hk) hb.kind
  induction h with
  | char hs hc hprime ha => exact hsimple (.char hs hc hprime ha) ha (isSimple_newMathChar _ _)
  | textChar hc ha => exact hsimple (.textChar hc ha) ha ⟨rfl, nofun⟩
  | symbol hf haction ha =>
      refine hsimple (.symbol hf haction ha) ha ⟨rfl, ?_⟩
      rintro rfl
      cases (Vocabulary.isSpelled_of_symbol hf haction).1
  | function hf haction ha => exact hsimple (.function hf haction ha) ha ⟨rfl, nofun⟩
  | space hf haction ha => exact hsimple (.space hf haction ha) ha ⟨rfl, nofun⟩
  | unknown hs hfind hn hname hk ha =>
      exact hsimple ((Legible.unknown hs hfind hn hname hk ha).anywhere []) ha ⟨rfl, nofun⟩
  | placeholder ha => exact hsimple (.placeholder ha) ha ⟨rfl, nofun⟩
  | @group mode k a atoms hc ha ih =>
      refine .of_unscripted (.group hc ha) (hasScripts_of_bare_eq ha) fun _ => ?_
      have hatoms : ∀ b ∈ atoms, Legible True flawless mode [] b :=
        forall_mem_of_append fun before b after heq => (hc before b after heq).anywhere []
      exact legible_of_map_bare_eq hatoms (Atom.body_of_bare_eq ha)
  | withArguments hs hi hc hx ha ihc ihx =>
      exact hsimple ((Legible.withArguments hs hi hc hx ha).anywhere []) ha
        (isSimple_newWithArguments hi.takesArguments _ _ _ _)
  | array hn hg hc ha ih =>
      exact hsimple ((Legible.array hn hg hc ha).anywhere []) ha (isSimple_newArray _ _ _)
  | @script mode k a b slot atoms hl hs hk hnone hsup hne hc ha ih ihc =>
      have hatoms : ∀ c ∈ atoms, Legible True flawless mode [] c :=
        forall_mem_of_append fun before c after heq => (hc before c after heq).anywhere []
      have hbranch (other : Slot) := Atom.branch_of_bare_eq ha other
      have hkind : b.kind = a.kind :=
        (Atom.kind_of_bare_eq ha).trans (Atom.kind_putBranch a slot (some atoms))
      refine ⟨ih.nucleus.of_bare_eq ?_, fun other atoms' hother hb => ?_, fun hgroup => ?_⟩
      · rw [bare_nucleus, ha, ← bare_nucleus, nucleus_putBranch hs]
      · have hother' := hbranch other
        rw [hb] at hother'
        by_cases heq : other = slot
        · rw [heq, Atom.branch_putBranch_self, Option.map_some, Option.map_some, Option.some.injEq]
            at hother'
          refine ⟨hkind ▸ hk, fun hnil => hne ((Atom.nil_of_map_bare_eq hother').1 hnil), ?_⟩
          exact legible_of_map_bare_eq hatoms hother'
        · rw [Atom.branch_putBranch_of_ne a heq, Option.map_some] at hother'
          obtain ⟨content, hcontent, hmap⟩ := Option.map_eq_some_iff.1 hother'.symm
          obtain ⟨hk', hne', hall⟩ := ih.script other content hother hcontent
          refine ⟨hkind ▸ hk', fun hnil => hne' ((Atom.nil_of_map_bare_eq hmap.symm).1 hnil), ?_⟩
          exact legible_of_map_bare_eq hall hmap.symm
      · have hbody := Atom.body_of_bare_eq ha
        rw [body_putBranch hs] at hbody
        exact legible_of_map_bare_eq (ih.body (hkind ▸ hgroup)) hbody

/-- An atom of legible parts is legible. -/
theorem Parts.legible (h : Parts flawless mode a) : Legible True flawless mode k a := by
  have hscript {c : Atom} (hc : Legible True flawless mode [] c) {slot : Slot} (hs : slot.isScript = true)
      (hkind : c.kind = a.kind) (hnone : c.branch slot = none) (hsup : c.branch .superscript = none)
      (content : Option (List Atom)) (hcontent : a.branch slot = content) :
      Legible True flawless mode [] (c.putBranch slot content) := by
    cases content with
    | none => rwa [← hnone, Atom.putBranch_branch]
    | some atoms =>
        obtain ⟨hk, hne, hatoms⟩ := h.script slot atoms hs hcontent
        exact .script (hc.anywhere _) hs (hkind ▸ hk) hnone hsup hne (InPlace.of_forall hatoms _) rfl
  have hsub := hscript h.nucleus (rfl : Slot.isScript .subscript = true) rfl rfl rfl _ rfl
  have hsup := hscript hsub (rfl : Slot.isScript .superscript = true) rfl rfl rfl _ rfl
  have heq : (a.nucleus.putBranch .subscript (a.branch .subscript)).putBranch .superscript
      (a.branch .superscript) = a := by
    cases a
    rfl
  exact (heq ▸ hsup).anywhere k

/-! ## Reading -/

theorem legible_placeholder (n : Nat) : Legible textless flawless .math k (Atom.placeholder n) :=
  .placeholder rfl

theorem legible_fill (h : ∀ a ∈ atoms, Legible True flawless .math [] a) :
    ∀ a ∈ Atom.fill atoms, Legible True flawless .math [] a := by
  by_cases hne : atoms = []
  · subst hne
    intro a ha
    rw [List.mem_singleton.1 ha]
    exact legible_placeholder 0
  · rwa [Atom.fill_of_ne_nil hne]

/-- The tokens of a source without text in which every character is written as it stands. -/
structure IsMathSource (T : Token → Prop) : Prop where
  isMathChar : ∀ c, T (.char c) → isMathChar c = true
  isLiteral : ∀ c, T (.char c) → isLiteral c = true
  not_text : ∀ name m, T (.control name) → Vocabulary.find? name = some m → m.action ≠ .text

theorem legible_newWithArguments {name : String} {m : Meaning} {contents : List (List Atom)}
    {index : Option (List Atom)} (hf : Vocabulary.find? name = some m)
    (ht : m.action.takesArguments = true) (htext : m.action ≠ .text)
    (hl : contents.length = m.arity)
    (hc : ∀ content ∈ contents, ∀ a ∈ content, Legible True flawless .math [] a)
    (hi : ∀ content, index = some content → ∀ a ∈ content, Legible True flawless .math [] a) (n : Nat) :
    Legible True flawless .math k
      (Reader.newWithArguments m.action (Vocabulary.command name) contents index n).1 := by
  have hmode : m.action.argumentMode = .math := if_neg htext
  have hmem {content : List Atom} (hmem : content ∈ contents.map Atom.fill) :
      content ≠ [] ∧ ∀ a ∈ content, Legible True flawless .math [] a := by
    obtain ⟨content, hcontent, rfl⟩ := List.mem_map.1 hmem
    exact ⟨Atom.fill_ne_nil content, legible_fill (hc content hcontent)⟩
  let index' := if m.action = .radical then Atom.nonemptyIndex index else none
  have hindex {atoms : List Atom} (h : index' = some atoms) :
      m.action = .radical ∧ atoms ≠ [] ∧ index = some atoms := by
    obtain ⟨hr, h⟩ := Option.ite_none_right_eq_some.1 h
    obtain ⟨h, hne⟩ := Option.filter_eq_some_iff.1 h
    exact ⟨hr, by simpa using hne, h⟩
  have happlication : IsApplication name m (contents.map Atom.fill) index' :=
    ⟨hf, ht, by rw [List.length_map, hl], fun _ content h => (hmem h).1,
      fun atoms h => ⟨(hindex h).1, (hindex h).2.1⟩⟩
  refine .withArguments (fun _ => htext) happlication (fun before content after heq => ?_) (fun atoms h => ?_)
    (bare_newWithArguments ht _ ?_ (fun hr => ?_) n 0)
  · rw [hmode]
    exact InPlace.of_forall (hmem (by rw [heq]; simp)).2 _
  · exact InPlace.of_forall (hi atoms (hindex h).2.2) _
  · simp [fillArgument, htext, Atom.fill_fill]
  · have hfilter : Atom.nonemptyIndex index' = Atom.nonemptyIndex index := by
      simp [index', hr, Atom.nonemptyIndex, Option.filter_filter]
    rw [hfilter]

theorem legible_newArray {name : String} {rows : List (List (List Atom))}
    (hn : Vocabulary.isArrayEnvironment name = true) (hne : rows ≠ [])
    (h : Rows (Legible True flawless .math []) rows) (n : Nat) :
    Legible True flawless .math k (Reader.newArray name rows n).1 := by
  have hmem {cells : List (List Atom)} (hmem : cells ∈ rows.map (List.map Atom.fill)) :
      cells ≠ [] ∧ ∀ content ∈ cells, content ≠ [] ∧ ∀ a ∈ content, Legible True flawless .math [] a := by
    obtain ⟨cells, hcells, rfl⟩ := List.mem_map.1 hmem
    refine ⟨by simpa using (h cells hcells).1, fun content hcontent => ?_⟩
    obtain ⟨content, hc, rfl⟩ := List.mem_map.1 hcontent
    exact ⟨Atom.fill_ne_nil content, legible_fill ((h cells hcells).2 content hc)⟩
  have hgrid : IsGrid (rows.map (List.map Atom.fill)) :=
    ⟨by simpa using hne, fun cells hcells =>
      ⟨(hmem hcells).1, fun content hcontent => ((hmem hcells).2 content hcontent).1⟩⟩
  refine .array hn hgrid (fun above cells below hrows before content after heq => ?_)
    (bare_newArray name ?_ n 0)
  · have hcells : cells ∈ rows.map (List.map Atom.fill) := by
      rw [hrows]
      simp
    replace hcells := hmem hcells
    exact InPlace.of_forall (hcells.2 content (by rw [heq]; simp)).2 _
  · simp [Function.comp_def, Atom.fill_fill]

/-- Legibility in the strict sense is closed under strict reading. -/
theorem readingClosed_legible {T : Token → Prop} (hT : IsMathSource T) :
    ReadingClosed [] True T fun mode a => mode = .math → Legible True True .math [] a where
  char n hc hprime _ := .char (fun _ => hT.isMathChar _ hc) (hT.isLiteral _ hc) hprime (bare_newMathChar _ _ _)
  textChar n _ := nofun
  prime mode n _ := .symbol Vocabulary.find?_prime rfl rfl
  placeholder mode n _ := legible_placeholder n
  group {mode atoms} n h hm := by
    subst hm
    exact .group (InPlace.of_forall (fun a ha => h a ha rfl) _) (Atom.bare_newGroup rfl _ _)
  body {mode a} h hbare b hb hm := by
    have hkind : a.kind = .group := by simp_all [Atom.isBareGroup]
    exact (h hm).parts.body hkind b hb
  script {mode a slot content} h hk hs hne hc hm := by
    subst hm
    obtain ⟨hnucleus, hscript, hbody⟩ := (h rfl).parts
    refine Parts.legible ⟨(nucleus_putBranch hs a _).symm ▸ hnucleus, fun other atoms ho hb => ?_,
      (body_putBranch hs a _).symm ▸ hbody⟩
    by_cases heq : other = slot
    · rw [heq, Atom.branch_putBranch_self, Option.some.injEq] at hb
      subst hb
      exact ⟨hk, hne, fun b hb => hc b hb rfl⟩
    · rw [Atom.branch_putBranch_of_ne a heq] at hb
      exact hscript other atoms ho hb
  superscript {mode a sup} h hsup b hb hm := ((h hm).parts.script .superscript sup rfl hsup).2.2 b hb
  argument mode hi := by simp at hi
  copy mode n hi := by simp at hi
  alignment mode n h := absurd trivial h
  duplicate mode n h := absurd trivial h
  unknown mode n h := absurd trivial h
  symbol mode n _ hf ha _ := .symbol hf ha rfl
  function n _ hf ha _ := .function hf ha rfl
  space mode n _ hf ha _ := .space hf ha rfl
  array n hn hne hr _ :=
    legible_newArray hn hne (fun cells hc =>
      ⟨(hr cells hc).1, fun content hcontent a ha => (hr cells hc).2 content hcontent a ha rfl⟩) n
  withArguments {name m contents index} n ht hf htakes hl hc hi _ := by
    have htext := hT.not_text name m ht hf
    have hmode : m.action.argumentMode = .math := if_neg htext
    exact legible_newWithArguments hf htakes htext hl
      (fun content hcontent a ha => hc content hcontent a ha hmode)
      (fun content hcontent a ha => hi content hcontent a ha rfl) n

end Latex

end FormulaEditor

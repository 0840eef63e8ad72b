import FormulaEditor.Proofs.Formula.Consisting
import FormulaEditor.Proofs.Latex.RoundTrip

/-!
# Formulas that can be read back

Whether reading gives back a formula that was written can be told atom by atom. The spelling of an
atom determines with which kind and glyph it is read, the parts of a grid have to stand in a grid,
and no grid may be empty. Nothing else matters: neither where the formula comes from, nor whether
commands without a meaning are in it.
-/

namespace FormulaEditor

namespace Latex

/-! ## Spellings -/

/-- The kind and the glyph that a command outside of text gives its atom. Text and the marks of the
structure of a formula have none. -/
def Action.look? : Action → Option (Kind × Option Char)
  | symbol kind glyph => some (kind, some glyph)
  | function => some (.operator, none)
  | space => some (.space, none)
  | fraction => some (.fraction, none)
  | radical => some (.radical, none)
  | accent glyph => some (.accent, some glyph)
  | font => some (.font, none)
  | text | placeholder | beginEnvironment | endEnvironment | newRow => none

/-- The kind and the glyph with which a command is read. -/
def commandLook? (name : String) : Option (Kind × Option Char) :=
  match Vocabulary.find? name with
  | some m => m.action.look?
  | none => if isProperName name.toList then some (.unknownCommand, none) else none

/-- The kind and the glyph with which a character is read. -/
def charLook? (c : Char) : Option (Kind × Option Char) :=
  let a := (Reader.newMathChar c 0).1
  if isMathChar c && isLiteral c && c != Text.Quoted.singleQuote then some (a.kind, a.glyph) else none

/-- The kind and the glyph with which something spelled in a certain way is read. -/
def look? : List Char → Option (Kind × Option Char)
  | '\\' :: name => commandLook? (String.ofList name)
  | [c] => charLook? c
  | _ => none

end Latex

/-- Whether what an atom is written as is read with the label of the atom. The top of a formula is
not written. -/
def Label.isReadable (l : Label) : Bool :=
  match l.kind with
  | .root | .placeholder | .group | .row | .cell => l.value.isNone && l.glyph.isNone
  | .array => l.value.any Latex.Vocabulary.isArrayEnvironment && l.glyph.isNone
  | kind => (l.value.bind fun v => Latex.look? v.toList) == some (kind, l.glyph)

/-- The property of labels that what an atom is written as is read with its label. -/
def Label.Readable (l : Label) : Prop :=
  l.isReadable = true

namespace Atom

/-- Whether an atom and everything below it can be read back. -/
def isReadable (a : Atom) : Bool :=
  a.subatoms.all fun b => b.label.isReadable &&
    b.slots.all fun slot => fitsBranch b.kind slot ((b.branch slot).getD [])

theorem isReadable_iff_consistsOf (a : Atom) :
    a.isReadable = true ↔ a.ConsistsOf Label.Readable := by
  have hslots (b : Atom) :
      (b.slots.all fun slot => fitsBranch b.kind slot ((b.branch slot).getD [])) = true ↔
        ∀ slot atoms, b.branch slot = some atoms → fitsBranch b.kind slot atoms = true := by
    simp only [slots, List.all_eq_true, Branches.mem_slots, Option.isSome_iff_exists]
    refine ⟨fun h slot atoms hb => ?_, fun h slot hsome => ?_⟩
    · simpa [hb] using h slot ⟨atoms, hb⟩
    · obtain ⟨atoms, hb⟩ := hsome
      have hbranch : b.branch slot = some atoms := hb
      simpa [hbranch] using h slot atoms hb
  unfold isReadable ConsistsOf
  rw [List.all_eq_true]
  simp only [Bool.and_eq_true, hslots, Label.Readable]

end Atom

namespace Latex

/-- Whether a formula can be read back. -/
def isReadable (atoms : List Atom) : Bool :=
  atoms.all fun a => a.kind.isItem && a.isReadable

/-! ## Labels -/

variable {kind : Kind} {glyph : Option Char} {value : String}

theorem eq_command {name : List Char} (h : value.toList = '\\' :: name) :
    value = Vocabulary.command (String.ofList name) := by
  rw [← String.toList_inj, Writer.toList_command, h, String.toList_ofList]

theorem eq_singleton {c : Char} (h : value.toList = [c]) : value = String.singleton c := by
  rw [← String.toList_inj, h, String.toList_singleton]

/-- What has a look is a command with a meaning, a command without one, or a character. -/
theorem look?_cases (h : look? value.toList = some (kind, glyph)) :
    (∃ name m, value = Vocabulary.command name ∧ Vocabulary.find? name = some m ∧
      m.action.look? = some (kind, glyph)) ∨
    (∃ name, value = Vocabulary.command name ∧ Vocabulary.find? name = none ∧
      isProperName name.toList = true ∧ kind = .unknownCommand ∧ glyph = none) ∨
    ∃ c, value = String.singleton c ∧ isMathChar c = true ∧ isLiteral c = true ∧
      c ≠ Text.Quoted.singleQuote ∧ (Reader.newMathChar c 0).1.kind = kind ∧
      (Reader.newMathChar c 0).1.glyph = glyph := by
  unfold look? at h
  split at h
  · rename_i name hvalue
    have hcommand := eq_command hvalue
    unfold commandLook? at h
    split at h
    · rename_i m hf
      exact .inl ⟨_, m, hcommand, hf, h⟩
    · rename_i hf
      split at h
      · rename_i hn
        cases h
        exact .inr (.inl ⟨_, hcommand, hf, hn, rfl, rfl⟩)
      · cases h
  · rename_i c _ hvalue
    simp only [charLook?, Option.ite_none_right_eq_some, Bool.and_eq_true, bne_iff_ne,
      Option.some.injEq, Prod.mk.injEq] at h
    obtain ⟨⟨⟨hm, hl⟩, hq⟩, hk, hg⟩ := h
    exact .inr (.inr ⟨c, eq_singleton hvalue, hm, hl, hq, hk, hg⟩)
  · cases h

/-! ## Shapes -/

variable {a b : Atom}

theorem nucleus_bare_eq (hl : a.label.bare = b.label.bare) (hs : b.hasScripts = false)
    (hb : ∀ slot, slot.isScript = false → a.branch slot = b.branch slot) :
    a.nucleus.bare = b.bare := by
  have hbranches : a.nucleus.branches = b.branches := by
    refine Branches.ext_get fun slot => ?_
    change a.nucleus.branch slot = b.branch slot
    cases hslot : slot.isScript with
    | true =>
        rw [Atom.hasScripts_eq_false.1 hs slot hslot]
        cases slot <;> first | rfl | cases hslot
    | false =>
        rw [← hb slot hslot]
        cases slot <;> first | rfl | cases hslot
  obtain ⟨l, bs⟩ := b
  have hnode : a.nucleus = .node a.label bs := by
    rw [← Atom.node_eta a.nucleus, hbranches]
    rfl
  rw [hnode, Atom.bare_node, Atom.bare_node]
  exact congrArg (Atom.node · _) hl

theorem exists_branch (hw : a.isWellFormed = true) (slot : Slot)
    (h : a.kind.hasSlot slot = true) :
    ∃ atoms, a.branch slot = some atoms ∧ (a.kind.fillsSlot slot = true → atoms ≠ []) := by
  cases hb : a.branch slot with
  | none =>
      have hmissing := ((Atom.isWellFormed_iff a).1 hw).1 slot hb
      rw [h] at hmissing
      cases hmissing
  | some atoms => exact ⟨atoms, rfl, (Atom.branchWellFormed hw hb).filled⟩

theorem nucleus_bare_leaf (hw : a.isWellFormed = true) (hs : a.kind.shape = .leaf) :
    a.nucleus.bare = (Atom.leaf 0 a.kind a.value a.glyph).bare := by
  refine nucleus_bare_eq (Atom.bare_label_iff.2 ⟨rfl, rfl, rfl⟩) rfl fun slot hslot => ?_
  rw [Atom.branch_leaf]
  refine Atom.branch_eq_none hw ?_
  cases slot <;> simp_all [Kind.allowsSlot, Kind.hasSlot, Slot.isScript]

theorem nucleus_bare_sequence (hw : a.isWellFormed = true) (hs : a.kind.shape = .sequence)
    {body : List Atom} (hb : a.branch .body = some body) :
    a.nucleus.bare = (Atom.node ⟨0, a.kind, a.value, a.glyph, Marks.none⟩
      { Branches.none with body := some body }).bare := by
  refine nucleus_bare_eq (Atom.bare_label_iff.2 ⟨rfl, rfl, rfl⟩) rfl fun slot hslot => ?_
  by_cases hbody : slot = .body
  · subst hbody
    exact hb
  · have hnone : a.branch slot = none := by
      refine Atom.branch_eq_none hw ?_
      cases slot <;> simp_all [Kind.allowsSlot, Kind.hasSlot, Slot.isScript]
    rw [hnone]
    cases slot <;> first | rfl | exact absurd rfl hbody

theorem nucleus_bare_fraction (hw : a.isWellFormed = true) (hs : a.kind.shape = .fraction)
    {numerator denominator : List Atom} (hn : a.branch .numerator = some numerator)
    (hd : a.branch .denominator = some denominator) :
    a.nucleus.bare = (Atom.node ⟨0, a.kind, a.value, a.glyph, Marks.none⟩
      { Branches.none with numerator := some numerator, denominator := some denominator }).bare := by
  refine nucleus_bare_eq (Atom.bare_label_iff.2 ⟨rfl, rfl, rfl⟩) rfl fun slot hslot => ?_
  cases slot with
  | numerator => exact hn
  | denominator => exact hd
  | superscript | subscript => cases hslot
  | _ => exact Atom.branch_eq_none hw (by simp [Kind.allowsSlot, Kind.hasSlot, hs])

theorem nucleus_bare_radical (hw : a.isWellFormed = true) (hs : a.kind.shape = .radical)
    {radicand : List Atom} (hr : a.branch .radicand = some radicand) :
    a.nucleus.bare = (Atom.node ⟨0, a.kind, a.value, a.glyph, Marks.none⟩
      { Branches.none with index := a.branch .index, radicand := some radicand }).bare := by
  refine nucleus_bare_eq (Atom.bare_label_iff.2 ⟨rfl, rfl, rfl⟩) rfl fun slot hslot => ?_
  cases slot with
  | radicand => exact hr
  | index => rfl
  | superscript | subscript => cases hslot
  | _ => exact Atom.branch_eq_none hw (by simp [Kind.allowsSlot, Kind.hasSlot, hs])

/-! ## Atoms without their scripts -/

/-- The sequences in an atom can be read back. A grid holds none itself: its content is in the cells.
-/
def HasLegibleContent (a : Atom) : Prop :=
  ∀ slot atoms, a.branch slot = some atoms → isGridBody a.kind slot = false →
    ∀ b ∈ atoms, Legible True False .math [] b

section

variable {name : String} {m : Meaning} (hw : a.isWellFormed = true)
  (hf : Vocabulary.find? name = some m) (hv : a.value = some (Vocabulary.command name))

include hf in
theorem legible_of_application (contents : List (List Atom)) (index : Option (List Atom))
    (ht : m.action.takesArguments = true) (htext : m.action ≠ .text)
    (hl : contents.length = if m.action = .fraction then 2 else 1)
    (hc : ∀ content ∈ contents, ∀ b ∈ content, Legible True False .math [] b)
    (hi : ∀ content, index = some content → ∀ b ∈ content, Legible True False .math [] b)
    (hb : b.bare =
      (Reader.newWithArguments m.action (Vocabulary.command name) contents index 0).1.bare) :
    Legible True False .math [] b :=
  (legible_newWithArguments hf ht htext
    (hl.trans (Vocabulary.arity_of_takesArguments hf ht).symm) hc hi 0).of_bare_eq hb

include hw hf hv

theorem legible_nucleus_symbol {kind : Kind} {glyph : Char} (ha : m.action = .symbol kind glyph)
    (hk : a.kind = kind) (hg : a.glyph = some glyph) : Legible True False .math [] a.nucleus := by
  refine .symbol hf ha ?_
  rw [nucleus_bare_leaf hw (hk ▸ Vocabulary.shape_of_symbol hf ha), hk, hv, hg]

theorem legible_nucleus_fraction (hc : HasLegibleContent a) (ha : m.action = .fraction)
    (hk : a.kind = .fraction) (hg : a.glyph = none) : Legible True False .math [] a.nucleus := by
  obtain ⟨num, hnum, hnum_ne⟩ := exists_branch hw .numerator (by rw [hk]; rfl)
  obtain ⟨den, hden, hden_ne⟩ := exists_branch hw .denominator (by rw [hk]; rfl)
  have hcontent := And.intro (hc _ _ hnum (by simp [isGridBody])) (hc _ _ hden (by simp [isGridBody]))
  refine legible_of_application hf [num, den] none (by rw [ha]; rfl)
    (by simp [ha]) (by rw [ha]; rfl) (by simpa using hcontent) (by simp) ?_
  rw [nucleus_bare_fraction hw (by rw [hk]; rfl) hnum hden, ha, newWithArguments_fraction,
    Atom.newFraction_of_ne_nil _ (hnum_ne rfl) (hden_ne rfl), hk, hv, hg]

theorem legible_nucleus_radical (hc : HasLegibleContent a) (ha : m.action = .radical)
    (hk : a.kind = .radical) (hg : a.glyph = none) : Legible True False .math [] a.nucleus := by
  obtain ⟨radicand, hr, hr_ne⟩ := exists_branch hw .radicand (by rw [hk]; rfl)
  have hindex : ((a.branch .index).filter fun atoms => !atoms.isEmpty) = a.branch .index := by
    cases hi : a.branch .index with
    | none => rfl
    | some atoms =>
        have hne := (Atom.branchWellFormed hw hi).filled rfl
        simp [Option.filter, hne]
  refine legible_of_application hf [radicand] (a.branch .index)
    (by rw [ha]; rfl) (by rw [ha]; nofun) (by rw [ha]; rfl)
    (by simpa using hc _ _ hr (by simp [isGridBody])) (fun _ hi => hc _ _ hi (by simp [isGridBody])) ?_
  rw [nucleus_bare_radical hw (by rw [hk]; rfl) hr, ha, newWithArguments_radical,
    Atom.newRadical_of_ne_nil (hr_ne rfl), hindex, hk, hv, hg, Vocabulary.name_of_radical hf ha]
  rfl

theorem legible_nucleus_accent (hc : HasLegibleContent a) {glyph : Char}
    (ha : m.action = .accent glyph) (hk : a.kind = .accent) (hg : a.glyph = some glyph) :
    Legible True False .math [] a.nucleus := by
  obtain ⟨body, hbody, hbody_ne⟩ := exists_branch hw .body (by rw [hk]; rfl)
  have hmade : (Reader.newWithArguments (.accent glyph) (Vocabulary.command name) [body] none 0).1 =
      (Atom.newWrapper .accent (some (Vocabulary.command name)) body 0).1.withGlyph (some glyph) := rfl
  refine legible_of_application hf [body] none (by rw [ha]; rfl)
    (by rw [ha]; nofun) (by rw [ha]; rfl) (by simpa using hc _ _ hbody (by rw [hk]; rfl)) nofun ?_
  rw [nucleus_bare_sequence hw (by rw [hk]; rfl) hbody, ha, hmade,
    Atom.newWrapper_of_ne_nil rfl _ fun _ => hbody_ne (by rw [hk]; rfl), hk, hv, hg]
  rfl

theorem legible_nucleus_font (hc : HasLegibleContent a) (ha : m.action = .font)
    (hk : a.kind = .font) (hg : a.glyph = none) : Legible True False .math [] a.nucleus := by
  obtain ⟨body, hbody, hbody_ne⟩ := exists_branch hw .body (by rw [hk]; rfl)
  have hmade : Reader.newWithArguments .font (Vocabulary.command name) [body] none =
      Atom.newWrapper .font (some (Vocabulary.command name)) body := rfl
  refine legible_of_application hf [body] none (by rw [ha]; rfl)
    (by rw [ha]; nofun) (by rw [ha]; rfl) (by simpa using hc _ _ hbody (by rw [hk]; rfl)) nofun ?_
  rw [nucleus_bare_sequence hw (by rw [hk]; rfl) hbody, ha, hmade,
    Atom.newWrapper_of_ne_nil rfl _ fun _ => hbody_ne (by rw [hk]; rfl), hk, hv, hg]

theorem legible_nucleus_command (hc : HasLegibleContent a)
    (hl : m.action.look? = some (a.kind, a.glyph)) : Legible True False .math [] a.nucleus := by
  cases ha : m.action <;> simp only [ha, Action.look?, Option.some.injEq, Prod.mk.injEq, reduceCtorEq] at hl
  case symbol => exact legible_nucleus_symbol hw hf hv ha hl.1.symm hl.2.symm
  case function =>
    refine .function hf ha ?_
    rw [nucleus_bare_leaf hw (by rw [← hl.1]; rfl), ← hl.1, ← hl.2, hv]
  case space =>
    refine .space hf ha ?_
    rw [nucleus_bare_leaf hw (by rw [← hl.1]; rfl), ← hl.1, ← hl.2, hv]
  case fraction => exact legible_nucleus_fraction hw hf hv hc ha hl.1.symm hl.2.symm
  case radical => exact legible_nucleus_radical hw hf hv hc ha hl.1.symm hl.2.symm
  case accent => exact legible_nucleus_accent hw hf hv hc ha hl.1.symm hl.2.symm
  case font => exact legible_nucleus_font hw hf hv hc ha hl.1.symm hl.2.symm

end

/-- Without a meaning, a command stands for itself. -/
theorem legible_nucleus_unknown (hw : a.isWellFormed = true) {name : String}
    (hv : a.value = some (Vocabulary.command name)) (hf : Vocabulary.find? name = none)
    (hn : isProperName name.toList = true) (hk : a.kind = .unknownCommand) (hg : a.glyph = none) :
    Legible True False .math [] a.nucleus := by
  have hne (other : String) (m : Meaning) (h : Vocabulary.find? other = some m) : name ≠ other := by
    rintro rfl
    rw [hf] at h
    cases h
  refine .unknown not_false (fun _ => hf) hn
    (fun _ => ⟨hne _ _ Vocabulary.find?_newRow, hne _ _ Vocabulary.find?_end⟩)
    (isStranded_of_find?_eq_none hf _ _) ?_
  rw [nucleus_bare_leaf hw (by rw [hk]; rfl), hk, hv, hg]

theorem legible_nucleus_char (hw : a.isWellFormed = true) {c : Char}
    (hv : a.value = some (String.singleton c)) (hm : isMathChar c = true) (hl : isLiteral c = true)
    (hq : c ≠ Text.Quoted.singleQuote) (hk : (Reader.newMathChar c 0).1.kind = a.kind)
    (hg : (Reader.newMathChar c 0).1.glyph = a.glyph) : Legible True False .math [] a.nucleus := by
  have hmade : (Reader.newMathChar c 0).1 = Atom.leaf 0 a.kind a.value a.glyph := by
    rw [← hk, ← hg, hv]
    unfold Reader.newMathChar
    rw [if_neg hq]
    split
    · rename_i htilde
      rw [htilde]
      rfl
    · rfl
  have hshape : a.kind.shape = .leaf := by
    rw [← hk]
    unfold Reader.newMathChar Reader.charKind
    repeat' split
    all_goals rfl
  exact .char (fun _ => hm) hl hq ((nucleus_bare_leaf hw hshape).trans (congrArg Atom.bare hmade.symm))

/-! ## Grids -/

/-- A row or a cell is what is made from its body. -/
theorem bare_newWrapper_part (hw : a.isWellFormed = true) (hkind : a.kind = .row ∨ a.kind = .cell)
    (hv : a.value = none) (hg : a.glyph = none) (n : Nat) :
    (Atom.newWrapper a.kind none a.body n).1.bare = a.bare := by
  have hshape : a.kind.shape = .sequence := by rcases hkind with hk | hk <;> rw [hk] <;> rfl
  have hscripts : a.kind.allowsScripts = false := by rcases hkind with hk | hk <;> rw [hk] <;> rfl
  have hunscripted : a.hasScripts = false := by
    refine Atom.hasScripts_eq_false.2 fun slot hs => Atom.branch_eq_none hw ?_
    cases slot <;> first | exact hscripts | cases hs
  obtain ⟨body, hbody, hne⟩ := exists_branch hw .body (by simp [Kind.hasSlot, hshape])
  have ha : a.body = body := by simp [Atom.body, hbody]
  rw [ha, Atom.newWrapper_of_ne_nil hshape none hne, ← nucleus_of_unscripted hunscripted,
    nucleus_bare_sequence hw hshape hbody, hv, hg]
  rfl

/-- What is made from each element of a list, as far as it does not depend on the supply. -/
theorem map_mapM {α β γ : Type} {f : α → Minting β} {g : β → γ} {g' : α → γ} {as : List α}
    (h : ∀ a ∈ as, ∀ n, g (f a n).1 = g' a) (n : Nat) : (as.mapM f n).1.map g = as.map g' := by
  induction as generalizing n with
  | nil => rfl
  | cons a as ih =>
      simp [h a List.mem_cons_self n, ih fun b hb => h b (List.mem_cons_of_mem _ hb)]

/-- What the cells of an array hold. -/
def gridContent (a : Atom) : List (List (List Atom)) :=
  a.body.map fun row => row.body.map Atom.body

/-- A part of a grid that can be read back. -/
structure IsPart (kind : Kind) (a : Atom) : Prop where
  kind_eq : a.kind = kind
  isWellFormed : a.isWellFormed = true
  readable : a.ConsistsOf Label.Readable
  bare_newWrapper : ∀ n, (Atom.newWrapper kind none a.body n).1.bare = a.bare

/-- A grid has parts of one kind, and at least one of them. -/
theorem isPart_of_mem_body (kind : Kind) (hw : a.isWellFormed = true)
    (hr : a.ConsistsOf Label.Readable) (hp : a.kind = .array ∧ kind = .row ∨ a.kind = .row ∧ kind = .cell) :
    a.body ≠ [] ∧ ∀ b ∈ a.body, IsPart kind b := by
  have hslot : a.kind.hasSlot .body = true ∧ isGridBody a.kind .body = true := by
    rcases hp with ⟨h, -⟩ | ⟨h, -⟩ <;> rw [h] <;> exact ⟨rfl, rfl⟩
  have hpart : kind = .row ∨ kind = .cell := by
    rcases hp with ⟨-, h⟩ | ⟨-, h⟩
    · exact .inl h
    · exact .inr h
  obtain ⟨body, hbody, -⟩ := exists_branch hw .body hslot.1
  obtain ⟨hfits, hreadable⟩ := hr.branch hbody
  have hwell := Atom.branchWellFormed hw hbody
  have heq : a.body = body := by simp [Atom.body, hbody]
  rw [heq]
  refine ⟨by simpa [Atom.fitsBranch, hslot.2] using hfits, fun b hb => ?_⟩
  have hkind : b.kind = kind := by
    have hadmitted := hwell.admitted b hb
    rcases hp with ⟨h, rfl⟩ | ⟨h, rfl⟩ <;> rw [h] at hadmitted <;> simpa [Kind.admits] using hadmitted
  have hbare : b.value = none ∧ b.glyph = none := by
    have hlabel : b.label.isReadable = true := (hreadable b hb).label
    have hkl : b.label.kind = kind := hkind
    unfold Label.isReadable at hlabel
    rcases hpart with rfl | rfl <;> simp only [hkl, Bool.and_eq_true, Option.isNone_iff_eq_none] at hlabel <;>
      exact hlabel
  refine ⟨hkind, hwell.wellFormed b hb, hreadable b hb, fun n => ?_⟩
  exact hkind ▸ bare_newWrapper_part (hwell.wellFormed b hb) (hkind ▸ hpart) hbare.1 hbare.2 n

theorem IsPart.bare_newRow {row : Atom} (h : IsPart .row row) (n : Nat) :
    (newRow (row.body.map Atom.body) n).1.bare = row.bare := by
  obtain ⟨-, hcells⟩ := isPart_of_mem_body .cell h.isWellFormed h.readable
    (.inr ⟨h.kind_eq, rfl⟩)
  have hmap : (row.body.mapM (newCell ∘ Atom.body) n).1.map Atom.bare = row.body.map Atom.bare :=
    map_mapM (fun cell hcell => (hcells cell hcell).bare_newWrapper) n
  have hmade : (newRow (row.body.map Atom.body) n).1 =
      (Atom.newWrapper .row none (row.body.mapM (newCell ∘ Atom.body) n).1
        (row.body.mapM (newCell ∘ Atom.body) n).2).1 := by
    rw [newRow, List.mapM_map]
    rfl
  rw [hmade, ← h.bare_newWrapper n]
  exact Atom.bare_newWrapper (rfl : Kind.shape .row = .sequence) none hmap _ _

/-- An array is made from the content of its cells. -/
theorem bare_newArray_gridContent (hw : a.isWellFormed = true) (hr : a.ConsistsOf Label.Readable)
    (hk : a.kind = .array) {name : String} (hv : a.value = some name) (hg : a.glyph = none) :
    a.nucleus.bare = (Reader.newArray name (gridContent a) 0).1.bare := by
  obtain ⟨rows, hrows, -⟩ := exists_branch hw .body (by rw [hk]; rfl)
  obtain ⟨-, hparts⟩ := isPart_of_mem_body .row hw hr (.inl ⟨hk, rfl⟩)
  have hbody : a.body = rows := by simp [Atom.body, hrows]
  have hmap : (a.body.mapM (newRow ∘ fun row => row.body.map Atom.body) 0).1.map Atom.bare =
      a.body.map Atom.bare :=
    map_mapM (fun row hrow => (hparts row hrow).bare_newRow) 0
  have hmade : (Reader.newArray name (gridContent a) 0).1 =
      (Atom.newWrapper .array (some name)
        (a.body.mapM (newRow ∘ fun row => row.body.map Atom.body) 0).1
        (a.body.mapM (newRow ∘ fun row => row.body.map Atom.body) 0).2).1 := by
    rw [newArray_eq, gridContent, List.mapM_map]
    rfl
  have hwrapper : (Atom.newWrapper .array (some name) a.body 0).1 =
      Atom.node ⟨0, .array, some name, none, Marks.none⟩
        { Branches.none with body := some a.body } :=
    Atom.newWrapper_of_ne_nil (rfl : Kind.shape .array = .sequence) _ (fun h => by cases h) 0
  rw [hmade, nucleus_bare_sequence hw (by rw [hk]; rfl) hrows, ← hbody, hk, hv, hg, ← hwrapper]
  exact (Atom.bare_newWrapper (rfl : Kind.shape .array = .sequence) (some name) hmap _ _).symm

/-! ## Formulas -/

/-- What can be read back is legible: an item as such, and a part of a grid in its content. -/
def LegibleParts (a : Atom) : Prop :=
  match a.kind with
  | .row => ∀ cell ∈ a.body, LegibleCell cell
  | .cell => LegibleCell a
  | .root => True
  | _ => Legible True False .math [] a
where
  LegibleCell (cell : Atom) : Prop :=
    ∀ b ∈ cell.body, Legible True False .math [] b

theorem LegibleParts.of_isItem (h : LegibleParts a) (hk : a.kind.isItem = true) :
    Legible True False .math [] a := by
  unfold LegibleParts at h
  cases hkind : a.kind <;> simp_all [Kind.isItem]

theorem legible_nucleus_array (hw : a.isWellFormed = true) (hr : a.ConsistsOf Label.Readable)
    (hk : a.kind = .array) (hl : a.label.isReadable = true)
    (hc : ∀ row ∈ a.body, LegibleParts row) : Legible True False .math [] a.nucleus := by
  have hlabel : (∃ name, a.value = some name ∧ Vocabulary.isArrayEnvironment name = true) ∧
      a.glyph = none := by
    have hkl : a.label.kind = .array := hk
    unfold Label.isReadable at hl
    simpa [hkl, Option.any_eq_true, Atom.value, Atom.glyph] using hl
  obtain ⟨⟨name, hv, hn⟩, hg⟩ := hlabel
  obtain ⟨hne, hparts⟩ := isPart_of_mem_body .row hw hr (.inl ⟨hk, rfl⟩)
  have hrows : Rows (Legible True False .math []) (gridContent a) := by
    intro cells hcells
    obtain ⟨row, hrow, rfl⟩ := List.mem_map.1 hcells
    have hpart := hparts row hrow
    have hcontent := hc row hrow
    unfold LegibleParts at hcontent
    rw [hpart.kind_eq] at hcontent
    obtain ⟨hne, -⟩ := isPart_of_mem_body .cell hpart.isWellFormed hpart.readable
      (.inr ⟨hpart.kind_eq, rfl⟩)
    refine ⟨by simpa using hne, fun content hmem => ?_⟩
    obtain ⟨cell, hcell, rfl⟩ := List.mem_map.1 hmem
    exact hcontent cell hcell
  exact (legible_newArray hn (by simpa [gridContent] using hne) hrows 0).of_bare_eq
    (bare_newArray_gridContent hw hr hk hv hg)

theorem label_cases (h : a.label.isReadable = true) (hk : a.kind.isItem = true) :
    (a.kind = .placeholder ∨ a.kind = .group) ∧ a.value = none ∧ a.glyph = none ∨
      a.kind = .array ∨ ∃ v, a.value = some v ∧ look? v.toList = some (a.kind, a.glyph) := by
  unfold Label.isReadable at h
  unfold Atom.kind Atom.value Atom.glyph at *
  cases hkind : a.label.kind <;> simp_all [Kind.isItem, Option.bind_eq_some_iff]

theorem legible_nucleus_group (hw : a.isWellFormed = true) (hk : a.kind = .group)
    (hv : a.value = none) (hg : a.glyph = none) (hc : HasLegibleContent a) :
    Legible True False .math [] a.nucleus := by
  obtain ⟨body, hbody, -⟩ := exists_branch hw .body (by rw [hk]; rfl)
  have hatoms := hc _ _ hbody (by rw [hk]; rfl)
  refine .group (InPlace.of_forall hatoms _) ?_
  rw [nucleus_bare_sequence hw (by rw [hk]; rfl) hbody, hk, hv, hg,
    Atom.newWrapper_of_ne_nil (rfl : Kind.shape .group = .sequence) _ fun h => by cases h]

theorem legible_nucleus (hw : a.isWellFormed = true) (hr : a.ConsistsOf Label.Readable)
    (hk : a.kind.isItem = true) (hc : HasLegibleContent a)
    (hrows : a.kind = .array → ∀ row ∈ a.body, LegibleParts row) :
    Legible True False .math [] a.nucleus := by
  have hl := hr.label
  rcases label_cases hl hk with ⟨hkind | hkind, hv, hg⟩ | hkind | ⟨v, hv, hlook⟩
  · exact .placeholder (by rw [nucleus_bare_leaf hw (by rw [hkind]; rfl), hkind, hv, hg]; rfl)
  · exact legible_nucleus_group hw hkind hv hg hc
  · exact legible_nucleus_array hw hr hkind hl (hrows hkind)
  · rcases look?_cases hlook with ⟨name, m, rfl, hf, hm⟩ | ⟨name, rfl, hf, hn, hkind, hg⟩ |
      ⟨c, rfl, hm, hliteral, hq, hkind, hg⟩
    · exact legible_nucleus_command hw hf hv hc hm
    · exact legible_nucleus_unknown hw hv hf hn hkind hg
    · exact legible_nucleus_char hw hv hm hliteral hq hkind hg

theorem forall_mem_body {P : Atom → Prop}
    (h : ∀ slot atoms, a.branch slot = some atoms → ∀ b ∈ atoms, P b) : ∀ b ∈ a.body, P b := by
  intro b hmem
  cases hb : a.branch .body with
  | none => simp [Atom.body, hb] at hmem
  | some atoms => exact h .body atoms hb b (by simpa [Atom.body, hb] using hmem)

/-- An item is legible if its content is. -/
theorem legible_of_content (hw : a.isWellFormed = true) (hr : a.ConsistsOf Label.Readable)
    (hk : a.kind.isItem = true) (hc : HasLegibleContent a)
    (hrows : a.kind = .array → ∀ row ∈ a.body, LegibleParts row) :
    Legible True False .math [] a := by
  refine Parts.legible ⟨legible_nucleus hw hr hk hc hrows, fun slot atoms hs hb => ?_, fun hgroup => ?_⟩
  · have hwell := Atom.branchWellFormed hw hb
    have hallowed := hwell.allowed
    cases slot <;> cases hs
    all_goals exact ⟨hallowed, hwell.filled rfl, hc _ _ hb (by simp [isGridBody])⟩
  · refine forall_mem_body fun slot atoms hb => hc slot atoms hb ?_
    simp [isGridBody, hgroup, Kind.isGrid]

theorem legibleParts (a : Atom) (hw : a.isWellFormed = true) (hr : a.ConsistsOf Label.Readable) :
    LegibleParts a := by
  induction a using Atom.branchInduction with
  | step a ih =>
      have hparts (slot : Slot) (atoms : List Atom) (hb : a.branch slot = some atoms) :
          ∀ b ∈ atoms, LegibleParts b := fun b hmem =>
        ih slot atoms hb b hmem ((Atom.branchWellFormed hw hb).wellFormed b hmem)
          ((hr.branch hb).2 b hmem)
      have hbody := forall_mem_body hparts
      have hc : HasLegibleContent a := fun slot atoms hb hgrid b hmem =>
        (hparts slot atoms hb b hmem).of_isItem (hr.items hb hgrid b hmem).1
      unfold LegibleParts
      split
      · rename_i hrow
        intro cell hcell
        have hkind := ((isPart_of_mem_body .cell hw hr (.inr ⟨hrow, rfl⟩)).2 cell hcell).kind_eq
        have hcontent := hbody cell hcell
        unfold LegibleParts at hcontent
        rwa [hkind] at hcontent
      · rename_i hcell
        exact forall_mem_body fun slot atoms hb => hc slot atoms hb (by
          simp [isGridBody, hcell, Kind.isGrid])
      · trivial
      · rename_i hrow hcell hroot
        have hitem : a.kind.isItem = true := by
          cases hkind : a.kind <;> simp_all [Kind.isItem]
        exact legible_of_content hw hr hitem hc fun _ => hbody

theorem legible_of_items {atoms : List Atom} (hw : ∀ a ∈ atoms, a.isWellFormed = true)
    (hr : Atom.Items Label.Readable atoms) : ∀ a ∈ atoms, Legible True False .math [] a :=
  fun a ha => (legibleParts a (hw a ha) (hr a ha).2).of_isItem (hr a ha).1

theorem isReadable_iff (atoms : List Atom) :
    isReadable atoms = true ↔ Atom.Items Label.Readable atoms := by
  simp [isReadable, Atom.Items, Atom.isReadable_iff_consistsOf]

/-- A well-formed formula that can be read back is written so that reading it gives an alike formula.
-/
theorem alikeList_write {atoms : List Atom} (hw : ∀ a ∈ atoms, a.isWellFormed = true)
    (hr : Atom.Items Label.Readable atoms) (supply : Nat) :
    Atom.alikeList (parseFormula (write atoms) supply).1.atoms atoms = true := by
  refine (Atom.alikeList_iff _ _).2 ?_
  rw [Atom.mapLabelsOfList_eq_map, Atom.mapLabelsOfList_eq_map]
  exact (parseFormula_write (legible_of_items hw hr) supply).2

/-! ## Normal forms of sources -/

/-- A source as it is written after it was read, whatever had to be repaired in it. -/
def normalize (source : String) : String :=
  write (parseFormula source 0).1.atoms

/-- A source that was repaired to a formula that can be read back has a normal form. -/
theorem normalize_normalize (source : String)
    (h : isReadable (parseFormula source 0).1.atoms = true) :
    normalize (normalize source) = normalize source := by
  have hw : ∀ a ∈ (parseFormula source 0).1.atoms, a.isWellFormed = true :=
    isWellFormed_parseFragment (by simp) source .math 0
  have hlegible := legible_of_items hw ((isReadable_iff _).1 h)
  exact write_of_bare_eq (parseFormula_write hlegible 0).2

theorem normalize_normalize_repaired :
    (parseFormula "x^2^3\\foo\x7d" 0).1.diagnostics ≠ [] ∧
      normalize (normalize "x^2^3\\foo\x7d") = normalize "x^2^3\\foo\x7d" :=
  ⟨by decide +kernel, normalize_normalize _ (by decide +kernel)⟩

end Latex

end FormulaEditor

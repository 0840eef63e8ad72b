import FormulaEditor.Proofs.Formula.Alike
import FormulaEditor.Proofs.Latex.Spelling
import FormulaEditor.Proofs.Latex.WellFormed

/-!
# How atoms are written

The tokens of what the reader makes, in terms of the tokens of its content.
-/

namespace FormulaEditor

/-- Whether atoms of a kind are written as a character or a command. -/
def Kind.isSpelled : Kind → Bool
  | ordinary | binary | relation | punctuation | opening | closing | operator | space
  | unknownCommand => true
  | _ => false

namespace Latex

namespace Vocabulary

/-- What the commands of a list have in common with all commands of their action. -/
def areRegular (commands : List (String × Meaning)) : Bool :=
  commands.all fun (name, m) => isProperName name.toList &&
    match m.action with
    | .symbol kind _ => kind.isSpelled && kind != .unknownCommand
    | .fraction => m.arity == 2
    | .radical => m.arity == 1 && name == "sqrt"
    | .accent _ | .font | .text => m.arity == 1
    | _ => true

theorem areRegular_all : areRegular all = true := by
  decide +kernel

variable {name : String} {m : Meaning}

theorem isProperName_of_find? (h : find? name = some m) : isProperName name.toList = true := by
  have hall := List.all_eq_true.1 areRegular_all _ (mem_of_find? h)
  exact (Bool.and_eq_true_iff.1 hall).1

theorem isSpelled_of_symbol {kind : Kind} {glyph : Char} (h : find? name = some m)
    (ha : m.action = .symbol kind glyph) : kind.isSpelled = true ∧ kind ≠ .unknownCommand := by
  have hall := List.all_eq_true.1 areRegular_all _ (mem_of_find? h)
  simpa [ha] using (Bool.and_eq_true_iff.1 hall).2

theorem arity_of_takesArguments (h : find? name = some m) (ht : m.action.takesArguments = true) :
    m.arity = if m.action = .fraction then 2 else 1 := by
  have hall := List.all_eq_true.1 areRegular_all _ (mem_of_find? h)
  replace hall := (Bool.and_eq_true_iff.1 hall).2
  cases ha : m.action <;> simp_all [Action.takesArguments]

theorem name_of_radical (h : find? name = some m) (ha : m.action = .radical) : name = "sqrt" := by
  have hall := List.all_eq_true.1 areRegular_all _ (mem_of_find? h)
  have hboth : m.arity = 1 ∧ name = "sqrt" := by
    simpa [ha] using (Bool.and_eq_true_iff.1 hall).2
  exact hboth.2

theorem find?_placeholder : find? "placeholder" = some ⟨.placeholder, 0, "placeholder", [], 6⟩ := by
  decide +kernel

theorem find?_begin : find? "begin" = some ⟨.beginEnvironment, 1, "begin environment",
    ["\\begin\x7bpmatrix\x7da&b\\\\c&d\\end\x7bpmatrix\x7d"], 4⟩ := by
  decide +kernel

theorem find?_end : find? "end" = some ⟨.endEnvironment, 1, "end environment", [], 6⟩ := by
  decide +kernel

theorem find?_newRow : find? "\\" = some ⟨.newRow, 0, "new row", [], 6⟩ := by
  decide +kernel

theorem find?_prime : find? "prime" = some (Meaning.symbol '′' "prime") := by
  decide +kernel

end Vocabulary

/-! ## Sequences of tokens -/

/-- A sequence in braces. -/
def bracedTokens (atoms : List Atom) : List Token :=
  .groupBegin :: tokensOfList atoms ++ [.groupEnd]

/-- The mark of a script. -/
def scriptToken (slot : Slot) : Token :=
  if slot = .subscript then .subscript else .superscript

/-- A script after its mark. -/
def scriptTokens (slot : Slot) (atoms : List Atom) : List Token :=
  scriptToken slot :: bracedTokens atoms

/-- What ends the index of a radical. -/
def indexEnd (atoms : List Atom) : List Token :=
  if Writer.needsBraces atoms then [.groupEnd, .char ']'] else [.char ']']

/-- The index of a radical in brackets, if there is one. -/
def indexTokens : Option (List Atom) → List Token
  | none => []
  | some atoms =>
      .char '[' :: (if Writer.needsBraces atoms then [.groupBegin] else []) ++
        tokensOfList atoms ++ indexEnd atoms

/-- The arguments of a command. -/
def argumentTokens (contents : List (List Atom)) : List Token :=
  contents.flatMap bracedTokens

/-- The cells of a row after the first one. -/
def cellsTokens (cells : List (List Atom)) : List Token :=
  cells.flatMap fun content => .alignment :: tokensOfList content

/-- A row of cells. -/
def rowTokens : List (List Atom) → List Token
  | [] => []
  | content :: cells => tokensOfList content ++ cellsTokens cells

/-- The rows of an array after the first one. -/
def rowsTokens (rows : List (List (List Atom))) : List Token :=
  rows.flatMap fun cells => .control "\\" :: rowTokens cells

/-- All rows of an array. -/
def gridTokens : List (List (List Atom)) → List Token
  | [] => []
  | cells :: rows => rowTokens cells ++ rowsTokens rows

/-- The end of an environment and what follows it. -/
def environmentEnd (name : String) (k : List Token) : List Token :=
  Writer.environmentTokens "end" name ++ k

/-- What a command is applied to is what the reader can find after it. -/
structure IsApplication (name : String) (m : Meaning) (contents : List (List Atom))
    (index : Option (List Atom)) : Prop where
  find : Vocabulary.find? name = some m
  takesArguments : m.action.takesArguments = true
  length : contents.length = m.arity
  filled : m.action ≠ .text → ∀ content ∈ contents, content ≠ []
  radical_of_index : ∀ atoms, index = some atoms → m.action = .radical ∧ atoms ≠ []

/-- A grid of cells without an empty cell or row. -/
structure IsGrid (rows : List (List (List Atom))) : Prop where
  ne_nil : rows ≠ []
  filled : ∀ cells ∈ rows, cells ≠ [] ∧ ∀ content ∈ cells, content ≠ []

/-! ## The tokens of what is made -/

section

open Writer
open Atom (leaf placeholder newWrapper)

theorem tokens_mark {c : Char} (hc : c ≠ '\\') : (mark c).tokens = [markToken c] := by
  simp [mark, Piece.tokens, textTokens, hc]

theorem flatMap_tokens_braced (atoms : List Atom) :
    (braced (listPieces atoms)).flatMap Piece.tokens = bracedTokens atoms := by
  simp [braced, bracedTokens, tokensOfList, tokens_mark, markToken]

theorem pieces_leaf {kind : Kind} (hk : kind.isSpelled = true) (id : Nat) (value : String)
    (glyph : Option Char) :
    pieces (leaf id kind (some value) glyph) = [escaped value.toList] := by
  cases kind <;> first | rfl | cases hk

theorem pieces_placeholder (id : Nat) :
    pieces (placeholder id) = [.word "\\placeholder\x7b\x7d".toList] := rfl

theorem tokensOf_placeholder (id : Nat) :
    tokensOf (placeholder id) = [.control "placeholder", .groupBegin, .groupEnd] := by
  rw [tokensOf, pieces_placeholder]
  decide

theorem pieces_group (atoms : List Atom) (n : Nat) :
    pieces (newWrapper .group none atoms n).1 = braced (listPieces atoms) := by
  rw [Atom.newWrapper_apply rfl]
  simp [pieces, branchPieces, scriptPieces, Atom.wrapperBody, Kind.requiresBody, Branches.none]

theorem tokensOf_group (atoms : List Atom) (n : Nat) :
    tokensOf (newWrapper .group none atoms n).1 = bracedTokens atoms := by
  rw [tokensOf, pieces_group, flatMap_tokens_braced]

/-- A script is written behind the rest of its atom, the subscript first. -/
theorem pieces_putBranch {a : Atom} {slot : Slot} (hs : slot.isScript = true)
    (hnone : a.branch slot = none) (hsup : a.branch .superscript = none) (atoms : List Atom) :
    pieces (a.putBranch slot (some atoms)) =
      pieces a ++ mark (if slot = .subscript then '_' else '^') :: braced (listPieces atoms) := by
  obtain ⟨l, ⟨body, sup, sub, numerator, denominator, index, radicand⟩⟩ := a
  obtain rfl : sup = none := hsup
  cases slot with
  | superscript => simp [pieces, Atom.putBranch, Branches.set, scriptPieces]
  | subscript =>
      obtain rfl : sub = none := hnone
      simp [pieces, Atom.putBranch, Branches.set, scriptPieces]
  | _ => cases hs

theorem tokensOf_putBranch {a : Atom} {slot : Slot} (hs : slot.isScript = true)
    (hnone : a.branch slot = none) (hsup : a.branch .superscript = none) (atoms : List Atom) :
    tokensOf (a.putBranch slot (some atoms)) = tokensOf a ++ scriptTokens slot atoms := by
  have hmark : (mark (if slot = .subscript then '_' else '^')).tokens = [scriptToken slot] := by
    unfold scriptToken
    split <;> rfl
  rw [tokensOf, pieces_putBranch hs hnone hsup, List.flatMap_append, List.flatMap_cons, hmark,
    flatMap_tokens_braced]
  rfl

/-! ## Commands with arguments -/

variable {name : String} {m : Meaning} {contents : List (List Atom)} {index : Option (List Atom)}

theorem IsApplication.contents_eq (h : IsApplication name m contents index) :
    (m.action = .fraction ∧ ∃ n d, contents = [n, d]) ∨
      (m.action ≠ .fraction ∧ ∃ content, contents = [content]) := by
  have hlength := h.length
  rw [Vocabulary.arity_of_takesArguments h.find h.takesArguments] at hlength
  by_cases hf : m.action = .fraction
  · rw [if_pos hf] at hlength
    left
    match contents, hlength with
    | [num, den], _ => exact ⟨hf, num, den, rfl⟩
  · rw [if_neg hf] at hlength
    exact .inr ⟨hf, List.length_eq_one_iff.1 hlength⟩

theorem IsApplication.index_eq_none (h : IsApplication name m contents index)
    (hr : m.action ≠ .radical) : index = none := by
  cases index with
  | none => rfl
  | some atoms => exact absurd (h.radical_of_index atoms rfl).1 hr

theorem IsApplication.filter_index (h : IsApplication name m contents index) :
    (index.filter fun atoms => !atoms.isEmpty) = index := by
  cases index with
  | none => rfl
  | some atoms => simp [Option.filter, (h.radical_of_index atoms rfl).2]

theorem pieces_withGlyph (a : Atom) (glyph : Option Char) :
    pieces (a.withGlyph glyph) = pieces a := by
  cases a
  rfl

theorem newWithArguments_fraction (command : String) (num den : List Atom) :
    Reader.newWithArguments .fraction command [num, den] none =
      Atom.newFraction command num den := rfl

theorem newWithArguments_radical (command : String) (content : List Atom)
    (index : Option (List Atom)) :
    Reader.newWithArguments .radical command [content] index = Atom.newRadical content index := rfl

theorem pieces_newWithArguments (h : IsApplication name m contents index) (n : Nat) :
    pieces (Reader.newWithArguments m.action (Vocabulary.command name) contents index n).1 =
      .word (Vocabulary.command name).toList :: indexPieces index ++
        contents.flatMap fun content => braced (listPieces content) := by
  have htakes := h.takesArguments
  rcases h.contents_eq with ⟨ha, num, den, rfl⟩ | ⟨ha, content, rfl⟩
  · obtain rfl := h.index_eq_none (by simp [ha])
    have hnum : num ≠ [] := h.filled (by simp [ha]) num (by simp)
    have hden : den ≠ [] := h.filled (by simp [ha]) den (by simp)
    rw [ha, newWithArguments_fraction, Atom.newFraction_of_ne_nil _ hnum hden]
    simp [pieces, scriptPieces, branchPieces, indexPieces, Branches.none]
  by_cases hr : m.action = .radical
  · have hcontent : content ≠ [] := h.filled (by simp [hr]) content (by simp)
    have hname : Vocabulary.command name = Atom.radicalCommand := by
      rw [Vocabulary.name_of_radical h.find hr]
      rfl
    rw [hr, newWithArguments_radical, Atom.newRadical_of_ne_nil hcontent, h.filter_index, hname]
    simp [pieces, scriptPieces, branchPieces, Branches.none]
  obtain rfl := h.index_eq_none hr
  have hwrapper (kind : Kind) (hk : kind = .accent ∨ kind = .font ∨ kind = .text)
      (hne : kind.requiresBody = true → content ≠ []) :
      pieces (newWrapper kind (some (Vocabulary.command name)) content n).1 =
        .word (Vocabulary.command name).toList :: indexPieces none ++
          [content].flatMap fun content => braced (listPieces content) := by
    rcases hk with rfl | rfl | rfl <;>
      simp [Atom.newWrapper_of_ne_nil (rfl : Kind.shape _ = .sequence) _ hne, pieces, scriptPieces,
        branchPieces, indexPieces, Branches.none]
  have hne (ht : m.action ≠ .text) : content ≠ [] := h.filled ht content (by simp)
  cases haction : m.action with
  | accent glyph =>
      exact (pieces_withGlyph _ _).trans
        (hwrapper .accent (.inl rfl) fun _ => hne (by simp [haction]))
  | font => exact hwrapper .font (.inr (.inl rfl)) fun _ => hne (by simp [haction])
  | text => exact hwrapper .text (.inr (.inr rfl)) fun hr => by cases hr
  | fraction => exact absurd haction ha
  | radical => exact absurd haction hr
  | _ =>
      rw [haction] at htakes
      cases htakes

theorem flatMap_tokens_indexPieces (index : Option (List Atom)) :
    (indexPieces index).flatMap Piece.tokens = indexTokens index := by
  cases index with
  | none => rfl
  | some atoms =>
      cases hb : needsBraces atoms <;>
        simp [indexPieces, indexTokens, indexEnd, hb, braced, tokensOfList, tokens_mark, markToken]

theorem tokensOf_newWithArguments (h : IsApplication name m contents index) (n : Nat) :
    tokensOf (Reader.newWithArguments m.action (Vocabulary.command name) contents index n).1 =
      .control name :: indexTokens index ++ argumentTokens contents := by
  have hname := Vocabulary.isProperName_of_find? h.find
  rw [tokensOf, pieces_newWithArguments h, List.flatMap_append, List.flatMap_cons,
    tokens_command hname, flatMap_tokens_indexPieces, List.flatMap_assoc]
  simp only [flatMap_tokens_braced]
  rfl

/-! ## Arrays -/

theorem pieces_newCell {content : List Atom} (h : content ≠ []) (n : Nat) :
    pieces (newCell content n).1 = listPieces content := by
  rw [newCell, Atom.newWrapper_of_ne_nil rfl none fun _ => h]
  simp [pieces, branchPieces, scriptPieces, Branches.none]

theorem flatMap_tokens_cellsPieces (cells : List (List Atom)) (h : ∀ content ∈ cells, content ≠ [])
    (n : Nat) : (cellsPieces false (cells.mapM newCell n).1).flatMap Piece.tokens =
      cellsTokens cells := by
  induction cells generalizing n with
  | nil => rfl
  | cons content cells ih =>
      have hcell := pieces_newCell (h content List.mem_cons_self) n
      have hrest := ih (fun c hc => h c (List.mem_cons_of_mem _ hc)) (newCell content n).2
      simp [cellsPieces, cellsTokens, tokensOfList, hcell, hrest, tokens_mark, markToken]

theorem flatMap_tokens_rowPieces {cells : List (List Atom)} (h : ∀ content ∈ cells, content ≠ [])
    (n : Nat) : (rowPieces (some (cells.mapM newCell n).1)).flatMap Piece.tokens =
      rowTokens cells := by
  cases cells with
  | nil => rfl
  | cons content cells =>
      have hcell := pieces_newCell (h content List.mem_cons_self) n
      have hrest := flatMap_tokens_cellsPieces cells (fun c hc => h c (List.mem_cons_of_mem _ hc))
        (newCell content n).2
      simp [rowPieces, cellsPieces, rowTokens, tokensOfList, hcell, hrest]

theorem newRow_eq (cells : List (List Atom)) (n : Nat) :
    ∃ label, (newRow cells n).1 =
      .node label { Branches.none with body := some (cells.mapM newCell n).1 } :=
  ⟨⟨(cells.mapM newCell n).2, .row, none, none, Marks.none⟩, rfl⟩

theorem flatMap_tokens_rowsPieces (rows : List (List (List Atom)))
    (h : ∀ cells ∈ rows, cells ≠ [] ∧ ∀ content ∈ cells, content ≠ []) (n : Nat) :
    (rowsPieces false (rows.mapM newRow n).1).flatMap Piece.tokens = rowsTokens rows := by
  have hseparator : (Piece.exact ['\\', '\\']).tokens = [.control "\\"] := by decide
  induction rows generalizing n with
  | nil => rfl
  | cons cells rows ih =>
      obtain ⟨label, hrow⟩ := newRow_eq cells n
      have hcells := flatMap_tokens_rowPieces (h cells List.mem_cons_self).2 n
      have hrest := ih (fun c hc => h c (List.mem_cons_of_mem _ hc)) (newRow cells n).2
      simp [rowsPieces, rowsTokens, Branches.none, hrow, hcells, hrest, hseparator]

theorem pieces_newArray (name : String) (rows : List (List (List Atom))) (n : Nat) :
    pieces (Reader.newArray name rows n).1 =
      environmentMark "\\begin" name.toList :: rowsPieces true (rows.mapM newRow n).1 ++
        [environmentMark "\\end" name.toList] := by
  have harray : (Reader.newArray name rows n).1 =
      .node ⟨(rows.mapM newRow n).2, .array, some name, none, Marks.none⟩
        { Branches.none with body := some (rows.mapM newRow n).1 } := rfl
  simp [harray, pieces, arrayPieces, scriptPieces, Branches.none]

theorem tokensOf_newArray {rows : List (List (List Atom))} (hg : IsGrid rows)
    (hname : Vocabulary.isArrayEnvironment name = true) (n : Nat) :
    tokensOf (Reader.newArray name rows n).1 =
      environmentTokens "begin" name ++ gridTokens rows ++ environmentTokens "end" name := by
  have hmem : name ∈ Vocabulary.arrayEnvironments := List.contains_iff_mem.1 hname
  have hrows : (rowsPieces true (rows.mapM newRow n).1).flatMap Piece.tokens = gridTokens rows := by
    cases rows with
    | nil => rfl
    | cons cells rows =>
        obtain ⟨label, hrow⟩ := newRow_eq cells n
        have hcells := flatMap_tokens_rowPieces (hg.filled cells List.mem_cons_self).2 n
        have hrest := flatMap_tokens_rowsPieces rows
          (fun c hc => hg.filled c (List.mem_cons_of_mem _ hc)) (newRow cells n).2
        simp [rowsPieces, gridTokens, Branches.none, hrow, hcells, hrest]
  rw [tokensOf, pieces_newArray, List.cons_append, List.flatMap_cons, List.flatMap_append, hrows,
    (environmentMark_begin name hmem).1]
  simp [(environmentMark_end name hmem).1]

/-! ## Spelled atoms -/

/-- Every piece of a text is the spelling of its tokens. -/
def AllSpelled (ps : List Piece) : Prop :=
  ∀ p ∈ ps, p.IsSpelled

theorem allSpelled_nil : AllSpelled [] := by
  intro p hp
  cases hp

theorem AllSpelled.cons {p : Piece} {ps : List Piece} (h : p.IsSpelled) (hs : AllSpelled ps) :
    AllSpelled (p :: ps) := by
  intro q hq
  rcases List.mem_cons.1 hq with rfl | hq
  · exact h
  · exact hs q hq

theorem AllSpelled.append {ps qs : List Piece} (h : AllSpelled ps) (h' : AllSpelled qs) :
    AllSpelled (ps ++ qs) := by
  intro p hp
  rcases List.mem_append.1 hp with hp | hp
  · exact h p hp
  · exact h' p hp

theorem AllSpelled.flatMap {α : Type} {f : α → List Piece} {as : List α}
    (h : ∀ a ∈ as, AllSpelled (f a)) : AllSpelled (as.flatMap f) := by
  intro p hp
  obtain ⟨a, ha, hp⟩ := List.mem_flatMap.1 hp
  exact h a ha p hp

theorem AllSpelled.braced {ps : List Piece} (h : AllSpelled ps) : AllSpelled (braced ps) :=
  (AllSpelled.cons (isSpelled_mark (by decide) (by decide)) h).append
    (AllSpelled.cons (isSpelled_mark (by decide) (by decide)) allSpelled_nil)

theorem listPieces_eq_flatMap (atoms : List Atom) : listPieces atoms = atoms.flatMap pieces := by
  induction atoms with
  | nil => rfl
  | cons a atoms ih => simp [listPieces, ih]

theorem allSpelled_listPieces {atoms : List Atom} (h : ∀ a ∈ atoms, AllSpelled (pieces a)) :
    AllSpelled (listPieces atoms) := by
  rw [listPieces_eq_flatMap]
  exact AllSpelled.flatMap h

theorem allSpelled_placeholder (id : Nat) : AllSpelled (pieces (placeholder id)) := by
  have htokens : (Piece.word "\\placeholder\x7b\x7d".toList).tokens =
      [.control "placeholder", .groupBegin, .groupEnd] := by decide
  refine AllSpelled.cons ⟨?_, ?_, fun text h => by cases h⟩ allSpelled_nil
  · rw [htokens]
    decide
  · rw [htokens]
    decide

theorem allSpelled_group {atoms : List Atom} (h : ∀ a ∈ atoms, AllSpelled (pieces a)) (n : Nat) :
    AllSpelled (pieces (newWrapper .group none atoms n).1) := by
  rw [pieces_group]
  exact (allSpelled_listPieces h).braced

theorem allSpelled_putBranch {a : Atom} {slot : Slot} (hs : slot.isScript = true)
    (hnone : a.branch slot = none) (hsup : a.branch .superscript = none) {atoms : List Atom}
    (ha : AllSpelled (pieces a)) (h : ∀ b ∈ atoms, AllSpelled (pieces b)) :
    AllSpelled (pieces (a.putBranch slot (some atoms))) := by
  have hmark : (mark (if slot = .subscript then '_' else '^')).IsSpelled := by
    split <;> exact isSpelled_mark (by decide) (by decide)
  rw [pieces_putBranch hs hnone hsup]
  exact ha.append (AllSpelled.cons hmark (allSpelled_listPieces h).braced)

theorem allSpelled_indexPieces
    (h : ∀ atoms, index = some atoms → ∀ a ∈ atoms, AllSpelled (pieces a)) :
    AllSpelled (indexPieces index) := by
  cases index with
  | none => exact allSpelled_nil
  | some atoms =>
      have hatoms := allSpelled_listPieces (h atoms rfl)
      have hclose : AllSpelled [mark ']'] :=
        AllSpelled.cons (isSpelled_mark (by decide) (by decide)) allSpelled_nil
      refine AllSpelled.cons (isSpelled_mark (by decide) (by decide)) (AllSpelled.append ?_ hclose)
      split
      · exact hatoms.braced
      · exact hatoms

theorem allSpelled_newWithArguments (h : IsApplication name m contents index)
    (hc : ∀ content ∈ contents, ∀ a ∈ content, AllSpelled (pieces a))
    (hi : ∀ atoms, index = some atoms → ∀ a ∈ atoms, AllSpelled (pieces a)) (n : Nat) :
    AllSpelled
      (pieces (Reader.newWithArguments m.action (Vocabulary.command name) contents index n).1) := by
  rw [pieces_newWithArguments h]
  refine AllSpelled.cons (isSpelled_command (Vocabulary.isProperName_of_find? h.find))
    ((allSpelled_indexPieces hi).append (AllSpelled.flatMap fun content hmem => ?_))
  exact (allSpelled_listPieces (hc content hmem)).braced

theorem allSpelled_cellsPieces {cells : List Atom} (h : ∀ cell ∈ cells, AllSpelled (pieces cell))
    (first : Bool) : AllSpelled (cellsPieces first cells) := by
  induction cells generalizing first with
  | nil => exact allSpelled_nil
  | cons cell cells ih =>
      have hseparator : AllSpelled (if first then [] else [mark '&']) := by
        split
        · exact allSpelled_nil
        · exact AllSpelled.cons (isSpelled_mark (by decide) (by decide)) allSpelled_nil
      exact (hseparator.append (h cell List.mem_cons_self)).append
        (ih (fun c hc => h c (List.mem_cons_of_mem _ hc)) false)

theorem allSpelled_newRow {cells : List (List Atom)} (hne : ∀ content ∈ cells, content ≠ [])
    (h : ∀ content ∈ cells, ∀ a ∈ content, AllSpelled (pieces a)) (n : Nat) :
    ∀ cell ∈ (cells.mapM newCell n).1, AllSpelled (pieces cell) :=
  Minting.forall_mapM (fun content hmem k => by
    rw [pieces_newCell (hne content hmem)]
    exact allSpelled_listPieces (h content hmem)) n

theorem allSpelled_rowsPieces {rows : List (List (List Atom))}
    (hg : ∀ cells ∈ rows, cells ≠ [] ∧ ∀ content ∈ cells, content ≠ [])
    (h : ∀ cells ∈ rows, ∀ content ∈ cells, ∀ a ∈ content, AllSpelled (pieces a)) (first : Bool)
    (n : Nat) : AllSpelled (rowsPieces first (rows.mapM newRow n).1) := by
  induction rows generalizing first n with
  | nil => exact allSpelled_nil
  | cons cells rows ih =>
      have hseparator : AllSpelled (if first then [] else [.exact ['\\', '\\']]) := by
        split
        · exact allSpelled_nil
        · exact AllSpelled.cons (isSpelled_special '\\') allSpelled_nil
      have hcells := allSpelled_newRow (hg cells List.mem_cons_self).2 (h cells List.mem_cons_self) n
      have hrow := allSpelled_cellsPieces hcells true
      have hrest := ih (fun c hc => hg c (List.mem_cons_of_mem _ hc))
        (fun c hc => h c (List.mem_cons_of_mem _ hc)) false (newRow cells n).2
      obtain ⟨label, heq⟩ := newRow_eq cells n
      rw [Minting.mapM_cons_apply, heq]
      exact (hseparator.append hrow).append hrest

theorem allSpelled_newArray {rows : List (List (List Atom))} (hg : IsGrid rows)
    (hname : Vocabulary.isArrayEnvironment name = true)
    (h : ∀ cells ∈ rows, ∀ content ∈ cells, ∀ a ∈ content, AllSpelled (pieces a)) (n : Nat) :
    AllSpelled (pieces (Reader.newArray name rows n).1) := by
  have hmem : name ∈ Vocabulary.arrayEnvironments := List.contains_iff_mem.1 hname
  have hmark {command : String} {ts : List Token}
      (hstart : startsWithLetter (command.toList ++ '{' :: name.toList ++ ['}']) = false)
      (he : (environmentMark command name.toList).tokens = ts ∧
        (environmentMark command name.toList).text = spell false ts ∧
        ts.all Token.isProper = true) : (environmentMark command name.toList).IsSpelled := by
    obtain ⟨htokens, htext, hproper⟩ := he
    refine ⟨htokens ▸ htext, fun t ht => ?_, fun text htext => ?_⟩
    · rw [htokens] at ht
      exact List.all_eq_true.1 hproper t ht
    · cases htext
      exact hstart
  rw [pieces_newArray]
  refine AllSpelled.cons (hmark rfl (environmentMark_begin name hmem)) (AllSpelled.append ?_ ?_)
  · exact allSpelled_rowsPieces hg.filled h true n
  · exact AllSpelled.cons (hmark rfl (environmentMark_end name hmem)) allSpelled_nil

end

end Latex

end FormulaEditor

import FormulaEditor.Formula.Likeness
import FormulaEditor.Latex.Lexer
import FormulaEditor.Latex.Writer
import FormulaEditor.Proofs.Formula.Edits

/-!
# The tokens that a formula is written as

Each piece of a written formula is the spelling of a few tokens. Putting the pieces together spells
their tokens one after the other, where a letter is kept apart from a control word before it.
-/

namespace FormulaEditor.Latex

/-- A token as it is written. Ends of input and arguments are never written. -/
def Token.text : Token → List Char
  | char c => [c]
  | control name => '\\' :: name.toList
  | groupBegin => ['{']
  | groupEnd => ['}']
  | superscript => ['^']
  | subscript => ['_']
  | alignment => ['&']
  | endOfInput | argument _ => []

/-- Whether a token is a control word, which a letter may not follow directly. -/
def Token.isWord : Token → Bool
  | control name => Writer.startsWithLetter name.toList
  | _ => false

/-- Whether a command can have the name: letters, or else one character. -/
def isProperName (name : List Char) : Bool :=
  !name.isEmpty && (name.all Text.isLetter || name.length == 1)

/-- Whether a token can be written anywhere. -/
def Token.isProper : Token → Bool
  | char c => c != '\\'
  | control name => isProperName name.toList
  | groupBegin | groupEnd | superscript | subscript | alignment => true
  | endOfInput | argument _ => false

namespace Writer

/-- What keeps a text apart from the token before it. -/
def separator (afterWord : Bool) (text : List Char) : List Char :=
  if afterWord && startsWithLetter text then [' '] else []

/-- Tokens as they are written, after a control word or not. -/
def spell (afterWord : Bool) : List Token → List Char
  | [] => []
  | t :: rest => separator afterWord t.text ++ t.text ++ spell t.isWord rest

/-- Whether tokens end with a control word. -/
def endsWithWord (afterWord : Bool) (ts : List Token) : Bool :=
  ts.foldl (fun _ t => t.isWord) afterWord

theorem spell_append (w : Bool) (ts us : List Token) :
    spell w (ts ++ us) = spell w ts ++ spell (endsWithWord w ts) us := by
  induction ts generalizing w with
  | nil => rfl
  | cons t ts ih => simp [spell, endsWithWord, ih]

theorem text_ne_nil {t : Token} (h : t.isProper = true) : t.text ≠ [] := by
  cases t <;> simp_all [Token.text, Token.isProper]

/-- Only the first token feels what stands before. -/
theorem spell_eq_separator (w : Bool) {ts : List Token} (h : ∀ t ∈ ts, t.isProper = true) :
    spell w ts = separator w (spell false ts) ++ spell false ts := by
  cases ts with
  | nil => simp [spell, separator, startsWithLetter]
  | cons t rest =>
      obtain ⟨c, text, htext⟩ := List.exists_cons_of_ne_nil (text_ne_nil (h t List.mem_cons_self))
      simp [spell, separator, htext, startsWithLetter]

/-! ## Texts that pieces are appended to -/

/-- A text, given from its end, that ends with a control word or not, and where no backslash is
pending. -/
structure Ready (reversed : List Char) (afterWord : Bool) : Prop where
  word : endsWithControlWord reversed = afterWord
  backslashes : (reversed.takeWhile (· == '\\')).length % 2 = 0

theorem ready_nil : Ready [] false :=
  ⟨rfl, rfl⟩

theorem ready_cons (r : List Char) {c : Char} (hl : Text.isLetter c = false) (hc : c ≠ '\\') :
    Ready (c :: r) false := by
  refine ⟨?_, ?_⟩
  · simp [endsWithControlWord, hl]
  · simp [hc]

/-- A letter that does not follow a control word is no part of one. -/
theorem Ready.cons_letter {r : List Char} {c : Char} (hl : Text.isLetter c = true)
    (h : Ready r false) : Ready (c :: r) false := by
  have hc : c ≠ '\\' := by
    intro hc
    rw [hc] at hl
    exact absurd hl (by decide)
  obtain ⟨hword, heven⟩ := h
  refine ⟨?_, by simp [hc]⟩
  simp only [endsWithControlWord, Bool.and_eq_false_iff, Bool.not_eq_false', List.isEmpty_iff,
    beq_eq_false_iff_ne] at hword ⊢
  right
  rw [List.dropWhile_cons_of_pos hl]
  rcases hword with hword | hword
  · cases r with
    | nil => simp
    | cons d r =>
        have hd : Text.isLetter d = false := by
          cases hd : Text.isLetter d with
          | false => rfl
          | true => simp [hd] at hword
        rw [List.dropWhile_cons_of_neg (by simp [hd])]
        omega
  · exact hword

theorem Ready.separate {r : List Char} {w : Bool} (h : Ready r w) {text : List Char}
    (ht : startsWithLetter text = true) : Ready ((separator w text).reverse ++ r) false := by
  unfold separator
  cases w with
  | false => simpa using h
  | true =>
      rw [Bool.true_and, if_pos ht]
      exact ready_cons r (by decide) (by decide)

theorem Ready.controlWord {r : List Char} {w : Bool} (h : Ready r w) {name : List Char}
    (hne : name ≠ []) (hname : ∀ c ∈ name, Text.isLetter c = true) :
    Ready ((('\\' : Char) :: name).reverse ++ r) true := by
  have hletters : ∀ c ∈ name.reverse, Text.isLetter c = true := fun c hc =>
    hname c (List.mem_reverse.1 hc)
  have hbackslash : Text.isLetter '\\' = false := by decide
  have heven := h.backslashes
  rw [List.reverse_cons, List.append_assoc, List.singleton_append]
  refine ⟨?_, ?_⟩
  · unfold endsWithControlWord
    rw [List.takeWhile_append_of_pos hletters, List.dropWhile_append_of_pos hletters,
      List.takeWhile_cons_of_neg (by simp [hbackslash]),
      List.dropWhile_cons_of_neg (by simp [hbackslash])]
    simp only [List.append_nil, List.isEmpty_reverse, List.takeWhile_cons, beq_self_eq_true,
      if_true, List.length_cons]
    have hempty : name.isEmpty = false := by simpa using hne
    rw [hempty]
    simp only [Bool.not_false, Bool.true_and, beq_iff_eq]
    omega
  · obtain ⟨c, rest, hrev⟩ := List.exists_cons_of_ne_nil (List.reverse_ne_nil_iff.2 hne)
    have hc : c ≠ '\\' := by
      intro hc
      have hl := hletters c (hrev ▸ List.mem_cons_self)
      rw [hc, hbackslash] at hl
      cases hl
    rw [hrev]
    simp [hc]

theorem Ready.controlSymbol {r : List Char} {w : Bool} (h : Ready r w) {c : Char}
    (hc : Text.isLetter c = false) : Ready ([('\\' : Char), c].reverse ++ r) false := by
  have heven := h.backslashes
  refine ⟨?_, ?_⟩
  · simp [endsWithControlWord, hc]
  · by_cases hb : c = '\\'
    · simp only [hb, List.reverse_cons, List.reverse_nil, List.nil_append, List.cons_append,
        List.takeWhile_cons, beq_self_eq_true, if_true, List.length_cons]
      omega
    · simp [hb]

theorem Ready.token {r : List Char} {w : Bool} (h : Ready r w) {t : Token}
    (ht : t.isProper = true) : Ready ((separator w t.text ++ t.text).reverse ++ r) t.isWord := by
  have hmark {c : Char} (hl : Text.isLetter c = false) (hc : c ≠ '\\') :
      Ready ((separator w [c] ++ [c]).reverse ++ r) false := by
    have hsep : separator w [c] = [] := by simp [separator, startsWithLetter, hl]
    rw [hsep]
    exact ready_cons r hl hc
  cases t with
  | endOfInput => cases ht
  | argument ref => cases ht
  | char c =>
      have hc : c ≠ '\\' := by simpa [Token.isProper] using ht
      cases hl : Text.isLetter c with
      | false => exact hmark hl hc
      | true =>
          have hstart : startsWithLetter [c] = true := hl
          have hready := (h.separate hstart).cons_letter hl
          simpa [Token.text, Token.isWord] using hready
  | control name =>
      have hsep : separator w (Token.control name).text = [] := by
        have hbackslash : Text.isLetter '\\' = false := by decide
        simp [separator, Token.text, startsWithLetter, hbackslash]
      rw [hsep, List.nil_append, Token.text, Token.isWord]
      simp only [Token.isProper, isProperName, Bool.and_eq_true, Bool.not_eq_true',
        List.isEmpty_eq_false_iff, Bool.or_eq_true, List.all_eq_true, beq_iff_eq] at ht
      obtain ⟨hne, hname⟩ := ht
      by_cases hstart : startsWithLetter name.toList = true
      · rw [hstart]
        refine h.controlWord hne fun c hc => ?_
        rcases hname with hall | hone
        · exact hall c hc
        · obtain ⟨d, hd⟩ := List.length_eq_one_iff.1 hone
          rw [hd] at hstart hc
          rwa [List.mem_singleton.1 hc]
      · obtain ⟨c, rest, hcons⟩ := List.exists_cons_of_ne_nil hne
        have hl : Text.isLetter c = false := by simpa [startsWithLetter, hcons] using hstart
        have hrest : rest = [] := by
          rcases hname with hall | hone
          · have hletter := hall c (hcons ▸ List.mem_cons_self)
            rw [hl] at hletter
            cases hletter
          · simpa [hcons] using hone
        rw [hcons, hrest, startsWithLetter, hl]
        exact h.controlSymbol hl
  | groupBegin => exact hmark (c := '{') (by decide) (by decide)
  | groupEnd => exact hmark (c := '}') (by decide) (by decide)
  | superscript => exact hmark (c := '^') (by decide) (by decide)
  | subscript => exact hmark (c := '_') (by decide) (by decide)
  | alignment => exact hmark (c := '&') (by decide) (by decide)

theorem Ready.spell {r : List Char} {w : Bool} (h : Ready r w) {ts : List Token}
    (ht : ∀ t ∈ ts, t.isProper = true) :
    Ready ((spell w ts).reverse ++ r) (endsWithWord w ts) := by
  induction ts generalizing r w with
  | nil => exact h
  | cons t ts ih =>
      have hrest := ih (h.token (ht t List.mem_cons_self)) fun u hu =>
        ht u (List.mem_cons_of_mem t hu)
      simpa [Writer.spell, endsWithWord] using hrest

/-! ## Pieces -/

/-- The token of a character that is written as it stands. -/
def markToken (c : Char) : Token :=
  if c = '{' then .groupBegin
  else if c = '}' then .groupEnd
  else if c = '^' then .superscript
  else if c = '_' then .subscript
  else if c = '&' then .alignment
  else .char c

/-- The tokens of a text that may start with a command. -/
def textTokens : List Char → List Token
  | [] => []
  | c :: rest =>
      if c = '\\' then
        let name := Lexer.readName rest
        .control (String.ofList name.1) :: name.2.map markToken
      else (c :: rest).map markToken

end Writer

open Writer

/-- The text of a piece. -/
def Piece.text : Piece → List Char
  | exact text | word text => text

/-- The tokens of a piece. A single character that is no mark is not read as one. -/
def Piece.tokens : Piece → List Token
  | word [c] => if c = '\\' then [.control ""] else [.char c]
  | word text | exact text => textTokens text

/-- The piece is the spelling of its tokens wherever it is appended. -/
structure Piece.IsSpelled (p : Piece) : Prop where
  text_eq : p.text = spell false p.tokens
  isProper : ∀ t ∈ p.tokens, t.isProper = true
  startsWithLetter_exact : ∀ text, p = .exact text → startsWithLetter text = false

theorem Piece.append_eq {p : Piece} (r : List Char) :
    append r p = (match p with
      | .exact text => text.reverse ++ r
      | .word text => (separator (endsWithControlWord r) text ++ text).reverse ++ r) := by
  cases p with
  | exact text => rfl
  | word text =>
      simp only [append, separator, Bool.and_comm (endsWithControlWord r)]
      split <;> simp

theorem Piece.IsSpelled.append {p : Piece} (h : p.IsSpelled) {r : List Char} {w : Bool}
    (hr : Ready r w) : append r p = (spell w p.tokens).reverse ++ r := by
  rw [Piece.append_eq, spell_eq_separator w h.isProper, ← h.text_eq]
  cases p with
  | exact text =>
      have hsep : separator w text = [] := by
        simp [separator, h.startsWithLetter_exact text rfl]
      simp [Piece.text, hsep]
  | word text => rw [hr.word]; rfl

namespace Writer

theorem foldl_append {ps : List Piece} (h : ∀ p ∈ ps, p.IsSpelled) {r : List Char} {w : Bool}
    (hr : Ready r w) : ps.foldl append r = (spell w (ps.flatMap Piece.tokens)).reverse ++ r := by
  induction ps generalizing r w with
  | nil => rfl
  | cons p ps ih =>
      have hp := h p List.mem_cons_self
      have hrest := ih (fun q hq => h q (List.mem_cons_of_mem p hq)) (hr.spell hp.isProper)
      rw [List.foldl_cons, hp.append hr, hrest, List.flatMap_cons, spell_append,
        List.reverse_append, List.append_assoc]

/-- Pieces are put together by spelling their tokens. -/
theorem assemble_eq_spell {ps : List Piece} (h : ∀ p ∈ ps, p.IsSpelled) :
    assemble ps = spell false (ps.flatMap Piece.tokens) := by
  rw [assemble, foldl_append h ready_nil, List.append_nil, List.reverse_reverse]

/-! ## The pieces that are written -/

theorem text_markToken (c : Char) : (markToken c).text = [c] := by
  unfold markToken
  split
  · simp_all [Token.text]
  split
  · simp_all [Token.text]
  split
  · simp_all [Token.text]
  split
  · simp_all [Token.text]
  split
  · simp_all [Token.text]
  · rfl

theorem isProper_markToken {c : Char} (hc : c ≠ '\\') : (markToken c).isProper = true := by
  unfold markToken
  repeat' split
  all_goals simp [Token.isProper, hc]

theorem isSpelled_mark {c : Char} (hl : Text.isLetter c = false) (hc : c ≠ '\\') :
    (mark c).IsSpelled := by
  have htokens : (mark c).tokens = [markToken c] := by
    simp [mark, Piece.tokens, textTokens, hc]
  refine ⟨?_, ?_, ?_⟩
  · rw [htokens]
    simp [mark, Piece.text, spell, separator, text_markToken]
  · simpa [htokens] using isProper_markToken hc
  · intro text h
    cases h
    exact hl

theorem isSpelled_char {c : Char} (hc : c ≠ '\\') : (Piece.word [c]).IsSpelled := by
  have htokens : (Piece.word [c]).tokens = [.char c] := by simp [Piece.tokens, hc]
  refine ⟨?_, ?_, fun text h => by cases h⟩
  · rw [htokens]
    simp [Piece.text, spell, separator, Token.text]
  · simp [htokens, Token.isProper, hc]

theorem readName_of_isProperName {name : List Char} (h : isProperName name = true) :
    Lexer.readName name = (name, []) := by
  simp only [isProperName, Bool.and_eq_true, Bool.not_eq_true', List.isEmpty_eq_false_iff,
    Bool.or_eq_true, List.all_eq_true, beq_iff_eq] at h
  obtain ⟨hne, hall | hone⟩ := h
  · have htake : (name ++ []).takeWhile Text.isLetter = name ++ [].takeWhile Text.isLetter :=
      List.takeWhile_append_of_pos hall
    have hdrop : (name ++ []).dropWhile Text.isLetter = [].dropWhile Text.isLetter :=
      List.dropWhile_append_of_pos hall
    rw [List.append_nil, List.takeWhile_nil, List.append_nil] at htake
    rw [List.append_nil, List.dropWhile_nil] at hdrop
    unfold Lexer.readName
    rw [htake, hdrop]
    cases name <;> rfl
  · obtain ⟨c, rfl⟩ := List.length_eq_one_iff.1 hone
    unfold Lexer.readName
    cases hl : Text.isLetter c <;> simp [hl]

theorem toList_command (name : String) :
    (Vocabulary.command name).toList = '\\' :: name.toList := by
  rw [Vocabulary.command, String.toList_append]
  rfl

theorem tokens_command {name : String} (h : isProperName name.toList = true) :
    (Piece.word (Vocabulary.command name).toList).tokens = [.control name] := by
  have hne : name.toList ≠ [] := by
    intro hnil
    rw [hnil] at h
    cases h
  obtain ⟨c, rest, hcons⟩ := List.exists_cons_of_ne_nil hne
  rw [toList_command, hcons, Piece.tokens, textTokens, if_pos rfl, ← hcons,
    readName_of_isProperName h]
  · simp only [String.ofList_toList, List.map_nil]
  · intro d hd
    cases hd

theorem isSpelled_command {name : String} (h : isProperName name.toList = true) :
    (Piece.word (Vocabulary.command name).toList).IsSpelled := by
  refine ⟨?_, ?_, fun text h => by cases h⟩
  · rw [tokens_command h, Piece.text, toList_command]
    simp [spell, separator, Token.text]
  · rw [tokens_command h]
    simpa [Token.isProper] using h

/-- A special character is written as a command. -/
theorem tokens_special (c : Char) :
    (Piece.exact ['\\', c]).tokens = [.control (String.singleton c)] := by
  have hproper : isProperName [c] = true := by simp [isProperName]
  rw [Piece.tokens, textTokens, if_pos rfl, readName_of_isProperName hproper]
  rfl

theorem isSpelled_special (c : Char) : (Piece.exact ['\\', c]).IsSpelled := by
  have hname : (String.singleton c).toList = [c] := String.toList_singleton c
  refine ⟨?_, ?_, fun text h => ?_⟩
  · rw [tokens_special]
    simp [spell, separator, Token.text, Piece.text, hname]
  · rw [tokens_special]
    simp [Token.isProper, isProperName, hname]
  · cases h
    rfl

/-- The tokens of a command with the name of an environment. -/
def environmentTokens (command name : String) : List Token :=
  .control command :: .groupBegin :: name.toList.map .char ++ [.groupEnd]

theorem environmentMark_begin : ∀ name ∈ Vocabulary.arrayEnvironments,
    (environmentMark "\\begin" name.toList).tokens = environmentTokens "begin" name ∧
      (environmentMark "\\begin" name.toList).text = spell false (environmentTokens "begin" name) ∧
      (environmentTokens "begin" name).all Token.isProper = true := by
  decide

theorem environmentMark_end : ∀ name ∈ Vocabulary.arrayEnvironments,
    (environmentMark "\\end" name.toList).tokens = environmentTokens "end" name ∧
      (environmentMark "\\end" name.toList).text = spell false (environmentTokens "end" name) ∧
      (environmentTokens "end" name).all Token.isProper = true := by
  decide

/-! ## Identities and marks are not written -/

theorem isBareGroup_bare (a : Atom) : (a.mapLabels Label.bare).isBareGroup = a.isBareGroup := by
  have hkind : (a.mapLabels Label.bare).kind = a.kind :=
    Atom.kind_mapLabels (f := Label.bare) (fun _ => rfl) a
  simp [Atom.isBareGroup, Atom.hasScripts, Atom.branch_mapLabels, hkind]

theorem value_bare (a : Atom) : (a.mapLabels Label.bare).value = a.value := by
  simp [Atom.value, Atom.label_mapLabels, Label.bare]

theorem needsBraces_bare (atoms : List Atom) :
    needsBraces (Atom.mapLabelsOfList Label.bare atoms) = needsBraces atoms := by
  rw [Atom.mapLabelsOfList_eq_map]
  unfold needsBraces
  congr 1
  · cases atoms with
    | nil => rfl
    | cons a rest =>
        cases rest with
        | nil => exact isBareGroup_bare a
        | cons b rest => rfl
  · simp [List.any_map, Function.comp_def, value_bare]

mutual

theorem pieces_bare : (a : Atom) → pieces (a.mapLabels Label.bare) = pieces a
  | .node label ⟨body, sup, sub, numerator, denominator, index, radicand⟩ => by
      simp only [Atom.mapLabels, pieces, Label.bare, branchPieces_bare, scriptPieces_bare,
        indexPieces_bare, arrayPieces_bare]

theorem branchPieces_bare : (b : Option (List Atom)) →
    branchPieces (Atom.mapLabelsOfBranch Label.bare b) = branchPieces b
  | none => rfl
  | some atoms => by simp only [Atom.mapLabelsOfBranch, branchPieces, listPieces_bare atoms]

theorem listPieces_bare : (atoms : List Atom) →
    listPieces (Atom.mapLabelsOfList Label.bare atoms) = listPieces atoms
  | [] => rfl
  | a :: rest => by
      simp only [Atom.mapLabelsOfList, listPieces, pieces_bare a, listPieces_bare rest]

theorem scriptPieces_bare (c : Char) : (b : Option (List Atom)) →
    scriptPieces c (Atom.mapLabelsOfBranch Label.bare b) = scriptPieces c b
  | none => rfl
  | some atoms => by simp only [Atom.mapLabelsOfBranch, scriptPieces, listPieces_bare atoms]

theorem indexPieces_bare : (b : Option (List Atom)) →
    indexPieces (Atom.mapLabelsOfBranch Label.bare b) = indexPieces b
  | none => rfl
  | some atoms => by
      simp only [Atom.mapLabelsOfBranch, indexPieces, listPieces_bare atoms, needsBraces_bare]

theorem arrayPieces_bare : (b : Option (List Atom)) →
    arrayPieces (Atom.mapLabelsOfBranch Label.bare b) = arrayPieces b
  | none => rfl
  | some rows => by simp only [Atom.mapLabelsOfBranch, arrayPieces, rowsPieces_bare true rows]

theorem rowsPieces_bare (first : Bool) : (rows : List Atom) →
    rowsPieces first (Atom.mapLabelsOfList Label.bare rows) = rowsPieces first rows
  | [] => rfl
  | .node _ ⟨cells, _, _, _, _, _, _⟩ :: rest => by
      simp only [Atom.mapLabelsOfList, Atom.mapLabels, rowsPieces, rowPieces_bare cells,
        rowsPieces_bare false rest]

theorem rowPieces_bare : (b : Option (List Atom)) →
    rowPieces (Atom.mapLabelsOfBranch Label.bare b) = rowPieces b
  | none => rfl
  | some cells => by simp only [Atom.mapLabelsOfBranch, rowPieces, cellsPieces_bare true cells]

theorem cellsPieces_bare (first : Bool) : (cells : List Atom) →
    cellsPieces first (Atom.mapLabelsOfList Label.bare cells) = cellsPieces first cells
  | [] => rfl
  | cell :: rest => by
      simp only [Atom.mapLabelsOfList, cellsPieces, pieces_bare cell, cellsPieces_bare false rest]

end

end Writer

/-! ## Formulas -/

/-- The tokens that an atom is written as. -/
def tokensOf (a : Atom) : List Token :=
  (Writer.pieces a).flatMap Piece.tokens

/-- The tokens that a sequence is written as. -/
def tokensOfList (atoms : List Atom) : List Token :=
  (Writer.listPieces atoms).flatMap Piece.tokens

theorem tokensOfList_nil : tokensOfList [] = [] := rfl

theorem tokensOfList_cons (a : Atom) (atoms : List Atom) :
    tokensOfList (a :: atoms) = tokensOf a ++ tokensOfList atoms := by
  simp [tokensOfList, tokensOf, Writer.listPieces]

theorem Writer.pieces_of_bare_eq {a b : Atom} (h : a.bare = b.bare) : pieces a = pieces b := by
  rw [← pieces_bare a, ← Atom.bare, h, Atom.bare, pieces_bare]

theorem tokensOf_of_bare_eq {a b : Atom} (h : a.bare = b.bare) : tokensOf a = tokensOf b := by
  rw [tokensOf, Writer.pieces_of_bare_eq h, tokensOf]

theorem Writer.listPieces_of_bare_eq {atoms atoms' : List Atom}
    (h : atoms.map Atom.bare = atoms'.map Atom.bare) : listPieces atoms = listPieces atoms' := by
  have hpieces (xs : List Atom) : listPieces (xs.map Atom.bare) = listPieces xs := by
    rw [← listPieces_bare xs, Atom.mapLabelsOfList_eq_map]
    rfl
  rw [← hpieces atoms, h, hpieces]

/-- Alike formulas are written in the same way. -/
theorem write_of_bare_eq {atoms atoms' : List Atom}
    (h : atoms.map Atom.bare = atoms'.map Atom.bare) : write atoms = write atoms' := by
  rw [write, Writer.listPieces_of_bare_eq h, write]

theorem write_eq_spell {atoms : List Atom} (h : ∀ p ∈ Writer.listPieces atoms, p.IsSpelled) :
    (write atoms).toList = Writer.spell false (tokensOfList atoms) := by
  rw [write, String.toList_ofList, Writer.assemble_eq_spell h, tokensOfList]

end FormulaEditor.Latex

import FormulaEditor.Proofs.Latex.Lexing
import FormulaEditor.Proofs.Latex.Reading
import FormulaEditor.Proofs.Latex.Writing

/-!
# Legible formulas

A formula is legible if it looks like what the reader makes from the tokens that it is written as.
Only commands without a meaning depend on what follows: one that lacks its arguments must not find
them in the tokens after it.
-/

namespace FormulaEditor

theorem Minting.map_mapM {α β γ δ : Type} {f : α → Minting β} {g : β → γ} {h : α → δ}
    (hf : ∀ a b, h a = h b → ∀ n n', g (f a n).1 = g (f b n').1) {as bs : List α}
    (heq : as.map h = bs.map h) (n n' : Nat) :
    (as.mapM f n).1.map g = (bs.mapM f n').1.map g := by
  induction as generalizing bs n n' with
  | nil =>
      obtain rfl : bs = [] := by simpa using heq.symm
      rfl
  | cons a as ih =>
      cases bs with
      | nil => simp at heq
      | cons b bs =>
          rw [List.map_cons, List.map_cons, List.cons.injEq] at heq
          simp [hf a b heq.1 n n', ih heq.2 (f a n).2 (f b n').2]

theorem map_eq_of_map_eq {α β γ : Type} {g : α → β} {h : α → γ}
    (himp : ∀ a b, g a = g b → h a = h b) {as bs : List α} (heq : as.map g = bs.map g) :
    as.map h = bs.map h := by
  induction as generalizing bs with
  | nil =>
      obtain rfl : bs = [] := by simpa using heq.symm
      rfl
  | cons a as ih =>
      cases bs with
      | nil => simp at heq
      | cons b bs =>
          rw [List.map_cons, List.map_cons, List.cons.injEq] at heq
          rw [List.map_cons, List.map_cons, himp a b heq.1, ih heq.2]

namespace Latex

/-! ## Making alike atoms -/

/-- An argument as the atom of a command holds it: only text may be empty. -/
def fillArgument (action : Action) (content : List Atom) : List Atom :=
  if action = .text then content else Atom.fill content

theorem map_bare_fillArgument (action : Action) {as bs : List Atom}
    (h : as.map Atom.bare = bs.map Atom.bare) :
    (fillArgument action as).map Atom.bare = (fillArgument action bs).map Atom.bare := by
  unfold fillArgument
  split
  · exact h
  · exact Atom.map_bare_fill h

theorem bare_newWithArguments {action : Action} (ht : action.takesArguments = true)
    (command : String) {contents contents' : List (List Atom)} {index index' : Option (List Atom)}
    (hc : contents.map (fun c => (fillArgument action c).map Atom.bare) =
      contents'.map fun c => (fillArgument action c).map Atom.bare)
    (hi : action = .radical → (Atom.nonemptyIndex index).map (List.map Atom.bare) =
      (Atom.nonemptyIndex index').map (List.map Atom.bare)) (n n' : Nat) :
    (Reader.newWithArguments action command contents index n).1.bare =
      (Reader.newWithArguments action command contents' index' n').1.bare := by
  have harg (i : Nat) : (fillArgument action (contents.getD i [])).map Atom.bare =
      (fillArgument action (contents'.getD i [])).map Atom.bare := by
    have hget := congrArg (fun cs : List (List Atom) => cs[i]?) hc
    simp only [List.getElem?_map] at hget
    cases hl : contents[i]? <;> cases hr : contents'[i]? <;> simp_all [List.getD]
  cases action with
  | fraction => exact Atom.bare_newFraction command (harg 0) (harg 1) n n'
  | radical => exact Atom.bare_newRadical (harg 0) (hi rfl) n n'
  | accent glyph =>
      have hw := Atom.bare_newWrapper (rfl : Kind.shape .accent = .sequence) (some command) (harg 0) n n'
      exact (Atom.bare_withGlyph _ _).trans
        ((congrArg (Atom.withGlyph · (some glyph)) hw).trans (Atom.bare_withGlyph _ _).symm)
  | font =>
      exact Atom.bare_newWrapper (rfl : Kind.shape .font = .sequence) (some command) (harg 0) n n'
  | text =>
      exact Atom.bare_newWrapper (rfl : Kind.shape .text = .sequence) (some command) (harg 0) n n'
  | _ => cases ht

theorem bare_newArray (name : String) {rows rows' : List (List (List Atom))}
    (h : rows.map (List.map fun c => (Atom.fill c).map Atom.bare) =
      rows'.map (List.map fun c => (Atom.fill c).map Atom.bare)) (n n' : Nat) :
    (Reader.newArray name rows n).1.bare = (Reader.newArray name rows' n').1.bare := by
  have hcell (c c' : List Atom) (hc : (Atom.fill c).map Atom.bare = (Atom.fill c').map Atom.bare)
      (n n' : Nat) : (newCell c n).1.bare = (newCell c' n').1.bare :=
    Atom.bare_newWrapper (rfl : Kind.shape .cell = .sequence) none hc n n'
  have hrow (cells cells' : List (List Atom))
      (hc : cells.map (fun c => (Atom.fill c).map Atom.bare) =
        cells'.map fun c => (Atom.fill c).map Atom.bare) (n n' : Nat) :
      (newRow cells n).1.bare = (newRow cells' n').1.bare :=
    Atom.bare_newWrapper (rfl : Kind.shape .row = .sequence) none (Minting.map_mapM hcell hc n n') _ _
  rw [newArray_eq]
  exact Atom.bare_newWrapper (rfl : Kind.shape .array = .sequence) (some name)
    (Minting.map_mapM hrow h n n') _ _

theorem bare_newWithArguments_of_bare {action : Action} (ht : action.takesArguments = true)
    (command : String) {contents contents' : List (List Atom)} {index index' : Option (List Atom)}
    (hc : contents.map (List.map Atom.bare) = contents'.map (List.map Atom.bare))
    (hi : index.map (List.map Atom.bare) = index'.map (List.map Atom.bare)) (n n' : Nat) :
    (Reader.newWithArguments action command contents index n).1.bare =
      (Reader.newWithArguments action command contents' index' n').1.bare :=
  bare_newWithArguments ht command
    (map_eq_of_map_eq (fun _ _ => map_bare_fillArgument action) hc)
    (fun _ => Atom.map_bare_nonemptyIndex hi) n n'

theorem bare_newArray_of_bare (name : String) {rows rows' : List (List (List Atom))}
    (h : rows.map (List.map (List.map Atom.bare)) = rows'.map (List.map (List.map Atom.bare)))
    (n n' : Nat) :
    (Reader.newArray name rows n).1.bare = (Reader.newArray name rows' n').1.bare := by
  refine bare_newArray name (map_eq_of_map_eq (fun cells cells' hcells => ?_) h) n n'
  exact map_eq_of_map_eq (fun _ _ => Atom.map_bare_fill) hcells

theorem bare_newMathChar (c : Char) (n n' : Nat) :
    (Reader.newMathChar c n).1.bare = (Reader.newMathChar c n').1.bare := by
  unfold Reader.newMathChar
  split
  · rfl
  · split <;> rfl

/-! ## Legible atoms -/

/-- Whether a character is written as it stands. -/
def isLiteral (c : Char) : Bool :=
  c != '\\' && !Writer.special.contains c

/-- Every atom of a sequence is related to the tokens that follow it there, of which `k` follow the
sequence. -/
def InPlace (R : List Token → Atom → Prop) (k : List Token) (atoms : List Atom) : Prop :=
  ∀ before a after, atoms = before ++ a :: after → R (tokensOfList after ++ k) a

theorem forall_mem_of_append {α : Type} {Q : α → Prop} {as : List α}
    (h : ∀ before a after, as = before ++ a :: after → Q a) : ∀ a ∈ as, Q a := by
  intro a ha
  obtain ⟨before, after, heq⟩ := List.append_of_mem ha
  exact h before a after heq

/-- Reading a command before certain tokens makes an unknown command, and leaves the tokens. -/
def IsStranded (mode : ReadingMode) (name : String) (k : List Token) : Prop :=
  ∀ (span : Span) (done : List Atom) (s : Reader), s.rest.map SpannedToken.token = k →
    (Reader.readCommand [] name span mode done s).2.rest = s.rest ∧
      ∃ n, (Reader.readCommand [] name span mode done s).1 =
        (Reader.newUnknownCommand (Vocabulary.command name) n).1 :: done

/-- Whether a character is read as itself outside of text. -/
def isMathChar (c : Char) : Bool :=
  Lexer.Place.start.keepsChar c

/-- An atom that looks like what the reader makes from its tokens, before the tokens `k`. If it is
`textless`, there is no text in it, every character is one that can be read outside of text, and a
command that is kept as it is written has no meaning. If it is `flawless`, there is no such command.
-/
inductive Legible (textless flawless : Prop) : ReadingMode → List Token → Atom → Prop
  | char {k : List Token} {a : Atom} {c : Char} : (textless → isMathChar c = true) →
      isLiteral c = true → c ≠ Text.Quoted.singleQuote →
      a.bare = (Reader.newMathChar c 0).1.bare → Legible textless flawless .math k a
  | textChar {k : List Token} {a : Atom} {c : Char} : isLiteral c = true →
      a.bare = (Atom.newChar .ordinary c 0).1.bare → Legible textless flawless .text k a
  | symbol {mode : ReadingMode} {k : List Token} {a : Atom} {name : String} {m : Meaning}
      {kind : Kind} {glyph : Char} : Vocabulary.find? name = some m →
      m.action = .symbol kind glyph →
      a.bare = (Atom.leaf 0 kind (some (Vocabulary.command name)) (some glyph)).bare →
      Legible textless flawless mode k a
  | function {k : List Token} {a : Atom} {name : String} {m : Meaning} :
      Vocabulary.find? name = some m → m.action = .function →
      a.bare = (Atom.leaf 0 .operator (some (Vocabulary.command name)) none).bare →
      Legible textless flawless .math k a
  | space {mode : ReadingMode} {k : List Token} {a : Atom} {name : String} {m : Meaning} :
      Vocabulary.find? name = some m → m.action = .space →
      a.bare = (Atom.leaf 0 .space (some (Vocabulary.command name)) none).bare →
      Legible textless flawless mode k a
  | unknown {mode : ReadingMode} {k : List Token} {a : Atom} {name : String} : ¬flawless →
      (textless → Vocabulary.find? name = none) → isProperName name.toList = true → (mode = .math → name ≠ "\\" ∧ name ≠ "end") →
      IsStranded mode name k →
      a.bare = (Atom.leaf 0 .unknownCommand (some (Vocabulary.command name)) none).bare →
      Legible textless flawless mode k a
  | placeholder {k : List Token} {a : Atom} : a.bare = (Atom.placeholder 0).bare →
      Legible textless flawless .math k a
  | group {mode : ReadingMode} {k : List Token} {a : Atom} {atoms : List Atom} :
      InPlace (Legible textless flawless mode) (.groupEnd :: k) atoms →
      a.bare = (Atom.newWrapper .group none atoms 0).1.bare → Legible textless flawless mode k a
  | withArguments {k : List Token} {a : Atom} {name : String} {m : Meaning}
      {contents : List (List Atom)} {index : Option (List Atom)} :
      (textless → m.action ≠ .text) → IsApplication name m contents index →
      (∀ before content after, contents = before ++ content :: after →
        InPlace (Legible textless flawless m.action.argumentMode) (.groupEnd :: argumentTokens after ++ k)
          content) →
      (∀ atoms, index = some atoms →
        InPlace (Legible textless flawless .math) (indexEnd atoms ++ argumentTokens contents ++ k) atoms) →
      a.bare =
        (Reader.newWithArguments m.action (Vocabulary.command name) contents index 0).1.bare →
      Legible textless flawless .math k a
  | array {k : List Token} {a : Atom} {name : String} {rows : List (List (List Atom))} :
      Vocabulary.isArrayEnvironment name = true → IsGrid rows →
      (∀ above cells below, rows = above ++ cells :: below →
        ∀ before content after, cells = before ++ content :: after →
          InPlace (Legible textless flawless .math)
            (cellsTokens after ++ rowsTokens below ++ environmentEnd name k) content) →
      a.bare = (Reader.newArray name rows 0).1.bare → Legible textless flawless .math k a
  | script {mode : ReadingMode} {k : List Token} {a b : Atom} {slot : Slot} {atoms : List Atom} :
      Legible textless flawless mode (scriptTokens slot atoms ++ k) a → slot.isScript = true →
      a.kind.allowsScripts = true → a.branch slot = none → a.branch .superscript = none →
      atoms ≠ [] → InPlace (Legible textless flawless mode) (.groupEnd :: k) atoms →
      b.bare = (a.putBranch slot (some atoms)).bare → Legible textless flawless mode k b

/-- A sequence of legible atoms before the tokens `k`. -/
def LegibleList (textless flawless : Prop) (mode : ReadingMode) (k : List Token) (atoms : List Atom) : Prop :=
  InPlace (Legible textless flawless mode) k atoms

/-! ## The tokens of legible atoms -/

/-- Whether a token begins an atom: it is no mark of a script or a cell, and ends nothing. -/
def Token.opens (mode : ReadingMode) : Token → Bool
  | char c => mode == .text || c != Text.Quoted.singleQuote
  | control name => mode == .text || (name != "\\" && name != "end")
  | groupBegin => true
  | groupEnd | superscript | subscript | alignment | endOfInput | argument _ => false

section

open Writer

theorem tokens_escaped_char {c : Char} (h : isLiteral c = true) : (escaped [c]).tokens = [.char c] := by
  simp only [isLiteral, Bool.and_eq_true, bne_iff_ne, Bool.not_eq_true'] at h
  simp only [escaped, h.2, Bool.false_eq_true, if_false, Piece.tokens, h.1]

theorem isSpelled_escaped_char {c : Char} (h : isLiteral c = true) : (escaped [c]).IsSpelled := by
  simp only [isLiteral, Bool.and_eq_true, bne_iff_ne, Bool.not_eq_true'] at h
  simp only [escaped, h.2, Bool.false_eq_true, if_false]
  exact isSpelled_char h.1

theorem escaped_command {name : String} (h : isProperName name.toList = true) :
    escaped (Vocabulary.command name).toList = .word (Vocabulary.command name).toList := by
  rw [toList_command]
  cases hn : name.toList with
  | nil =>
      rw [hn] at h
      cases h
  | cons c rest => rfl

variable {c : Char} {kind : Kind} {name : String} {glyph : Option Char} {n : Nat}

theorem pieces_newMathChar (hc : c ≠ Text.Quoted.singleQuote) (n : Nat) :
    pieces (Reader.newMathChar c n).1 = [escaped [c]] := by
  have hkind : (Reader.charKind c).1.isSpelled = true := by
    unfold Reader.charKind
    split <;> rfl
  unfold Reader.newMathChar
  rw [if_neg hc]
  split
  · rename_i htilde
    rw [htilde]
    exact pieces_leaf (rfl : Kind.isSpelled .space = true) n "~" none
  · have hvalue : (String.singleton c).toList = [c] := String.toList_singleton c
    rw [← hvalue]
    exact pieces_leaf hkind n (String.singleton c) (some (Reader.charKind c).2)

theorem pieces_newChar (c : Char) (n : Nat) :
    pieces (Atom.newChar .ordinary c n).1 = [escaped [c]] := by
  have hvalue : (String.singleton c).toList = [c] := String.toList_singleton c
  rw [← hvalue]
  exact pieces_leaf (rfl : Kind.isSpelled .ordinary = true) n (String.singleton c) (some c)

theorem pieces_command (hk : kind.isSpelled = true) (hn : isProperName name.toList = true) (id : Nat) :
    pieces (Atom.leaf id kind (some (Vocabulary.command name)) glyph) =
      [.word (Vocabulary.command name).toList] := by
  rw [pieces_leaf hk, escaped_command hn]

theorem tokensOf_command (hk : kind.isSpelled = true) (hn : isProperName name.toList = true) (id : Nat) :
    tokensOf (Atom.leaf id kind (some (Vocabulary.command name)) glyph) = [.control name] := by
  simp [tokensOf, pieces_command hk hn, tokens_command hn]

theorem tokensOf_newMathChar (h : isLiteral c = true) (hc : c ≠ Text.Quoted.singleQuote) (n : Nat) :
    tokensOf (Reader.newMathChar c n).1 = [.char c] := by
  simp [tokensOf, pieces_newMathChar hc, tokens_escaped_char h]

theorem tokensOf_newChar (h : isLiteral c = true) (n : Nat) :
    tokensOf (Atom.newChar .ordinary c n).1 = [.char c] := by
  simp [tokensOf, pieces_newChar, tokens_escaped_char h]

end

section

open Writer

variable {textless flawless : Prop} {mode : ReadingMode} {k : List Token} {a : Atom}

/-- Commands with a meaning of their own for a sequence are no atoms. -/
theorem opens_of_find? {name : String} {m : Meaning} (h : Vocabulary.find? name = some m)
    (ha : m.action ≠ .newRow ∧ m.action ≠ .endEnvironment) (mode : ReadingMode) :
    (Token.control name).opens mode = true := by
  have hrow : name ≠ "\\" := by
    intro hn
    rw [hn, Vocabulary.find?_newRow] at h
    cases h
    exact ha.1 rfl
  have hend : name ≠ "end" := by
    intro hn
    rw [hn, Vocabulary.find?_end] at h
    cases h
    exact ha.2 rfl
  simp [Token.opens, hrow, hend]

/-- The first token of a legible atom begins an atom; it is a closing bracket for nothing else. -/
theorem Legible.tokensOf_eq_cons (h : Legible textless flawless mode k a) :
    ∃ t ts, tokensOf a = t :: ts ∧ t.opens mode = true ∧
      (t = .char ']' → a.value = some "]") := by
  induction h with
  | char hs hc hprime hb =>
      rw [tokensOf_of_bare_eq hb, tokensOf_newMathChar hc hprime, Atom.value_of_bare_eq hb]
      refine ⟨_, _, rfl, by simp [Token.opens, hprime], fun heq => ?_⟩
      cases heq
      rfl
  | textChar hc hb =>
      rw [tokensOf_of_bare_eq hb, tokensOf_newChar hc, Atom.value_of_bare_eq hb]
      refine ⟨_, _, rfl, rfl, fun heq => ?_⟩
      cases heq
      rfl
  | symbol hf ha hb =>
      rw [tokensOf_of_bare_eq hb,
        tokensOf_command (Vocabulary.isSpelled_of_symbol hf ha).1 (Vocabulary.isProperName_of_find? hf)]
      exact ⟨_, _, rfl, opens_of_find? hf (by simp [ha]) _, nofun⟩
  | function hf ha hb | space hf ha hb =>
      rw [tokensOf_of_bare_eq hb, tokensOf_command rfl (Vocabulary.isProperName_of_find? hf)]
      exact ⟨_, _, rfl, opens_of_find? hf (by simp [ha]) _, nofun⟩
  | @unknown mode k a name hs hfind hn hname hk hb =>
      rw [tokensOf_of_bare_eq hb, tokensOf_command rfl hn]
      refine ⟨_, _, rfl, ?_, nofun⟩
      cases mode with
      | math => simp [Token.opens, hname rfl]
      | text => rfl
  | placeholder hb =>
      rw [tokensOf_of_bare_eq hb, tokensOf_placeholder]
      exact ⟨_, _, rfl, by decide, nofun⟩
  | group hc hb =>
      rw [tokensOf_of_bare_eq hb, tokensOf_group]
      exact ⟨_, _, rfl, rfl, nofun⟩
  | withArguments hs hi hc hx hb =>
      rw [tokensOf_of_bare_eq hb, tokensOf_newWithArguments hi]
      refine ⟨_, _, rfl, opens_of_find? hi.find ?_ _, nofun⟩
      have htakes := hi.takesArguments
      constructor <;> intro ha <;> rw [ha] at htakes <;> cases htakes
  | array hn hg hc hb =>
      rw [tokensOf_of_bare_eq hb, tokensOf_newArray hg hn]
      exact ⟨_, _, rfl, by decide, nofun⟩
  | script ha hs hk hnone hsup hne hc hb ih ihc =>
      obtain ⟨t, ts, htokens, hopens, hvalue⟩ := ih
      rw [tokensOf_of_bare_eq hb, tokensOf_putBranch hs hnone hsup, htokens, Atom.value_of_bare_eq hb]
      exact ⟨t, _, rfl, hopens, hvalue⟩

theorem Legible.allSpelled (h : Legible textless flawless mode k a) : AllSpelled (pieces a) := by
  have hcommand {name : String} (hn : isProperName name.toList = true) :
      AllSpelled [.word (Vocabulary.command name).toList] :=
    AllSpelled.cons (isSpelled_command hn) allSpelled_nil
  induction h with
  | char hs hc hprime hb =>
      rw [pieces_of_bare_eq hb, pieces_newMathChar hprime]
      exact AllSpelled.cons (isSpelled_escaped_char hc) allSpelled_nil
  | textChar hc hb =>
      rw [pieces_of_bare_eq hb, pieces_newChar]
      exact AllSpelled.cons (isSpelled_escaped_char hc) allSpelled_nil
  | symbol hf ha hb =>
      have hn := Vocabulary.isProperName_of_find? hf
      rw [pieces_of_bare_eq hb, pieces_command (Vocabulary.isSpelled_of_symbol hf ha).1 hn]
      exact hcommand hn
  | function hf ha hb | space hf ha hb =>
      have hn := Vocabulary.isProperName_of_find? hf
      rw [pieces_of_bare_eq hb, pieces_command rfl hn]
      exact hcommand hn
  | unknown hs hfind hn hname hk hb =>
      rw [pieces_of_bare_eq hb, pieces_command rfl hn]
      exact hcommand hn
  | placeholder hb =>
      rw [pieces_of_bare_eq hb]
      exact allSpelled_placeholder 0
  | group hc hb ih =>
      rw [pieces_of_bare_eq hb]
      exact allSpelled_group (forall_mem_of_append ih) 0
  | withArguments hs hi hc hx hb ihc ihx =>
      rw [pieces_of_bare_eq hb]
      exact allSpelled_newWithArguments hi
        (forall_mem_of_append fun before content after heq =>
          forall_mem_of_append (ihc before content after heq))
        (fun atoms hatoms => forall_mem_of_append (ihx atoms hatoms)) 0
  | array hn hg hc hb ih =>
      rw [pieces_of_bare_eq hb]
      exact allSpelled_newArray hg hn
        (forall_mem_of_append fun above cells below hrows =>
          forall_mem_of_append fun before content after heq =>
            forall_mem_of_append (ih above cells below hrows before content after heq)) 0
  | script ha hs hk hnone hsup hne hc hb ih ihc =>
      rw [pieces_of_bare_eq hb]
      exact allSpelled_putBranch hs hnone hsup ih (forall_mem_of_append ihc)

end

end Latex

end FormulaEditor

import FormulaEditor.Proofs.Latex.Branches

/-!
# How a source is cut

Reading tokens cuts a source from left to right into spellings of tokens, blanks, comments, and
characters that are dropped with a report. What holds of everything that is cut this way holds of
every source.
-/

namespace FormulaEditor.Latex.Lexer

/-! ## Bytes -/

theorem byteLength_cons (c : Char) (text : List Char) :
    byteLength (c :: text) = c.utf8Size + byteLength text := by
  have hfrom (n : Nat) : text.foldl (fun bytes c => bytes + c.utf8Size) n = n + byteLength text := by
    unfold byteLength
    induction text generalizing n with
    | nil => simp
    | cons d text ih =>
        rw [List.foldl_cons, List.foldl_cons, ih, ih (0 + d.utf8Size)]
        omega
  rw [byteLength, List.foldl_cons, hfrom]
  omega

theorem byteLength_singleton (c : Char) : byteLength [c] = c.utf8Size := by
  simp [byteLength]

@[simp] theorem byteLength_append (text text' : List Char) :
    byteLength (text ++ text') = byteLength text + byteLength text' := by
  induction text with
  | nil => simp [byteLength]
  | cons c text ih => rw [List.cons_append, byteLength_cons, byteLength_cons, ih, Nat.add_assoc]

theorem byteLength_ofList (text : List Char) : (String.ofList text).utf8ByteSize = byteLength text := by
  induction text with
  | nil => rfl
  | cons c text ih =>
      rw [String.ofList_cons, String.utf8ByteSize_append, String.utf8ByteSize_singleton, ih,
        byteLength_cons]

theorem byteLength_toList (source : String) : byteLength source.toList = source.utf8ByteSize := by
  rw [← byteLength_ofList, String.ofList_toList]

/-! ## Pieces of a source -/

/-- Whether a character is a token by itself, in text or outside of it. -/
def isPlain (inText : Bool) (c : Char) : Bool :=
  !Text.isBlank c && c.toNat != 0 && !(['%', '{', '}', '\\'].contains c) &&
    if inText then c != '~' else !(['^', '_', '&'].contains c)

/-- What a token is read from, in text or outside of it. -/
inductive Spells (inText : Bool) : Token → List Char → Prop where
  /-- A name is a run of letters or one other character. At the end of a source it is missing. -/
  | control {name : List Char} : name.all Text.isLetter = true ∨ name.length = 1 →
      Spells inText (.control (String.ofList name)) ('\\' :: name)
  | char {c : Char} : isPlain inText c = true → Spells inText (.char c) [c]
  /-- A space of text is a blank character or a tie. -/
  | space {c : Char} : inText = true → Text.isBlank c = true ∨ c = '~' → Spells inText (.char ' ') [c]
  | groupBegin : Spells inText .groupBegin ['{']
  | groupEnd : Spells inText .groupEnd ['}']
  | superscript : inText = false → Spells inText .superscript ['^']
  | subscript : inText = false → Spells inText .subscript ['_']
  | alignment : inText = false → Spells inText .alignment ['&']
  | argument {c : Char} {ref : ArgumentRef} : argumentRef? c = some ref →
      Spells inText (.argument ref) ['#', c]

/-- A comment, given what follows it: from a percent sign through the end of the line. -/
inductive IsComment (rest : List Char) : List Char → Prop where
  | line {text : List Char} : '\n' ∉ text → IsComment rest ('%' :: text ++ ['\n'])
  | last {text : List Char} : '\n' ∉ text → rest = [] → IsComment rest ('%' :: text)

/-- A character that is dropped with a report while the given groups are open. -/
inductive Drops (opened : List Nat) : Char → Problem → Prop where
  | nul : Drops opened '\x00' (.disallowedChar '\x00')
  | unmatchedClose : opened = [] → Drops opened '}' .unmatchedClose

/-- The mode after a token inside `nesting` groups. -/
def Mode.after (mode : Mode) (nesting : Nat) : Token → Mode
  | .control name => mode.afterCommand name
  | .groupBegin => mode.afterOpening nesting
  | .groupEnd => mode.afterClosing (nesting - 1)
  | _ => mode.afterToken

/-- The offsets of the groups that are open after a token that starts at an offset. -/
def openedAfter (offset : Nat) (opened : List Nat) : Token → List Nat
  | .groupBegin => offset :: opened
  | .groupEnd => opened.tail
  | _ => opened

/-- How the rest of a source, which starts at an offset, is cut into a token stream. -/
inductive Cuts : Nat → Mode → List Nat → List Char → Tokens → Prop where
  | done {offset : Nat} {mode : Mode} {opened : List Nat} :
      Cuts offset mode opened [] (finish offset opened)
  | token {offset : Nat} {mode : Mode} {opened : List Nat} {t : Token} {spelling blank rest : List Char}
      {s : Tokens} : Spells mode.inText t spelling → (t = .groupEnd → opened ≠ []) →
      (∀ c ∈ blank, Text.isBlank c = true) →
      Cuts (offset + byteLength spelling + byteLength blank) (mode.after opened.length t)
        (openedAfter offset opened t) rest s →
      Cuts offset mode opened (spelling ++ (blank ++ rest))
        (s.cons t ⟨offset, offset + byteLength spelling⟩)
  | blank {offset : Nat} {mode : Mode} {opened : List Nat} {blank rest : List Char} {s : Tokens} :
      mode.inText = false → (∀ c ∈ blank, Text.isBlank c = true) →
      Cuts (offset + byteLength blank) mode opened rest s → Cuts offset mode opened (blank ++ rest) s
  | comment {offset : Nat} {mode : Mode} {opened : List Nat} {comment rest : List Char} {s : Tokens} :
      IsComment rest comment → Cuts (offset + byteLength comment) mode opened rest s →
      Cuts offset mode opened (comment ++ rest) s
  | dropped {offset : Nat} {mode : Mode} {opened : List Nat} {c : Char} {problem : Problem}
      {rest : List Char} {s : Tokens} : Drops opened c problem →
      Cuts (offset + c.utf8Size) mode opened rest s →
      Cuts offset mode opened (c :: rest) (s.report problem ⟨offset, offset + c.utf8Size⟩)

/-! ## The lexer cuts -/

theorem skipBlank_append (text : List Char) : (skipBlank text).1 ++ (skipBlank text).2 = text :=
  List.takeWhile_append_dropWhile

theorem isBlank_of_mem_skipBlank {text : List Char} {c : Char} (h : c ∈ (skipBlank text).1) :
    Text.isBlank c = true := by
  have hall := List.all_takeWhile (p := Text.isBlank) (l := text)
  exact List.all_eq_true.1 hall c h

theorem skipComment_append (text : List Char) :
    (skipComment text).1 ++ (skipComment text).2 = text := by
  induction text with
  | nil => rfl
  | cons c text ih =>
      simp only [skipComment]
      split
      · rfl
      · rw [List.cons_append, ih]

theorem isComment_skipComment (text : List Char) :
    IsComment (skipComment text).2 ('%' :: (skipComment text).1) := by
  have hskip : (∃ line, '\n' ∉ line ∧ (skipComment text).1 = line ++ ['\n']) ∨
      '\n' ∉ (skipComment text).1 ∧ (skipComment text).2 = [] := by
    induction text with
    | nil => exact .inr ⟨by simp [skipComment], rfl⟩
    | cons c text ih =>
        simp only [skipComment]
        split
        · rename_i hc
          exact .inl ⟨[], by simp, by simp [hc]⟩
        · rename_i hc
          rcases ih with ⟨line, hline, heq⟩ | ⟨hline, hrest⟩
          · exact .inl ⟨c :: line, by simp [hline, Ne.symm hc], by simp [heq]⟩
          · exact .inr ⟨by simp [hline, Ne.symm hc], hrest⟩
  rcases hskip with ⟨line, hline, heq⟩ | ⟨hline, hrest⟩
  · rw [heq]
    exact .line hline
  · exact .last hline hrest

theorem readName_append (text : List Char) : (readName text).1 ++ (readName text).2 = text := by
  have happend := List.takeWhile_append_dropWhile (p := Text.isLetter) (l := text)
  unfold readName
  split
  · rename_i htake hdrop
    rw [htake, hdrop] at happend
    exact happend
  · exact happend

theorem isLetter_readName (text : List Char) :
    (readName text).1.all Text.isLetter = true ∨ (readName text).1.length = 1 := by
  unfold readName
  split
  · exact .inr rfl
  · exact .inl List.all_takeWhile

theorem utf8Size_of_argumentRef? {c : Char} {ref : ArgumentRef} (h : argumentRef? c = some ref) :
    c.utf8Size = 1 := by
  have hascii : c.val ≤ 127 := by
    unfold argumentRef? at h
    split at h
    · rename_i hdigit
      simp only [Text.isDigit, Bool.and_eq_true, decide_eq_true_eq] at hdigit
      exact UInt32.le_trans hdigit.2 (by decide)
    · split at h
      · rename_i hat
        subst hat
        decide
      · split at h
        · rename_i hmark
          subst hmark
          decide
        · cases h
  exact Char.utf8Size_eq_one_iff.2 hascii

theorem spells_plainToken {mode : Mode} {c : Char} (hb : Text.isBlank c = false) (hn : c.toNat ≠ 0)
    (hc : ¬(c = '%' ∨ c = '{' ∨ c = '}' ∨ c = '\\')) : Spells mode.inText (plainToken mode c) [c] := by
  unfold plainToken
  cases ht : mode.inText with
  | true =>
      simp only [if_true]
      split
      · rename_i htie
        exact .space rfl (.inr htie)
      · rename_i htie
        exact .char (by simpa [isPlain, hb, hn, htie] using hc)
  | false =>
      simp only [Bool.false_eq_true, if_false]
      split
      · rename_i h
        exact h ▸ .superscript rfl
      · split
        · rename_i h
          exact h ▸ .subscript rfl
        · split
          · rename_i h
            exact h ▸ .alignment rfl
          · rename_i hsup hsub halign
            exact .char (by simpa [isPlain, hb, hn, hsup, hsub, halign] using hc)

theorem isPlain_numberSign (inText : Bool) : isPlain inText '#' = true := by
  cases inText <;> decide

/-- Whether a token leaves the open groups as they are and goes on in the mode after tokens. -/
def isNeutral : Token → Bool
  | .control _ | .groupBegin | .groupEnd => false
  | _ => true

theorem isNeutral_plainToken (mode : Mode) (c : Char) : isNeutral (plainToken mode c) = true := by
  unfold plainToken
  split
  · split <;> rfl
  · split
    · rfl
    · split
      · rfl
      · split <;> rfl

theorem after_of_isNeutral {t : Token} (ht : isNeutral t = true) (mode : Mode) (nesting : Nat) :
    mode.after nesting t = mode.afterToken := by
  cases t <;> first | rfl | cases ht

theorem openedAfter_of_isNeutral {t : Token} (ht : isNeutral t = true) (offset : Nat)
    (opened : List Nat) : openedAfter offset opened t = opened := by
  cases t <;> first | rfl | cases ht

section

variable {offset : Nat} {mode : Mode} {opened : List Nat} {t : Token} {c : Char}
  {spelling rest : List Char} {s : Tokens}

/-- A cut of what follows a token that no blanks go with. -/
theorem Cuts.alone (h : Spells mode.inText t spelling) (ht : t = .groupEnd → opened ≠ [])
    (hs : Cuts (offset + byteLength spelling) (mode.after opened.length t) (openedAfter offset opened t)
      rest s) :
    Cuts offset mode opened (spelling ++ rest) (s.cons t ⟨offset, offset + byteLength spelling⟩) :=
  have hnone : ∀ c ∈ ([] : List Char), Text.isBlank c = true := nofun
  .token h ht hnone hs

/-- A cut of what follows a character that is a token. -/
theorem Cuts.character (h : Spells mode.inText t [c]) (ht : t = .groupEnd → opened ≠ [])
    (hs : Cuts (offset + c.utf8Size) (mode.after opened.length t) (openedAfter offset opened t)
      rest s) :
    Cuts offset mode opened (c :: rest) (s.cons t ⟨offset, offset + c.utf8Size⟩) := by
  rw [← byteLength_singleton] at hs ⊢
  exact .alone h ht hs

/-- A cut of what follows a token that leaves the open groups as they are. -/
theorem Cuts.neutral (ht : isNeutral t = true) (h : Spells mode.inText t spelling)
    (hs : Cuts (offset + byteLength spelling) mode.afterToken opened rest s) :
    Cuts offset mode opened (spelling ++ rest) (s.cons t ⟨offset, offset + byteLength spelling⟩) := by
  refine .alone h ?_ ?_
  · rintro rfl
    cases ht
  · rw [after_of_isNeutral ht, openedAfter_of_isNeutral ht]
    exact hs

theorem Cuts.neutralCharacter (ht : isNeutral t = true) (h : Spells mode.inText t [c])
    (hs : Cuts (offset + c.utf8Size) mode.afterToken opened rest s) :
    Cuts offset mode opened (c :: rest) (s.cons t ⟨offset, offset + c.utf8Size⟩) := by
  rw [← byteLength_singleton] at hs ⊢
  exact .neutral ht h hs

end

/-- Reading tokens cuts the source. -/
theorem cuts_read (text : List Char) (offset : Nat) (mode : Mode) (opened : List Nat) :
    Cuts offset mode opened text (read text offset mode opened) := by
  induction text, offset, mode, opened using read.induct with
  | case1 offset mode opened =>
      rw [read_nil]
      exact .done
  | case2 offset mode opened c rest next hb blank ht ih =>
      have hafter : mode.after opened.length (.char ' ') = mode := by
        cases mode <;> first | rfl | cases ht
      have hcut := Cuts.token (.space ht (.inl hb)) nofun (fun _ => isBlank_of_mem_skipBlank)
        (by rw [hafter, byteLength_singleton]; exact ih)
      rw [byteLength_singleton, skipBlank_append] at hcut
      rw [read_space hb ht]
      exact hcut
  | case3 offset mode opened c rest next hb blank ht ih =>
      rw [Bool.not_eq_true] at ht
      have hblank : ∀ d ∈ c :: blank.1, Text.isBlank d = true := by
        intro d hd
        rcases List.mem_cons.1 hd with rfl | hd
        · exact hb
        · exact isBlank_of_mem_skipBlank hd
      have hcut := Cuts.blank ht hblank (by rw [byteLength_cons, ← Nat.add_assoc]; exact ih)
      rw [List.cons_append, skipBlank_append] at hcut
      rw [read_blank hb ht]
      exact hcut
  | case4 offset mode opened c rest next hb hn ih =>
      obtain rfl : c = '\x00' := Char.toNat_inj.1 hn
      rw [read_nul hn]
      exact Cuts.dropped .nul ih
  | case5 offset mode opened rest comment next hb hn ih =>
      have hcut := Cuts.comment (isComment_skipComment rest)
        (by rw [byteLength_cons, ← Nat.add_assoc]; exact ih)
      rw [List.cons_append, skipComment_append] at hcut
      rw [read_comment]
      exact hcut
  | case6 offset mode opened rest next hb hn h₁ ih =>
      rw [read_groupBegin]
      exact Cuts.character .groupBegin nofun ih
  | case7 offset mode rest next hb hn h₁ h₂ ih =>
      rw [read_unmatchedClose]
      exact Cuts.dropped (.unmatchedClose rfl) ih
  | case8 offset mode rest head outer next hb hn h₁ h₂ ih =>
      rw [read_groupEnd]
      exact Cuts.character .groupEnd (fun _ => List.cons_ne_nil head outer) ih
  | case9 offset mode opened rest name blank command next hb hn h₁ h₂ h₃ stop ih =>
      have hcut := Cuts.token (.control (isLetter_readName rest)) nofun
        (fun _ => isBlank_of_mem_skipBlank)
        (by rw [byteLength_cons, ← Nat.add_assoc]; exact ih)
      rw [byteLength_cons, ← Nat.add_assoc, skipBlank_append, List.cons_append, readName_append] at hcut
      rw [read_control]
      exact hcut
  | case10 offset mode opened d rest' ref href next hb hn h₁ h₂ h₃ h₄ ih =>
      have hsize : offset + byteLength ['#', d] = offset + 2 := by
        rw [byteLength_cons, byteLength_singleton, utf8Size_of_argumentRef? href]
        rfl
      have hcut := Cuts.neutral rfl (.argument href)
        (by rw [byteLength_cons, byteLength_singleton, ← Nat.add_assoc]; exact ih)
      rw [hsize] at hcut
      rw [read_argument href]
      exact hcut
  | case11 offset mode opened d rest' href next hb hn h₁ h₂ h₃ h₄ ih =>
      rw [read_numberSign (d :: rest') href]
      exact Cuts.neutralCharacter rfl (.char (isPlain_numberSign mode.inText)) ih
  | case12 offset mode opened next hb hn h₁ h₂ h₃ h₄ ih =>
      rw [read_numberSign [] rfl]
      exact Cuts.neutralCharacter rfl (.char (isPlain_numberSign mode.inText)) ih
  | case13 offset mode opened c rest next hb hn h₁ h₂ h₃ h₄ h₅ ih =>
      rw [Bool.not_eq_true] at hb
      rw [read_plain hb hn (by simp [h₁, h₂, h₃, h₄, h₅])]
      exact Cuts.neutralCharacter (isNeutral_plainToken mode c)
        (spells_plainToken hb hn (by simp [h₁, h₂, h₃, h₄])) ih

/-! ## Spellings -/

/-- The number of open groups after a token inside `nesting` groups. -/
def nestingAfter (nesting : Nat) : Token → Nat
  | .groupBegin => nesting + 1
  | .groupEnd => nesting - 1
  | _ => nesting

/-- The mode after some tokens that are read inside `nesting` groups. -/
def modeAfter (mode : Mode) (nesting : Nat) : List Token → Mode
  | [] => mode
  | t :: rest => modeAfter (mode.after nesting t) (nestingAfter nesting t) rest

theorem length_openedAfter (offset : Nat) (opened : List Nat) (t : Token) :
    (openedAfter offset opened t).length = nestingAfter opened.length t := by
  cases t with
  | groupEnd => exact List.length_tail
  | _ => rfl

/-- Whether a text stands at a span of a source that starts at an offset. -/
def StandsAt (text : List Char) (offset : Nat) (source : List Char) (span : Span) : Prop :=
  ∃ before after, source = before ++ text ++ after ∧
    span = ⟨offset + byteLength before, offset + byteLength before + byteLength text⟩

theorem StandsAt.append_left {text source : List Char} {offset : Nat} {span : Span} (front : List Char)
    (h : StandsAt text (offset + byteLength front) source span) :
    StandsAt text offset (front ++ source) span := by
  obtain ⟨before, after, rfl, rfl⟩ := h
  refine ⟨front ++ before, after, by simp only [List.append_assoc], ?_⟩
  rw [byteLength_append, ← Nat.add_assoc]

theorem StandsAt.bounds {text source : List Char} {offset : Nat} {span : Span}
    (h : StandsAt text offset source span) :
    offset ≤ span.start ∧ span.stop = span.start + byteLength text ∧
      span.stop ≤ offset + byteLength source := by
  obtain ⟨before, after, rfl, rfl⟩ := h
  refine ⟨Nat.le_add_right _ _, rfl, ?_⟩
  simp only [byteLength_append]
  omega

theorem byteLength_pos {text : List Char} (h : text ≠ []) : 0 < byteLength text := by
  obtain ⟨c, rest, rfl⟩ := List.exists_cons_of_ne_nil h
  rw [byteLength_cons]
  exact Nat.add_pos_left c.utf8Size_pos _

theorem Spells.ne_nil {inText : Bool} {t : Token} {spelling : List Char} (h : Spells inText t spelling) :
    spelling ≠ [] := by
  cases h <;> exact List.cons_ne_nil _ _

section

variable {offset : Nat} {mode : Mode} {opened : List Nat} {text : List Char} {s : Tokens}

/-- Every token stands where its span says, spelled as the tokens before it ask for. Only the ends at
the end of the source stand for nothing. -/
theorem Cuts.spelled (h : Cuts offset mode opened text s) {before after : List SpannedToken}
    {t : SpannedToken} (hs : s.tokens = before ++ t :: after) :
    ∃ spelling, StandsAt spelling offset text t.span ∧
      (Spells (modeAfter mode opened.length (before.map SpannedToken.token)).inText t.token spelling ∨
        spelling = [] ∧ (t.token = .groupEnd ∨ t.token = .endOfInput)) := by
  induction h generalizing before with
  | @done offset mode opened =>
      have hmem : t ∈ (finish offset opened).tokens := by
        rw [hs]
        simp
      refine ⟨[], ⟨[], [], rfl, ?_⟩, .inr ⟨rfl, ?_⟩⟩
      all_goals
        simp only [finish, List.mem_append, List.mem_map, List.mem_singleton] at hmem
        rcases hmem with ⟨-, -, rfl⟩ | rfl
      · rfl
      · rfl
      · exact .inl rfl
      · exact .inr rfl
  | @token offset mode opened u spelling blank rest s hspells hend hblank hcut ih =>
      cases before with
      | nil =>
          obtain ⟨rfl, -⟩ := List.cons.inj hs
          exact ⟨spelling, ⟨[], blank ++ rest, by simp, by simp [byteLength]⟩, .inl hspells⟩
      | cons first before =>
          obtain ⟨rfl, hrest⟩ := List.cons.inj hs
          obtain ⟨spelling', hstands, hspelled⟩ := ih hrest
          refine ⟨spelling', ?_, ?_⟩
          · rw [← List.append_assoc]
            refine .append_left _ ?_
            rwa [byteLength_append, ← Nat.add_assoc]
          · rwa [length_openedAfter] at hspelled
  | blank hmode hblank hcut ih =>
      obtain ⟨spelling, hstands, hspelled⟩ := ih hs
      exact ⟨spelling, hstands.append_left _, hspelled⟩
  | comment hcomment hcut ih =>
      obtain ⟨spelling, hstands, hspelled⟩ := ih hs
      exact ⟨spelling, hstands.append_left _, hspelled⟩
  | @dropped offset mode opened c problem rest s hdrops hcut ih =>
      obtain ⟨spelling, hstands, hspelled⟩ := ih hs
      rw [← byteLength_singleton] at hstands
      exact ⟨spelling, hstands.append_left [c], hspelled⟩

/-- Tokens lie in what is cut. -/
theorem Cuts.bounds (h : Cuts offset mode opened text s) {t : SpannedToken} (ht : t ∈ s.tokens) :
    offset ≤ t.span.start ∧ t.span.start ≤ t.span.stop ∧ t.span.stop ≤ offset + byteLength text := by
  obtain ⟨before, after, hs⟩ := List.append_of_mem ht
  obtain ⟨spelling, hstands, -⟩ := h.spelled hs
  have hbounds := hstands.bounds
  omega

end

end FormulaEditor.Latex.Lexer

import Mathlib.Data.List.TakeWhile
import FormulaEditor.Proofs.Latex.Lossless

/-!
# Blanks at the end of a source

Blanks at the end of a source are read as nothing, but for two cases: the first one after a backslash is
the name of a command, and in the group of a text command that is still open they are a space. Only a
token that covers one of them is lost where they are dropped, and the tokens before it and the reported
problems stay as they are.
-/

namespace FormulaEditor.Latex

namespace Lexer

/-- How a text that blanks follow is read, next to the text without them, which ends at `limit`. -/
inductive LosesBlanks (limit : Nat) : Tokens → Tokens → Prop where
  | finish (stop stop' : Nat) (opened : List Nat) :
      LosesBlanks limit (finish stop opened) (finish stop' opened)
  /-- The blanks are a space of text. -/
  | space {span : Span} (stop stop' : Nat) (opened : List Nat) : limit ≤ span.start →
      span.start < span.stop →
      LosesBlanks limit ((finish stop opened).cons (.char ' ') span) (finish stop' opened)
  /-- The first blank is the name of a command. -/
  | name {start : Nat} {c : Char} (stop stop' : Nat) (opened : List Nat) : start ≤ limit →
      Text.isBlank c = true →
      LosesBlanks limit
        ((finish stop opened).cons (.control (String.ofList [c])) ⟨start, limit + c.utf8Size⟩)
        ((finish stop' opened).cons (.control "") ⟨start, limit⟩)
  | cons {s s' : Tokens} (t : Token) {span : Span} : span.stop ≤ limit → LosesBlanks limit s s' →
      LosesBlanks limit (s.cons t span) (s'.cons t span)
  | report {s s' : Tokens} (problem : Problem) (span : Span) : LosesBlanks limit s s' →
      LosesBlanks limit (s.report problem span) (s'.report problem span)

/-! ## Pieces before blanks -/

/-- A comment is the same before blanks if its line ends, and else it takes blanks in. -/
theorem skipComment_append_blanks (blanks rest : List Char) :
    skipComment (rest ++ blanks) = ((skipComment rest).1, (skipComment rest).2 ++ blanks) ∨
      skipComment rest = (rest, []) ∧
        skipComment (rest ++ blanks) = (rest ++ (skipComment blanks).1, (skipComment blanks).2) := by
  induction rest with
  | nil => exact .inr ⟨rfl, rfl⟩
  | cons c rest ih =>
      simp only [List.cons_append, skipComment]
      split
      · exact .inl rfl
      · rcases ih with ih | ⟨ih, ih'⟩
        · exact .inl (by rw [ih])
        · exact .inr ⟨by rw [ih], by rw [ih']⟩

theorem byteLength_pieces {text piece rest : List Char} (h : piece ++ rest = text) (offset : Nat) :
    offset + byteLength piece + byteLength rest = offset + byteLength text := by
  rw [← h, byteLength_append, Nat.add_assoc]

theorem isLetter_of_isBlank {c : Char} (hc : Text.isBlank c = true) : Text.isLetter c = false := by
  refine Bool.eq_false_iff.2 fun hletter => ?_
  rw [Text.isBlank_eq_false_of_isLetter hletter] at hc
  cases hc

theorem argumentRef?_of_isBlank {c : Char} (hc : Text.isBlank c = true) :
    argumentRef? c = none := by
  have hdigit : Text.isDigit c = false := by
    refine Bool.eq_false_iff.2 fun hdigit => ?_
    simp only [Text.isDigit, Bool.and_eq_true, decide_eq_true_eq, Char.le_def,
      UInt32.le_iff_toNat_le] at hdigit
    have hlow : 48 ≤ c.toNat := hdigit.1
    have hhigh : c.toNat ≤ 57 := hdigit.2
    simp only [Text.isBlank, Bool.or_eq_true, Bool.and_eq_true, decide_eq_true_eq,
      beq_iff_eq] at hc
    omega
  have hat : c ≠ '@' := by
    rintro rfl
    cases hc
  have hmark : c ≠ '?' := by
    rintro rfl
    cases hc
  simp [argumentRef?, hdigit, hat, hmark]

/-- After a backslash a blank is a name. -/
theorem readName_cons_blank {c : Char} (hc : Text.isBlank c = true) (rest : List Char) :
    readName (c :: rest) = ([c], rest) := by
  simp [readName, isLetter_of_isBlank hc]

section

variable {blanks : List Char} (hb : ∀ c ∈ blanks, Text.isBlank c = true)
include hb

theorem skipBlank_blanks : skipBlank blanks = (blanks, []) := by
  rw [skipBlank, List.takeWhile_eq_self_iff.2 hb, List.dropWhile_eq_nil_iff.2 hb]

/-- A run of blanks is the same before further blanks if it ends, and else it takes them in. -/
theorem skipBlank_append_blanks (rest : List Char) :
    skipBlank (rest ++ blanks) = ((skipBlank rest).1, (skipBlank rest).2 ++ blanks) ∨
      (skipBlank rest).2 = [] ∧ (skipBlank (rest ++ blanks)).2 = [] := by
  by_cases hrest : (rest.dropWhile Text.isBlank).isEmpty = true
  · refine .inr ⟨List.isEmpty_iff.1 hrest, ?_⟩
    rw [skipBlank, List.dropWhile_append, if_pos hrest]
    exact List.dropWhile_eq_nil_iff.2 hb
  · have htake : (rest.takeWhile Text.isBlank).length ≠ rest.length := by
      intro hlength
      have hboth := congrArg List.length
        (List.takeWhile_append_dropWhile (p := Text.isBlank) (l := rest))
      rw [List.length_append] at hboth
      exact hrest (List.isEmpty_iff_length_eq_zero.2 (by omega))
    refine .inl ?_
    rw [skipBlank, List.dropWhile_append, if_neg hrest, List.takeWhile_append, if_neg htake]
    rfl

/-- A name is the same before blanks if there is one. -/
theorem readName_append_blanks {rest : List Char} (hne : rest ≠ []) :
    readName (rest ++ blanks) = ((readName rest).1, (readName rest).2 ++ blanks) := by
  have hnone : blanks.takeWhile Text.isLetter = [] ∧ blanks.dropWhile Text.isLetter = blanks := by
    cases blanks with
    | nil => exact ⟨rfl, rfl⟩
    | cons c blanks =>
        have hc := isLetter_of_isBlank (hb c List.mem_cons_self)
        exact ⟨List.takeWhile_cons_of_neg (by simp [hc]), List.dropWhile_cons_of_neg (by simp [hc])⟩
  have htake : (rest ++ blanks).takeWhile Text.isLetter = rest.takeWhile Text.isLetter := by
    rw [List.takeWhile_append, hnone.1]
    split
    · rename_i hlength
      rw [List.append_nil]
      exact ((List.takeWhile_prefix _).eq_of_length hlength).symm
    · rfl
  have hdrop : (rest ++ blanks).dropWhile Text.isLetter = rest.dropWhile Text.isLetter ++ blanks := by
    rw [List.dropWhile_append, hnone.2]
    split
    · rename_i hempty
      rw [List.isEmpty_iff.1 hempty, List.nil_append]
    · rfl
  have hrest := List.takeWhile_append_dropWhile (p := Text.isLetter) (l := rest)
  unfold readName
  rw [htake, hdrop]
  cases hletters : rest.takeWhile Text.isLetter with
  | nil =>
      cases hothers : rest.dropWhile Text.isLetter with
      | nil =>
          rw [hletters, hothers] at hrest
          exact absurd hrest.symm hne
      | cons c others => rfl
  | cons c letters => rfl

/-! ## Reading before blanks -/

/-- Where only blanks are left, they are nothing or a space of text. -/
theorem losesBlanks_blanks {limit offset : Nat} (hle : limit ≤ offset) (stop : Nat) (mode : Mode)
    (opened : List Nat) :
    LosesBlanks limit (read blanks offset mode opened) (finish stop opened) := by
  cases blanks with
  | nil =>
      rw [read_nil]
      exact .finish offset stop opened
  | cons c blanks =>
      have hc := hb c List.mem_cons_self
      have hskip := skipBlank_blanks fun d hd => hb d (List.mem_cons_of_mem c hd)
      cases ht : mode.inText with
      | true =>
          rw [read_space hc ht, hskip, read_nil]
          exact .space _ stop opened hle (Nat.lt_add_of_pos_right c.utf8Size_pos)
      | false =>
          rw [read_blank hc ht, hskip, read_nil]
          exact .finish _ stop opened

/-- What follows a run of blanks. -/
theorem losesBlanks_skipBlank {limit next : Nat} {rest : List Char} {mode : Mode} {opened : List Nat}
    (ih : LosesBlanks limit
      (read ((skipBlank rest).2 ++ blanks) (next + byteLength (skipBlank rest).1) mode opened)
      (read (skipBlank rest).2 (next + byteLength (skipBlank rest).1) mode opened)) :
    LosesBlanks limit
      (read (skipBlank (rest ++ blanks)).2 (next + byteLength (skipBlank (rest ++ blanks)).1) mode
        opened)
      (read (skipBlank rest).2 (next + byteLength (skipBlank rest).1) mode opened) := by
  rcases skipBlank_append_blanks hb rest with hskip | ⟨hskip, hskip'⟩
  · rw [hskip]
    exact ih
  · rw [hskip, hskip', read_nil, read_nil]
    exact .finish _ _ opened

/-- A backslash before blanks takes the first one as a name. -/
theorem losesBlanks_backslash (offset : Nat) (mode : Mode) (opened : List Nat) :
    LosesBlanks (offset + byteLength ['\\']) (read ('\\' :: blanks) offset mode opened)
      (read ['\\'] offset mode opened) := by
  have hnone : readName [] = ([], []) := rfl
  have hskip : skipBlank [] = ([], []) := rfl
  rw [read_control blanks, read_control [], byteLength_singleton]
  simp only [hnone, hskip, read_nil]
  cases blanks with
  | nil =>
      rw [hnone, hskip, read_nil]
      exact .cons _ (Nat.le_refl _) (.finish _ _ opened)
  | cons c blanks =>
      have hc := hb c List.mem_cons_self
      have hblanks := skipBlank_blanks fun d hd => hb d (List.mem_cons_of_mem c hd)
      rw [readName_cons_blank hc, hblanks, read_nil, byteLength_singleton]
      exact .name _ _ opened (Nat.le_add_right _ _) hc

/-- Blanks after a text lose what they are read as, and nothing else. -/
theorem losesBlanks_read (text : List Char) (offset : Nat) (mode : Mode) (opened : List Nat) :
    LosesBlanks (offset + byteLength text) (read (text ++ blanks) offset mode opened)
      (read text offset mode opened) := by
  induction text, offset, mode, opened using read.induct with
  | case1 offset mode opened =>
      rw [List.nil_append, read_nil]
      exact losesBlanks_blanks hb (Nat.le_refl _) offset mode opened
  | case2 offset mode opened c rest next hc blank ht ih =>
      have hblank := losesBlanks_skipBlank hb ih
      rw [byteLength_pieces (skipBlank_append rest)] at hblank
      rw [List.cons_append, read_space hc ht, read_space hc ht, byteLength_cons, ← Nat.add_assoc]
      exact .cons _ (Nat.le_add_right _ _) hblank
  | case3 offset mode opened c rest next hc blank ht ih =>
      have hblank := losesBlanks_skipBlank hb ih
      rw [byteLength_pieces (skipBlank_append rest)] at hblank
      rw [Bool.not_eq_true] at ht
      rw [List.cons_append, read_blank hc ht, read_blank hc ht, byteLength_cons, ← Nat.add_assoc]
      exact hblank
  | case4 offset mode opened c rest next hc hn ih =>
      rw [List.cons_append, read_nul hn, read_nul hn, byteLength_cons, ← Nat.add_assoc]
      exact .report _ _ ih
  | case5 offset mode opened rest comment next hc hn ih =>
      rw [List.cons_append, read_comment, read_comment, byteLength_cons, ← Nat.add_assoc]
      rcases skipComment_append_blanks blanks rest with hskip | ⟨hskip, hskip'⟩
      · rw [hskip, ← byteLength_pieces (skipComment_append rest)]
        exact ih
      · have hrest : ∀ c ∈ (skipComment blanks).2, Text.isBlank c = true := by
          intro c hmem
          refine hb c ?_
          rw [← skipComment_append blanks]
          exact List.mem_append_right _ hmem
        rw [hskip, hskip', read_nil, byteLength_append, ← Nat.add_assoc]
        exact losesBlanks_blanks hrest (Nat.le_add_right _ _) _ mode opened
  | case6 offset mode opened rest next hc hn h₁ ih =>
      rw [List.cons_append, read_groupBegin, read_groupBegin, byteLength_cons, ← Nat.add_assoc]
      exact .cons _ (Nat.le_add_right _ _) ih
  | case7 offset mode rest next hc hn h₁ h₂ ih =>
      rw [List.cons_append, read_unmatchedClose, read_unmatchedClose, byteLength_cons, ← Nat.add_assoc]
      exact .report _ _ ih
  | case8 offset mode rest head outer next hc hn h₁ h₂ ih =>
      rw [List.cons_append, read_groupEnd, read_groupEnd, byteLength_cons, ← Nat.add_assoc]
      exact .cons _ (Nat.le_add_right _ _) ih
  | case9 offset mode opened rest name blank command next hc hn h₁ h₂ h₃ stop ih =>
      by_cases hne : rest = []
      · subst hne
        exact losesBlanks_backslash hb offset mode opened
      · have hblank := losesBlanks_skipBlank hb ih
        have hname := byteLength_pieces (readName_append rest) (offset + '\\'.utf8Size)
        rw [byteLength_pieces (skipBlank_append _), hname] at hblank
        rw [List.cons_append, read_control (rest ++ blanks), read_control rest, byteLength_cons, ← Nat.add_assoc]
        rw [readName_append_blanks hb hne]
        exact .cons _ (Nat.le.intro hname) hblank
  | case10 offset mode opened d rest' ref href next hc hn h₁ h₂ h₃ h₄ ih =>
      have hsize := utf8Size_of_argumentRef? href
      rw [List.cons_append, List.cons_append, read_argument href, read_argument href, byteLength_cons,
        byteLength_cons, ← Nat.add_assoc, ← Nat.add_assoc]
      refine .cons _ ?_ ih
      rw [hsize]
      exact Nat.le_add_right _ _
  | case11 offset mode opened d rest' href next hc hn h₁ h₂ h₃ h₄ ih =>
      rw [List.cons_append, read_numberSign (d :: rest' ++ blanks) href,
        read_numberSign (d :: rest') href, byteLength_cons, ← Nat.add_assoc]
      exact .cons _ (Nat.le_add_right _ _) ih
  | case12 offset mode opened next hc hn h₁ h₂ h₃ h₄ ih =>
      have hnone : blanks.head?.bind argumentRef? = none := by
        cases blanks with
        | nil => rfl
        | cons d blanks => exact argumentRef?_of_isBlank (hb d List.mem_cons_self)
      rw [List.cons_append, List.nil_append, read_numberSign blanks hnone, read_numberSign [] rfl,
        byteLength_cons, ← Nat.add_assoc]
      exact .cons _ (Nat.le_add_right _ _) ih
  | case13 offset mode opened c rest next hc hn h₁ h₂ h₃ h₄ h₅ ih =>
      rw [Bool.not_eq_true] at hc
      have hplain : ['%', '{', '}', '\\', '#'].contains c = false := by
        simp [h₁, h₂, h₃, h₄, h₅]
      rw [List.cons_append, read_plain hc hn hplain, read_plain hc hn hplain, byteLength_cons,
        ← Nat.add_assoc]
      exact .cons _ (Nat.le_add_right _ _) ih

end

/-! ## What is lost -/

section

variable {limit : Nat} {s s' : Tokens}

theorem covers_cons (t : Token) (span : Span) (byte : Nat) :
    (s.cons t span).Covers byte ↔ (span.start ≤ byte ∧ byte < span.stop) ∨ s.Covers byte := by
  simp [Tokens.Covers, Tokens.cons, SpannedToken.Covers]

theorem not_covers_finish (offset : Nat) (opened : List Nat) (byte : Nat) :
    ¬(finish offset opened).Covers byte := by
  rintro ⟨t, ht, hstart, hstop⟩
  have hspan : t.span = Span.at offset := by
    simp only [finish, List.mem_append, List.mem_map, List.mem_singleton] at ht
    rcases ht with ⟨_, _, rfl⟩ | rfl <;> rfl
  rw [hspan] at hstart hstop
  exact absurd hstop (Nat.not_lt.2 hstart)

theorem kinds_cons (t : Token) (span : Span) : (s.cons t span).kinds = t :: s.kinds := rfl

theorem LosesBlanks.diagnostics_eq (h : LosesBlanks limit s s') :
    s.diagnostics = s'.diagnostics := by
  induction h with
  | finish stop stop' opened => rfl
  | space stop stop' opened hstart hstop => rfl
  | name stop stop' opened hstart hc => rfl
  | cons t hstop h ih => exact ih
  | report problem span h ih => exact congrArg (List.cons _) ih

end

end Lexer

/-- The ends of `n` open groups and of the input. -/
def closingTokens (n : Nat) : List Token :=
  List.replicate n .groupEnd ++ [.endOfInput]

/-- How tokens change where the blanks at the end are dropped and one of them is in a token. -/
inductive LosesToken : List Token → List Token → Prop where
  /-- A space of text is lost, which stands before the ends. -/
  | space (front : List Token) (n : Nat) :
      LosesToken (front ++ .char ' ' :: closingTokens n) (front ++ closingTokens n)
  /-- The last command loses its name. -/
  | name (front : List Token) {c : Char} (n : Nat) : Text.isBlank c = true →
      LosesToken (front ++ .control (String.ofList [c]) :: closingTokens n)
        (front ++ .control "" :: closingTokens n)

theorem LosesToken.cons {ts us : List Token} (t : Token) (h : LosesToken ts us) :
    LosesToken (t :: ts) (t :: us) := by
  cases h with
  | space front n => exact .space (t :: front) n
  | name front n hc => exact .name (t :: front) n hc

theorem LosesToken.ne {ts us : List Token} (h : LosesToken ts us) : ts ≠ us := by
  intro heq
  cases h with
  | space front n =>
      have hlength := congrArg List.length (List.append_cancel_left heq)
      rw [List.length_cons] at hlength
      omega
  | name front n hc =>
      have hhead := (List.cons.inj (List.append_cancel_left heq)).1
      have hname := congrArg String.toList (Token.control.inj hhead)
      rw [String.toList_ofList] at hname
      cases hname

namespace Lexer

variable {limit : Nat} {s s' : Tokens}

/-- Only a token that covers a byte behind the limit is lost. -/
theorem LosesBlanks.kinds (h : LosesBlanks limit s s') :
    (s.kinds = s'.kinds ∧ ∀ byte, limit ≤ byte → ¬s.Covers byte) ∨
      (LosesToken s.kinds s'.kinds ∧ ∃ byte, limit ≤ byte ∧ s.Covers byte) := by
  induction h with
  | finish stop stop' opened =>
      refine .inl ⟨?_, fun byte _ => not_covers_finish stop opened byte⟩
      rw [kinds_finish, kinds_finish]
  | @space span stop stop' opened hstart hstop =>
      refine .inr ⟨?_, span.start, hstart, (covers_cons _ _ _).2 (.inl ⟨Nat.le_refl _, hstop⟩)⟩
      rw [kinds_cons, kinds_finish, kinds_finish]
      exact .space [] opened.length
  | @name start c stop stop' opened hstart hc =>
      have hcovers : limit < limit + c.utf8Size := Nat.lt_add_of_pos_right c.utf8Size_pos
      refine .inr ⟨?_, limit, Nat.le_refl _, (covers_cons _ _ _).2 (.inl ⟨hstart, hcovers⟩)⟩
      rw [kinds_cons, kinds_cons, kinds_finish, kinds_finish]
      exact .name [] opened.length hc
  | @cons s s' t span hstop h ih =>
      rw [kinds_cons, kinds_cons]
      rcases ih with ⟨hkinds, hcovers⟩ | ⟨hloses, byte, hbyte, hcovers⟩
      · refine .inl ⟨by rw [hkinds], fun byte hbyte hcons => ?_⟩
        rcases (covers_cons t span byte).1 hcons with ⟨-, hlt⟩ | hrest
        · omega
        · exact hcovers byte hbyte hrest
      · exact .inr ⟨hloses.cons t, byte, hbyte, (covers_cons t span byte).2 (.inr hcovers)⟩
  | report problem span h ih => exact ih

end Lexer

/-! ## Every source -/

/-- The source without the blanks at its end. -/
def trimmed (source : String) : String :=
  String.ofList (Text.trimEnd source.toList)

/-- Whether a token covers one of the blanks at the end of a source. -/
def TakesFinalBlank (source : String) : Prop :=
  ∃ byte, (trimmed source).utf8ByteSize ≤ byte ∧ (tokenize source).Covers byte

theorem exists_eq_trimEnd_append (text : List Char) :
    ∃ blanks, text = Text.trimEnd text ++ blanks ∧ ∀ c ∈ blanks, Text.isBlank c = true := by
  refine ⟨(text.reverse.takeWhile Text.isBlank).reverse, ?_, fun c hc => ?_⟩
  · rw [Text.trimEnd, ← List.reverse_append, List.takeWhile_append_dropWhile, List.reverse_reverse]
  · have hall := List.all_takeWhile (p := Text.isBlank) (l := text.reverse)
    exact List.all_eq_true.1 hall c (List.mem_reverse.1 hc)

theorem losesBlanks_tokenize (source : String) :
    Lexer.LosesBlanks (trimmed source).utf8ByteSize (tokenize source) (tokenize (trimmed source)) := by
  obtain ⟨blanks, hsource, hb⟩ := exists_eq_trimEnd_append source.toList
  have hread := Lexer.losesBlanks_read hb (Text.trimEnd source.toList) 0 .math []
  rw [← hsource, Nat.zero_add, ← Lexer.byteLength_ofList] at hread
  unfold tokenize trimmed
  rw [String.toList_ofList]
  exact hread

/-- The tokens of a source lose a token, or a name, with the blanks at the end exactly if one covers a
blank, and else they are the same. The problems and their places are the same in any case. -/
theorem tokenize_trimmed (source : String) :
    (tokenize (trimmed source)).diagnostics = (tokenize source).diagnostics ∧
      ((tokenize (trimmed source)).kinds = (tokenize source).kinds ↔ ¬TakesFinalBlank source) ∧
      (TakesFinalBlank source →
        LosesToken (tokenize source).kinds (tokenize (trimmed source)).kinds) := by
  have hloses := losesBlanks_tokenize source
  refine ⟨hloses.diagnostics_eq.symm, ?_⟩
  rcases hloses.kinds with ⟨hkinds, hnone⟩ | ⟨hlost, htakes⟩
  · have hfree : ¬TakesFinalBlank source := by
      rintro ⟨byte, hbyte, hcovers⟩
      exact hnone byte hbyte hcovers
    exact ⟨iff_of_true hkinds.symm hfree, fun htakes => absurd htakes hfree⟩
  · exact ⟨iff_of_false hlost.ne.symm (not_not_intro htakes), fun _ => hlost⟩

end FormulaEditor.Latex

import FormulaEditor.Proofs.Latex.Lossless

/-!
# The groups of text commands

The group of a text command is read as text: superscripts, subscripts and alignment marks are plain
characters there, and a run of blanks is a space. Only the last text command counts. One that stands in
the group of another one takes text over from it, and gives it back nowhere: text is over when the
inner group ends, or at once if there is none.
-/

namespace FormulaEditor.Latex

open Lexer

/-- Whether a token is a command whose group is text. -/
def startsText : Token → Bool
  | .control name => (Vocabulary.find? name).map Meaning.action == some .text
  | _ => false

/-- Whether a token is a mark that only formulas have. -/
def Token.isMark : Token → Bool
  | .superscript | .subscript | .alignment => true
  | _ => false

/-- Whether a token is a character that only text has: a space, or one that is a mark in formulas. -/
def Token.isTextOnly : Token → Bool
  | .char c => [' ', '^', '_', '&'].contains c
  | _ => false

/-- What follows the last text command among some tokens, if there is one. -/
def afterTextCommand? : List Token → Option (List Token)
  | [] => none
  | t :: rest => (afterTextCommand? rest).or (if startsText t then some rest else none)

/-- Whether some tokens begin with a brace whose group they do not end. -/
def opensGroup : List Token → Bool
  | .groupBegin :: inner => (openGroups? 0 inner).isSome
  | _ => false

/-- Whether the last text command among some tokens has no group, or they end it. -/
def leavesText (ts : List Token) : Bool :=
  (afterTextCommand? ts).any fun rest => !opensGroup rest

/-- Whether some tokens end with the group of a text command as far as `inner`, which does not end it. -/
def InTextGroup (ts inner : List Token) : Prop :=
  ∃ before command, ts = before ++ command :: .groupBegin :: inner ∧ startsText command = true ∧
    (openGroups? 0 inner).isSome = true

/-- What a blank character after a text that starts at an offset is, where text is read. -/
inductive IsTextBlank (offset : Nat) (s : Tokens) (before : List Char) (c : Char) : Prop where
  /-- The first character of a run of blanks is a space, and the others are part of it. -/
  | space {start run : List Char} {d : Char} : before ++ [c] = start ++ d :: run →
      (∀ b ∈ d :: run, Text.isBlank b = true) →
      ⟨.char ' ', ⟨offset + byteLength start, offset + byteLength start + d.utf8Size⟩⟩ ∈ s.tokens →
      IsTextBlank offset s before c
  /-- A blank is the name of a command. -/
  | name {t : SpannedToken} : t ∈ s.tokens → t.Covers (offset + byteLength before) →
      t.token = .control (String.ofList [c]) → IsTextBlank offset s before c
  /-- A run of blanks follows a command. -/
  | command {start run : List Char} {t : SpannedToken} {name : String} : before = start ++ run →
      (∀ b ∈ run, Text.isBlank b = true) → t ∈ s.tokens → t.token = .control name →
      t.span.stop = offset + byteLength start → IsTextBlank offset s before c
  /-- A comment goes on from a percent sign that is not in a token through the end of the line. -/
  | comment {start line : List Char} : before = start ++ '%' :: line → '\n' ∉ line →
      ¬s.Covers (offset + byteLength start) → IsTextBlank offset s before c

/-! ## The mode after tokens -/

namespace Lexer

theorem Mode.afterCommand_eq (mode : Mode) (name : String) :
    mode.afterCommand name = if startsText (.control name) then .textStart else mode.afterToken := by
  unfold Mode.afterCommand
  split
  · rename_i htext
    rw [startsText, htext]
    rfl
  · rename_i hother
    rw [startsText, if_neg]
    intro htext
    exact hother (beq_iff_eq.1 htext)

/-- Whether text is read after some tokens without text commands, inside `nesting` groups. -/
def Mode.keepsText (mode : Mode) (nesting : Nat) (ts : List Token) : Bool :=
  match mode with
  | math => false
  | textStart => opensGroup ts
  | textGroup opened => (openGroups? (nesting - opened - 1) ts).isSome

/-- Whether the group of a text command is among the groups that are open. -/
def Mode.IsWithin : Mode → Nat → Prop
  | textGroup opened, nesting => opened < nesting
  | _, _ => True

theorem Mode.isWithin_after {mode : Mode} {nesting : Nat} {t : Token} (h : mode.IsWithin nesting) :
    (mode.after nesting t).IsWithin (nestingAfter nesting t) := by
  cases t with
  | control name =>
      rw [Mode.after, Mode.afterCommand_eq]
      split
      · trivial
      · cases mode <;> exact h
  | groupBegin =>
      cases mode with
      | math => trivial
      | textStart => exact Nat.lt_succ_self nesting
      | textGroup opened => exact Nat.lt_succ_of_lt h
  | groupEnd =>
      cases mode with
      | math => trivial
      | textStart => trivial
      | textGroup opened =>
          simp only [Mode.after, Mode.afterClosing]
          split
          · trivial
          · simp only [Mode.IsWithin, nestingAfter] at h ⊢
            omega
  | _ => cases mode <;> exact h

/-- One more token that is no text command. -/
theorem Mode.keepsText_cons {mode : Mode} {nesting : Nat} {t : Token} (hwithin : mode.IsWithin nesting)
    (hend : t = .groupEnd → nesting ≠ 0) (ht : startsText t = false) (ts : List Token) :
    mode.keepsText nesting (t :: ts) =
      (mode.after nesting t).keepsText (nestingAfter nesting t) ts := by
  cases mode with
  | math =>
      cases t with
      | control name => rw [Mode.after, Mode.afterCommand_eq, ht]; rfl
      | _ => rfl
  | textStart =>
      cases t with
      | control name => rw [Mode.after, Mode.afterCommand_eq, ht]; rfl
      | groupBegin =>
          have hnesting : nesting + 1 - nesting - 1 = 0 := by omega
          simp only [keepsText, opensGroup, Mode.after, Mode.afterOpening, nestingAfter, hnesting]
      | _ => rfl
  | textGroup opened =>
      simp only [Mode.IsWithin] at hwithin
      cases t with
      | control name => rw [Mode.after, Mode.afterCommand_eq, ht]; rfl
      | groupBegin =>
          have hnesting : nesting - opened - 1 + 1 = nesting + 1 - opened - 1 := by omega
          have hcons := openGroups?_cons (n := nesting - opened - 1) (t := .groupBegin)
            Token.noConfusion ts
          simp only [keepsText, hcons, Mode.after, Mode.afterOpening, nestingAfter, hnesting]
      | groupEnd =>
          simp only [Mode.after, Mode.afterClosing, nestingAfter]
          by_cases hlast : opened = nesting - 1
          · have hnone : nesting - opened - 1 = 0 := by omega
            simp only [if_pos hlast, keepsText, hnone]
            rfl
          · have hnesting : nesting - opened - 1 - 1 = nesting - 1 - opened - 1 := by omega
            have hcons := openGroups?_cons (n := nesting - opened - 1) (t := .groupEnd)
              (fun _ => by omega) ts
            simp only [if_neg hlast, keepsText, hcons, nestingAfter, hnesting]
      | _ => rfl

theorem inText_modeAfter {mode : Mode} {nesting : Nat} {ts : List Token} (hwithin : mode.IsWithin nesting)
    (hopen : (openGroups? nesting ts).isSome = true) :
    (modeAfter mode nesting ts).inText =
      match afterTextCommand? ts with
      | some rest => opensGroup rest
      | none => mode.keepsText nesting ts := by
  induction ts generalizing mode nesting with
  | nil => cases mode <;> rfl
  | cons t ts ih =>
      have hend : t = .groupEnd → nesting ≠ 0 := by
        rintro rfl rfl
        cases hopen
      rw [openGroups?_cons hend] at hopen
      rw [modeAfter, ih (Mode.isWithin_after hwithin) hopen, afterTextCommand?]
      cases hrest : afterTextCommand? ts with
      | some rest => rfl
      | none =>
          cases ht : startsText t with
          | true =>
              cases t with
              | control name => rw [Mode.after, Mode.afterCommand_eq, ht]; rfl
              | _ => cases ht
          | false => exact (Mode.keepsText_cons hwithin hend ht ts).symm

end Lexer

theorem afterTextCommand?_append (ts us : List Token) :
    afterTextCommand? (ts ++ us) =
      (afterTextCommand? us).or ((afterTextCommand? ts).map fun rest => rest ++ us) := by
  induction ts with
  | nil => simp [afterTextCommand?]
  | cons t ts ih =>
      rw [List.cons_append, afterTextCommand?, ih, Option.or_assoc, afterTextCommand?]
      cases afterTextCommand? ts with
      | some rest => simp
      | none => cases startsText t <;> simp

/-- In the group of a text command, text is read unless a text command in it has ended that. -/
theorem InTextGroup.inText_modeAfter {ts inner : List Token} (h : InTextGroup ts inner)
    (hopen : (openGroups? 0 ts).isSome = true) :
    (modeAfter .math 0 ts).inText = !leavesText inner := by
  obtain ⟨before, command, rfl, hcommand, hinner⟩ := h
  have hlast : afterTextCommand? (before ++ command :: .groupBegin :: inner) =
      (afterTextCommand? inner).or (some (.groupBegin :: inner)) := by
    rw [afterTextCommand?_append, afterTextCommand?, afterTextCommand?, hcommand]
    cases afterTextCommand? inner <;> simp [startsText]
  have hwithin : Lexer.Mode.math.IsWithin 0 := trivial
  rw [Lexer.inText_modeAfter hwithin hopen, hlast, leavesText]
  cases afterTextCommand? inner with
  | none => exact hinner
  | some rest => simp

/-! ## Blanks -/

namespace Lexer

variable {offset nesting nesting' : Nat} {mode mode' : Mode} {opened : List Nat}
  {piece rest text : List Char} {s s' : Tokens}

/-- From an offset on, where `s` is read in one mode inside `nesting` groups, it goes on as `s'`. -/
structure GoesOn (offset : Nat) (mode : Mode) (nesting : Nat) (s : Tokens) (mode' : Mode)
    (nesting' : Nat) (s' : Tokens) : Prop where
  tokens {t : SpannedToken} : t ∈ s'.tokens → t ∈ s.tokens
  covers {byte : Nat} : offset ≤ byte → (s.Covers byte ↔ s'.Covers byte)
  modes {byte : Nat} : offset ≤ byte →
    modeAfter mode nesting (s.kindsBefore byte) = modeAfter mode' nesting' (s'.kindsBefore byte)

theorem goesOn_cons {start stop : Nat} (hstop : stop ≤ offset) (t : Token) (s : Tokens) :
    GoesOn offset mode nesting (s.cons t ⟨start, stop⟩) (mode.after nesting t)
      (nestingAfter nesting t) s where
  tokens := List.mem_cons_of_mem _
  covers {byte} hle := by
    constructor
    · intro ⟨u, hu, hcovers⟩
      rcases List.mem_cons.1 hu with rfl | hu
      · exact absurd hcovers.2 (Nat.not_lt.2 (Nat.le_trans hstop hle))
      · exact ⟨u, hu, hcovers⟩
    · intro ⟨u, hu, hcovers⟩
      exact ⟨u, List.mem_cons_of_mem _ hu, hcovers⟩
  modes {byte} hle := by
    rw [Tokens.kindsBefore, Tokens.cons,
      List.filter_cons_of_pos (by simpa using Nat.le_trans hstop hle)]
    rfl

theorem goesOn_of_tokens_eq (h : s.tokens = s'.tokens) :
    GoesOn offset mode nesting s mode nesting s' where
  tokens := by
    rw [h]
    exact id
  covers _ := by
    rw [Tokens.Covers, Tokens.Covers, h]
  modes _ := by
    rw [Tokens.kindsBefore, Tokens.kindsBefore, h]

end Lexer

theorem IsTextBlank.append_left {offset nesting nesting' : Nat} {mode mode' : Lexer.Mode}
    {s s' : Tokens}
    {piece before : List Char} {c : Char} (h : IsTextBlank (offset + byteLength piece) s' before c)
    (hon : GoesOn (offset + byteLength piece) mode nesting s mode' nesting' s') :
    IsTextBlank offset s (piece ++ before) c := by
  have hplace (front : List Char) :
      offset + byteLength (piece ++ front) = offset + byteLength piece + byteLength front := by
    rw [byteLength_append, Nat.add_assoc]
  cases h with
  | @space start run d hrun hblank ht =>
      have hrun' : piece ++ before ++ [c] = piece ++ start ++ d :: run := by
        rw [List.append_assoc, hrun, List.append_assoc]
      apply IsTextBlank.space hrun' hblank
      rw [hplace]
      exact hon.tokens ht
  | name ht hcovers hname =>
      apply IsTextBlank.name (hon.tokens ht)
      · rw [hplace]
        exact hcovers
      · exact hname
  | @command start run t name hrun hblank ht hname hstop =>
      have hrun' : piece ++ before = piece ++ start ++ run := by
        rw [hrun, List.append_assoc]
      apply IsTextBlank.command hrun' hblank (hon.tokens ht) hname
      rw [hplace]
      exact hstop
  | @comment start line hcomment hline hcovers =>
      have hcomment' : piece ++ before = piece ++ start ++ '%' :: line := by
        rw [hcomment, List.append_assoc]
      apply IsTextBlank.comment hcomment' hline
      rw [hplace, hon.covers (Nat.le_add_right _ _)]
      exact hcovers

namespace Lexer

variable {offset nesting nesting' : Nat} {mode mode' : Mode} {opened : List Nat}
  {piece rest text : List Char} {s s' : Tokens}

/-- Whether the blanks of a text, which starts at an offset inside `nesting` groups, are read as text
wherever text is read. -/
def SpacesText (offset : Nat) (mode : Mode) (nesting : Nat) (text : List Char) (s : Tokens) : Prop :=
  ∀ before c after, text = before ++ c :: after → Text.isBlank c = true →
    (modeAfter mode nesting (s.kindsBefore (offset + byteLength before))).inText = true →
    IsTextBlank offset s before c

theorem SpacesText.append
    (hpiece : ∀ before c mid, piece = before ++ c :: mid → Text.isBlank c = true →
      (modeAfter mode nesting (s.kindsBefore (offset + byteLength before))).inText = true →
      IsTextBlank offset s before c)
    (hrest : SpacesText (offset + byteLength piece) mode' nesting' rest s')
    (hon : GoesOn (offset + byteLength piece) mode nesting s mode' nesting' s') :
    SpacesText offset mode nesting (piece ++ rest) s := by
  intro before c after htext hc hmode
  rcases append_eq_append_cons htext with ⟨mid, hmid, -⟩ | ⟨before, rfl, hafter⟩
  · exact hpiece before c mid hmid hc hmode
  · rw [byteLength_append, ← Nat.add_assoc, hon.modes (Nat.le_add_right _ _)] at hmode
    exact (hrest before c after hafter hc hmode).append_left hon

/-- A piece without blanks that is read as a token. -/
theorem SpacesText.cons {t : Token} (hpiece : ∀ c ∈ piece, Text.isBlank c = false)
    (hrest : SpacesText (offset + byteLength piece) (mode.after nesting t) (nestingAfter nesting t)
      rest s) :
    SpacesText offset mode nesting (piece ++ rest) (s.cons t ⟨offset, offset + byteLength piece⟩) := by
  apply SpacesText.append _ hrest (goesOn_cons (Nat.le_refl _) t s)
  intro before c mid hmid hc
  rw [hpiece c (hmid ▸ List.mem_append_right _ List.mem_cons_self)] at hc
  cases hc

/-- A character that is a token and not blank. -/
theorem SpacesText.character {c : Char} {t : Token} (hc : Text.isBlank c = false)
    (hrest : SpacesText (offset + c.utf8Size) (mode.after nesting t) (nestingAfter nesting t) rest s) :
    SpacesText offset mode nesting (c :: rest) (s.cons t ⟨offset, offset + c.utf8Size⟩) := by
  rw [← byteLength_singleton] at hrest ⊢
  have hspaces := SpacesText.cons (List.forall_mem_singleton.2 hc) hrest
  exact hspaces

/-- A piece without blanks that is dropped. -/
theorem SpacesText.drop {c : Char} (hc : Text.isBlank c = false)
    (hrest : SpacesText (offset + c.utf8Size) mode nesting rest s) (problem : Problem) (span : Span) :
    SpacesText offset mode nesting (c :: rest) (s.report problem span) := by
  show SpacesText offset mode nesting ([c] ++ rest) _
  have hon : GoesOn (offset + byteLength [c]) mode nesting (s.report problem span) mode nesting s :=
    goesOn_of_tokens_eq rfl
  rw [← byteLength_singleton] at hrest
  apply SpacesText.append _ hrest hon
  intro before d mid hmid hd
  have hmem : d ∈ [c] := hmid ▸ List.mem_append_right _ List.mem_cons_self
  rw [List.mem_singleton.1 hmem, hc] at hd
  cases hd

/-- A command with the blanks that follow it. -/
theorem SpacesText.command {name blank : List Char}
    (hname : name.all Text.isLetter = true ∨ name.length = 1)
    (hblank : ∀ c ∈ blank, Text.isBlank c = true)
    (hrest : SpacesText (offset + byteLength (('\\' :: name) ++ blank))
      (mode.afterCommand (String.ofList name)) nesting rest s) :
    SpacesText offset mode nesting ((('\\' :: name) ++ blank) ++ rest)
      (s.cons (.control (String.ofList name)) ⟨offset, offset + byteLength ('\\' :: name)⟩) := by
  have hstop : offset + byteLength ('\\' :: name) ≤ offset + byteLength (('\\' :: name) ++ blank) := by
    rw [byteLength_append]
    omega
  apply SpacesText.append _ hrest (goesOn_cons hstop _ s)
  intro before c mid hmid hc _
  rcases append_eq_append_cons hmid with ⟨mid', hmid', -⟩ | ⟨run, hrun, hrest'⟩
  · have hlt := byteLength_lt_append_cons before mid' c
    rw [← hmid'] at hlt
    apply IsTextBlank.name List.mem_cons_self
    · exact ⟨Nat.le_add_right _ _, Nat.add_lt_add_left hlt offset⟩
    · have hmem : c ∈ '\\' :: name := hmid' ▸ List.mem_append_right _ List.mem_cons_self
      rcases List.mem_cons.1 hmem with rfl | hmem
      · cases hc
      · rcases hname with hletters | hlength
        · rw [Text.isBlank_eq_false_of_isLetter (List.all_eq_true.1 hletters c hmem)] at hc
          cases hc
        · obtain ⟨d, rfl⟩ := List.length_eq_one_iff.1 hlength
          rw [List.mem_singleton.1 hmem]
  · apply IsTextBlank.command hrun _ List.mem_cons_self rfl rfl
    intro b hb
    exact hblank b (hrest' ▸ List.mem_append_left _ hb)

/-- A run of blanks that is read as a space. -/
theorem SpacesText.space {c : Char} {blank : List Char} (hblank : ∀ b ∈ c :: blank, Text.isBlank b = true)
    (hmode : mode.inText = true)
    (hrest : SpacesText (offset + byteLength (c :: blank)) mode nesting rest s) :
    SpacesText offset mode nesting ((c :: blank) ++ rest)
      (s.cons (.char ' ') ⟨offset, offset + c.utf8Size⟩) := by
  have hstop : offset + c.utf8Size ≤ offset + byteLength (c :: blank) := by
    rw [byteLength_cons]
    omega
  have hafter : mode.after nesting (.char ' ') = mode := by
    cases mode <;> first | rfl | cases hmode
  have hon : GoesOn (offset + byteLength (c :: blank)) mode nesting
      (s.cons (.char ' ') ⟨offset, offset + c.utf8Size⟩) (mode.after nesting (.char ' ')) nesting s :=
    goesOn_cons hstop (.char ' ') s
  rw [hafter] at hon
  apply SpacesText.append _ hrest hon
  intro before d mid hmid _ _
  cases before with
  | nil =>
      obtain ⟨rfl, rfl⟩ := List.cons.inj hmid
      have hrun : [] ++ [c] = [] ++ c :: [] := rfl
      exact .space hrun (by simpa using hblank c List.mem_cons_self) List.mem_cons_self
  | cons first run =>
      obtain ⟨rfl, rfl⟩ := List.cons.inj hmid
      have hrun : c :: run ++ [d] = [] ++ c :: (run ++ [d]) := rfl
      apply IsTextBlank.space hrun _ List.mem_cons_self
      intro b hb
      apply hblank b
      have hsub : (c :: (run ++ [d])).Sublist (c :: (run ++ d :: mid)) :=
        ((List.nil_sublist mid).cons_cons d |>.append_left run).cons_cons c
      exact hsub.mem hb

/-- A run of blanks where no text is read. -/
theorem Cuts.spacesText_blank {blank : List Char} (hmode : mode.inText = false)
    (hcut : Cuts (offset + byteLength blank) mode opened rest s)
    (hrest : SpacesText (offset + byteLength blank) mode opened.length rest s) :
    SpacesText offset mode opened.length (blank ++ rest) s := by
  apply SpacesText.append _ hrest (goesOn_of_tokens_eq rfl)
  intro before c mid hmid _ htext
  have hnone : s.kindsBefore (offset + byteLength before) = [] := by
    apply List.map_eq_nil_iff.2
    apply List.filter_eq_nil_iff.2
    intro t ht hstop
    have hbounds := hcut.bounds ht
    have hlt := byteLength_lt_append_cons before mid c
    rw [← hmid] at hlt
    rw [decide_eq_true_eq] at hstop
    omega
  rw [hnone, modeAfter, hmode] at htext
  cases htext

theorem Cuts.spacesText_comment {comment : List Char} (hcomment : IsComment rest comment)
    (hcut : Cuts (offset + byteLength comment) mode opened rest s)
    (hrest : SpacesText (offset + byteLength comment) mode opened.length rest s) :
    SpacesText offset mode opened.length (comment ++ rest) s := by
  apply SpacesText.append _ hrest (goesOn_of_tokens_eq rfl)
  intro before c mid hmid hc _
  subst hmid
  rcases hcomment.before with ⟨rfl, rfl⟩ | ⟨line, rfl, hline⟩
  · cases hc
  · apply IsTextBlank.comment (List.nil_append _).symm hline
    intro hpercent
    have hle := hcut.covers_le hpercent
    have hlt := byteLength_lt_append_cons [] (line ++ c :: mid) '%'
    simp only [List.nil_append, List.cons_append] at hle hlt
    have hnil : byteLength [] = 0 := rfl
    omega

theorem nestingAfter_of_isNeutral {t : Token} (ht : isNeutral t = true) (nesting : Nat) :
    nestingAfter nesting t = nesting := by
  cases t <;> first | rfl | cases ht

/-- A character that is a token and leaves the open groups as they are. -/
theorem SpacesText.neutralCharacter {c : Char} {t : Token} (ht : isNeutral t = true)
    (hc : Text.isBlank c = false)
    (hrest : SpacesText (offset + c.utf8Size) mode.afterToken nesting rest s) :
    SpacesText offset mode nesting (c :: rest) (s.cons t ⟨offset, offset + c.utf8Size⟩) := by
  apply SpacesText.character hc
  rw [after_of_isNeutral ht, nestingAfter_of_isNeutral ht]
  exact hrest

theorem isBlank_eq_false_of_argumentRef? {c : Char} {ref : ArgumentRef} (h : argumentRef? c = some ref) :
    Text.isBlank c = false := by
  have hbetween := not_mayStandBetween_of_argumentRef? h
  rw [mayStandBetween, Bool.or_eq_false_iff] at hbetween
  exact hbetween.1

/-- A number sign with the character that says which argument is meant. -/
theorem SpacesText.argument {d : Char} {ref : ArgumentRef} (href : argumentRef? d = some ref)
    (hrest : SpacesText (offset + '#'.utf8Size + d.utf8Size) mode.afterToken nesting rest s) :
    SpacesText offset mode nesting ('#' :: d :: rest)
      (s.cons (.argument ref) ⟨offset, offset + 2⟩) := by
  have hsize : byteLength ['#', d] = 2 := by
    rw [byteLength_cons, byteLength_singleton, utf8Size_of_argumentRef? href]
    rfl
  have hpiece : ∀ c ∈ ['#', d], Text.isBlank c = false :=
    List.forall_mem_cons.2 ⟨rfl, List.forall_mem_singleton.2 (isBlank_eq_false_of_argumentRef? href)⟩
  rw [Nat.add_assoc, ← byteLength_singleton d, ← byteLength_cons] at hrest
  rw [← hsize]
  have hspaces := SpacesText.cons (t := .argument ref) hpiece hrest
  exact hspaces

/-- Reading tokens takes every blank where text is read as a space or with a command or a comment. -/
theorem spacesText_read (text : List Char) (offset : Nat) (mode : Mode) (opened : List Nat) :
    SpacesText offset mode opened.length text (read text offset mode opened) := by
  induction text, offset, mode, opened using read.induct with
  | case1 offset mode opened =>
      intro before c after htext
      cases before <;> cases htext
  | case2 offset mode opened c rest next hb blank ht ih =>
      have hblank : ∀ d ∈ c :: blank.1, Text.isBlank d = true :=
        List.forall_mem_cons.2 ⟨hb, fun _ => isBlank_of_mem_skipBlank⟩
      have hspaces := SpacesText.space hblank ht (by rw [byteLength_cons, ← Nat.add_assoc]; exact ih)
      rw [List.cons_append, skipBlank_append] at hspaces
      rw [read_space hb ht]
      exact hspaces
  | case3 offset mode opened c rest next hb blank ht ih =>
      rw [Bool.not_eq_true] at ht
      have hcut := cuts_read blank.2 (next + byteLength blank.1) mode opened
      have hspaces : SpacesText offset mode opened.length ((c :: blank.1) ++ blank.2) _ :=
        Cuts.spacesText_blank ht (by rw [byteLength_cons, ← Nat.add_assoc]; exact hcut)
          (by rw [byteLength_cons, ← Nat.add_assoc]; exact ih)
      rw [List.cons_append, skipBlank_append] at hspaces
      rw [read_blank hb ht]
      exact hspaces
  | case4 offset mode opened c rest next hb hn ih =>
      rw [read_nul hn]
      exact SpacesText.drop (Bool.eq_false_iff.2 hb) ih _ _
  | case5 offset mode opened rest comment next hb hn ih =>
      have hcut := cuts_read comment.2 (next + byteLength comment.1) mode opened
      have hspaces := Cuts.spacesText_comment (isComment_skipComment rest)
        (by rw [byteLength_cons, ← Nat.add_assoc]; exact hcut)
        (by rw [byteLength_cons, ← Nat.add_assoc]; exact ih)
      rw [List.cons_append, skipComment_append] at hspaces
      rw [read_comment]
      exact hspaces
  | case6 offset mode opened rest next hb hn h₁ ih =>
      rw [read_groupBegin]
      exact SpacesText.character rfl ih
  | case7 offset mode rest next hb hn h₁ h₂ ih =>
      rw [read_unmatchedClose]
      exact SpacesText.drop (c := '}') rfl ih _ _
  | case8 offset mode rest head outer next hb hn h₁ h₂ ih =>
      rw [read_groupEnd]
      exact SpacesText.character rfl ih
  | case9 offset mode opened rest name blank command next hb hn h₁ h₂ h₃ stop ih =>
      have hblank : ∀ d ∈ blank.1, Text.isBlank d = true := fun _ => isBlank_of_mem_skipBlank
      have hspaces : SpacesText offset mode opened.length
          ((('\\' :: name.1) ++ blank.1) ++ blank.2) _ :=
        SpacesText.command (isLetter_readName rest) hblank
          (by rw [byteLength_append, byteLength_cons, ← Nat.add_assoc, ← Nat.add_assoc]; exact ih)
      rw [List.append_assoc, byteLength_cons, ← Nat.add_assoc, skipBlank_append, List.cons_append,
        readName_append] at hspaces
      rw [read_control]
      exact hspaces
  | case10 offset mode opened d rest' ref href next hb hn h₁ h₂ h₃ h₄ ih =>
      rw [read_argument href]
      exact SpacesText.argument href ih
  | case11 offset mode opened d rest' href next hb hn h₁ h₂ h₃ h₄ ih =>
      rw [read_numberSign (d :: rest') href]
      exact SpacesText.neutralCharacter rfl rfl ih
  | case12 offset mode opened next hb hn h₁ h₂ h₃ h₄ ih =>
      rw [read_numberSign [] rfl]
      exact SpacesText.neutralCharacter rfl rfl ih
  | case13 offset mode opened c rest next hb hn h₁ h₂ h₃ h₄ h₅ ih =>
      rw [Bool.not_eq_true] at hb
      rw [read_plain hb hn (by simp [h₁, h₂, h₃, h₄, h₅])]
      exact SpacesText.neutralCharacter (isNeutral_plainToken mode c) hb ih

/-- Among tokens that stand one after the other, those that end at a byte or before it come first. -/
theorem isPrefix_filter {ts : List SpannedToken} (byte : Nat)
    (hpairwise : ts.Pairwise fun t u => t.span.stop ≤ u.span.start)
    (hspans : ∀ t ∈ ts, t.span.start ≤ t.span.stop) :
    ts.filter (fun t => t.span.stop ≤ byte) <+: ts := by
  induction ts with
  | nil => exact List.prefix_rfl
  | cons t ts ih =>
      obtain ⟨hnext, htail⟩ := List.pairwise_cons.1 hpairwise
      have hspans' := (List.forall_mem_cons.1 hspans).2
      by_cases hstop : t.span.stop ≤ byte
      · rw [List.filter_cons_of_pos (by simpa using hstop)]
        exact (List.prefix_cons_inj t).2 (ih htail hspans')
      · have hnone : ∀ u ∈ t :: ts, ¬decide (u.span.stop ≤ byte) = true := by
          intro u hu hle
          rw [decide_eq_true_eq] at hle
          rcases List.mem_cons.1 hu with rfl | hu
          · exact hstop hle
          · have hstart := hnext u hu
            have hspan := hspans' u hu
            omega
        rw [List.filter_eq_nil_iff.2 hnone]
        exact List.nil_prefix

theorem Cuts.isPrefix_kindsBefore (h : Cuts offset mode opened text s) (byte : Nat) :
    s.kindsBefore byte <+: s.kinds :=
  (isPrefix_filter byte h.pairwise fun _ ht => (h.bounds ht).2.1).map SpannedToken.token

theorem Cuts.isSome_openGroups?_of_isPrefix (h : Cuts offset mode opened text s) {ts : List Token}
    (hts : ts <+: s.kinds) : (openGroups? opened.length ts).isSome = true := by
  obtain ⟨rest, hrest⟩ := hts
  have hall := h.openGroups?_kinds
  rw [← hrest, openGroups?_append] at hall
  exact Option.isSome_of_isSome_bind (Option.isSome_of_eq_some hall)

theorem Spells.isMark_eq_false {t : Token} {spelling : List Char} (h : Spells true t spelling) :
    t.isMark = false := by
  cases h <;> first | rfl | contradiction

theorem Spells.isTextOnly_eq_false {t : Token} {spelling : List Char} (h : Spells false t spelling) :
    t.isTextOnly = false := by
  cases h with
  | @char c hplain =>
      rw [Token.isTextOnly, Bool.eq_false_iff]
      intro hc
      simp only [List.contains_eq_mem, List.mem_cons, List.not_mem_nil, or_false,
        decide_eq_true_eq] at hc
      rcases hc with rfl | rfl | rfl | rfl <;> cases hplain
  | space htext => cases htext
  | _ => rfl

variable {before after : List SpannedToken} {t : SpannedToken}

theorem Cuts.isMark_eq_false (h : Cuts offset mode opened text s) (hs : s.tokens = before ++ t :: after)
    (hmode : (modeAfter mode opened.length (before.map SpannedToken.token)).inText = true) :
    t.token.isMark = false := by
  obtain ⟨spelling, -, hspells | ⟨-, hend | hinput⟩⟩ := h.spelled hs
  · rw [hmode] at hspells
    exact hspells.isMark_eq_false
  · rw [hend]
    rfl
  · rw [hinput]
    rfl

theorem Cuts.isTextOnly_eq_false (h : Cuts offset mode opened text s)
    (hs : s.tokens = before ++ t :: after)
    (hmode : (modeAfter mode opened.length (before.map SpannedToken.token)).inText = false) :
    t.token.isTextOnly = false := by
  obtain ⟨spelling, -, hspells | ⟨-, hend | hinput⟩⟩ := h.spelled hs
  · rw [hmode] at hspells
    exact hspells.isTextOnly_eq_false
  · rw [hend]
    rfl
  · rw [hinput]
    rfl

end Lexer

/-! ## Every source -/

/-- What holds of the tokens of a source in the groups of text commands. -/
structure ReadsTextGroups (source : List Char) (s : Tokens) : Prop where
  /-- Until text is over, no token is a superscript, a subscript or an alignment mark. -/
  not_isMark {before after : List SpannedToken} {t : SpannedToken} {inner : List Token} :
    s.tokens = before ++ t :: after → InTextGroup (before.map SpannedToken.token) inner →
    leavesText inner = false → t.token.isMark = false
  /-- Until text is over, a blank is a space or in a run of blanks that begins with one, unless it is
  in a comment, the name of a command or after one. -/
  blank {before after : List Char} {c : Char} {inner : List Token} :
    source = before ++ c :: after → Text.isBlank c = true →
    InTextGroup (s.kindsBefore (byteLength before)) inner → leavesText inner = false →
    IsTextBlank 0 s before c
  /-- Once text is over, no blank is a space and no mark is a plain character, although the group of the
  text command goes on. -/
  not_isTextOnly {before after : List SpannedToken} {t : SpannedToken} {inner : List Token} :
    s.tokens = before ++ t :: after → InTextGroup (before.map SpannedToken.token) inner →
    leavesText inner = true → t.token.isTextOnly = false

theorem readsTextGroups_tokenize (source : String) :
    ReadsTextGroups source.toList (tokenize source) := by
  have hcuts : Cuts 0 .math [] source.toList (tokenize source) := cuts_read _ _ _ _
  have hmode {before after : List SpannedToken} {t : SpannedToken} {inner : List Token}
      (htokens : (tokenize source).tokens = before ++ t :: after)
      (hgroup : InTextGroup (before.map SpannedToken.token) inner) :
      (modeAfter .math 0 (before.map SpannedToken.token)).inText = !leavesText inner := by
    apply hgroup.inText_modeAfter
    apply hcuts.isSome_openGroups?_of_isPrefix
    rw [Tokens.kinds, htokens, List.map_append]
    exact List.prefix_append _ _
  constructor
  · intro before after t inner htokens hgroup htext
    apply hcuts.isMark_eq_false htokens
    rw [List.length_nil, hmode htokens hgroup, htext]
    rfl
  · intro before after c inner hsource hc hgroup htext
    have hopen := hcuts.isSome_openGroups?_of_isPrefix (hcuts.isPrefix_kindsBefore (byteLength before))
    have hspaces : SpacesText 0 .math 0 source.toList (tokenize source) := spacesText_read _ _ _ []
    apply hspaces before c after hsource hc
    rw [Nat.zero_add, hgroup.inText_modeAfter hopen, htext]
    rfl
  · intro before after t inner htokens hgroup htext
    apply hcuts.isTextOnly_eq_false htokens
    rw [List.length_nil, hmode htokens hgroup, htext]
    rfl

/-- The group of a text command in text is over, and with it text. -/
example : leavesText [.char 'a', .control "text", .groupBegin, .char 'b', .groupEnd, .char 'c'] = true := by
  decide +kernel

end FormulaEditor.Latex

import FormulaEditor.Latex.Lexer

/-!
# What the lexer does at a character

There is one equation for each way in which a source can go on. A proof about every source is an
induction along the lexer that rewrites with the equation of each case.
-/

namespace FormulaEditor.Latex.Lexer

variable {c : Char} {mode : Mode}

theorem read_nil (offset : Nat) (mode : Mode) (opened : List Nat) :
    read [] offset mode opened = finish offset opened := by
  rw [read.eq_def]

/-! ## Characters that are no tokens -/

/-- A run of blanks outside of text is skipped. -/
theorem read_blank (hb : Text.isBlank c = true) (ht : mode.inText = false) (rest : List Char)
    (offset : Nat) (opened : List Nat) :
    read (c :: rest) offset mode opened =
      read (skipBlank rest).2 (offset + c.utf8Size + byteLength (skipBlank rest).1) mode opened := by
  rw [read.eq_def]
  simp only [hb, ht, if_true, Bool.false_eq_true, if_false]

theorem read_nul (hn : c.toNat = 0) (rest : List Char) (offset : Nat) (mode : Mode)
    (opened : List Nat) :
    read (c :: rest) offset mode opened =
      (read rest (offset + c.utf8Size) mode opened).report (.disallowedChar c)
        ⟨offset, offset + c.utf8Size⟩ := by
  obtain rfl : c = '\x00' := Char.toNat_inj.1 hn
  rw [read.eq_def]
  rfl

theorem read_comment (rest : List Char) (offset : Nat) (mode : Mode) (opened : List Nat) :
    read ('%' :: rest) offset mode opened =
      read (skipComment rest).2 (offset + '%'.utf8Size + byteLength (skipComment rest).1) mode
        opened := by
  rw [read.eq_def]
  rfl

theorem read_unmatchedClose (rest : List Char) (offset : Nat) (mode : Mode) :
    read ('}' :: rest) offset mode [] =
      (read rest (offset + '}'.utf8Size) mode []).report .unmatchedClose
        ⟨offset, offset + '}'.utf8Size⟩ := by
  rw [read.eq_def]
  rfl

/-! ## Characters that begin a token -/

/-- A run of blanks in text is one space. -/
theorem read_space (hb : Text.isBlank c = true) (ht : mode.inText = true) (rest : List Char)
    (offset : Nat) (opened : List Nat) :
    read (c :: rest) offset mode opened =
      (read (skipBlank rest).2 (offset + c.utf8Size + byteLength (skipBlank rest).1) mode opened).cons
        (.char ' ') ⟨offset, offset + c.utf8Size⟩ := by
  rw [read.eq_def]
  simp only [hb, ht, if_true]

theorem read_groupBegin (rest : List Char) (offset : Nat) (mode : Mode) (opened : List Nat) :
    read ('{' :: rest) offset mode opened =
      (read rest (offset + '{'.utf8Size) (mode.afterOpening opened.length) (offset :: opened)).cons
        .groupBegin ⟨offset, offset + '{'.utf8Size⟩ := by
  rw [read.eq_def]
  rfl

theorem read_groupEnd (rest : List Char) (offset : Nat) (mode : Mode) (start : Nat)
    (opened : List Nat) :
    read ('}' :: rest) offset mode (start :: opened) =
      (read rest (offset + '}'.utf8Size) (mode.afterClosing opened.length) opened).cons .groupEnd
        ⟨offset, offset + '}'.utf8Size⟩ := by
  rw [read.eq_def]
  rfl

/-- The blanks behind a command belong to it. -/
theorem read_control (rest : List Char) (offset : Nat) (mode : Mode) (opened : List Nat) :
    read ('\\' :: rest) offset mode opened =
      (read (skipBlank (readName rest).2).2
        (offset + '\\'.utf8Size + byteLength (readName rest).1 +
          byteLength (skipBlank (readName rest).2).1)
        (mode.afterCommand (String.ofList (readName rest).1)) opened).cons
          (.control (String.ofList (readName rest).1))
          ⟨offset, offset + '\\'.utf8Size + byteLength (readName rest).1⟩ := by
  rw [read.eq_def]
  rfl

theorem read_argument {ref : ArgumentRef} (h : argumentRef? c = some ref) (rest : List Char)
    (offset : Nat) (mode : Mode) (opened : List Nat) :
    read ('#' :: c :: rest) offset mode opened =
      (read rest (offset + '#'.utf8Size + c.utf8Size) mode.afterToken opened).cons (.argument ref)
        ⟨offset, offset + 2⟩ := by
  rw [read.eq_def]
  simp only [show Text.isBlank '#' = false from rfl, Bool.false_eq_true, if_false,
    show '#'.toNat ≠ 0 by decide, show '#' ≠ '%' by decide, show '#' ≠ '{' by decide,
    show '#' ≠ '}' by decide, show '#' ≠ '\\' by decide, if_true, h]

/-- A number sign with no reference behind it is a character. -/
theorem read_numberSign (rest : List Char) (h : rest.head?.bind argumentRef? = none) (offset : Nat)
    (mode : Mode) (opened : List Nat) :
    read ('#' :: rest) offset mode opened =
      (read rest (offset + '#'.utf8Size) mode.afterToken opened).cons (.char '#')
        ⟨offset, offset + '#'.utf8Size⟩ := by
  rw [read.eq_def]
  simp only [show Text.isBlank '#' = false from rfl, Bool.false_eq_true, if_false,
    show '#'.toNat ≠ 0 by decide, show '#' ≠ '%' by decide, show '#' ≠ '{' by decide,
    show '#' ≠ '}' by decide, show '#' ≠ '\\' by decide, if_true]
  cases rest with
  | nil => rfl
  | cons d rest =>
      have hnone : argumentRef? d = none := h
      simp only [hnone]

/-- A character with no effect of its own is one token. -/
theorem read_plain (hb : Text.isBlank c = false) (hn : c.toNat ≠ 0)
    (hc : ['%', '{', '}', '\\', '#'].contains c = false) (rest : List Char) (offset : Nat)
    (mode : Mode) (opened : List Nat) :
    read (c :: rest) offset mode opened =
      (read rest (offset + c.utf8Size) mode.afterToken opened).cons (plainToken mode c)
        ⟨offset, offset + c.utf8Size⟩ := by
  simp only [List.contains_cons, List.contains_nil, Bool.or_false, Bool.or_eq_false_iff,
    beq_eq_false_iff_ne] at hc
  obtain ⟨h₁, h₂, h₃, h₄, h₅⟩ := hc
  rw [read.eq_def]
  simp only [hb, Bool.false_eq_true, if_false, hn, h₁, h₂, h₃, h₄, h₅]

end FormulaEditor.Latex.Lexer

import FormulaEditor.Proofs.Latex.Branches
import FormulaEditor.Proofs.Latex.Spelling

/-!
# Reading spelled tokens

Spelled tokens are read as themselves where the mode of the lexer allows for it: spaces count in
text only and neither after a command nor after another space, and the marks of scripts and cells
count outside of text only.
-/

namespace FormulaEditor.Latex.Lexer

open Writer

/-- What the tokens so far say about the next one. -/
structure Place where
  mode : Mode
  /-- The number of open groups. -/
  nesting : Nat
  /-- Whether a space here is a token. -/
  blank : Bool
  deriving DecidableEq, Repr

/-- The place at the start of a source. -/
def Place.start : Place :=
  ⟨.math, 0, true⟩

/-- Whether a character is read as itself. -/
def Place.keepsChar (p : Place) (c : Char) : Bool :=
  if Text.isBlank c then p.mode.inText && p.blank && c == ' '
  else c.toNat != 0 && !(['%', '{', '}', '\\', '#'].contains c) &&
    if p.mode.inText then c != '~' else !(['^', '_', '&'].contains c)

/-- The place after a token, if the token is read as itself when it is spelled there. -/
def Place.step (p : Place) : Token → Option Place
  | .char c => if p.keepsChar c then some ⟨p.mode.afterToken, p.nesting, c != ' '⟩ else none
  | .control name =>
      if isProperName name.toList then some ⟨p.mode.afterCommand name, p.nesting, false⟩ else none
  | .groupBegin => some ⟨p.mode.afterOpening p.nesting, p.nesting + 1, true⟩
  | .groupEnd =>
      match p.nesting with
      | 0 => none
      | n + 1 => some ⟨p.mode.afterClosing n, n, true⟩
  | .superscript | .subscript | .alignment =>
      if p.mode.inText then none else some ⟨p.mode.afterToken, p.nesting, true⟩
  | .endOfInput | .argument _ => none

/-- The place after some tokens, if all of them are read as themselves. -/
def Place.walk (p : Place) : List Token → Option Place
  | [] => some p
  | t :: rest => (p.step t).bind fun q => q.walk rest

namespace Place

theorem walk_append (p : Place) (ts us : List Token) :
    p.walk (ts ++ us) = (p.walk ts).bind fun q => q.walk us := by
  induction ts generalizing p with
  | nil => rfl
  | cons t ts ih =>
      simp only [List.cons_append, walk]
      cases p.step t with
      | none => rfl
      | some q => exact ih q

theorem walk_cons_eq_some {p q : Place} {t : Token} {ts : List Token}
    (h : p.walk (t :: ts) = some q) : ∃ p', p.step t = some p' ∧ p'.walk ts = some q :=
  Option.bind_eq_some_iff.1 h

end Place

/-! ## What follows a token -/

/-- A text that cannot be mistaken for a part of the token before it. -/
def IsTail (tail : List Char) : Prop :=
  ∀ c rest, tail = c :: rest → Text.isLetter c = false ∧ Text.isBlank c = false

theorem isTail_nil : IsTail [] := by
  intro c rest h
  cases h

variable {p q : Place} {t : Token} {ts : List Token} {tail : List Char}

theorem exists_text_of_step (h : p.step t = some q) :
    ∃ c text, t.text = c :: text ∧ (p.blank = false → Text.isBlank c = false) := by
  cases t with
  | char c =>
      refine ⟨c, [], rfl, fun hb => ?_⟩
      cases hc : Text.isBlank c with
      | false => rfl
      | true => simp [Place.step, Place.keepsChar, hc, hb] at h
  | control name => exact ⟨'\\', name.toList, rfl, fun _ => rfl⟩
  | groupBegin => exact ⟨'{', [], rfl, fun _ => rfl⟩
  | groupEnd => exact ⟨'}', [], rfl, fun _ => rfl⟩
  | superscript => exact ⟨'^', [], rfl, fun _ => rfl⟩
  | subscript => exact ⟨'_', [], rfl, fun _ => rfl⟩
  | alignment => exact ⟨'&', [], rfl, fun _ => rfl⟩
  | endOfInput => cases h
  | argument ref => cases h

/-- Skipping blanks drops the space that keeps a letter apart, and no token. -/
theorem skipBlank_spell (h : p.walk ts = some q) (hb : p.blank = false) (ht : IsTail tail)
    (w : Bool) : (skipBlank (spell w ts ++ tail)).2 = spell false ts ++ tail := by
  have hspace : Text.isBlank ' ' = true := rfl
  cases ts with
  | nil =>
      cases tail with
      | nil => rfl
      | cons c rest => simp [spell, skipBlank, (ht c rest rfl).2]
  | cons t ts =>
      obtain ⟨p', hstep, -⟩ := Place.walk_cons_eq_some h
      obtain ⟨c, text, htext, hblank⟩ := exists_text_of_step hstep
      simp only [spell, htext, separator, Bool.false_and, Bool.false_eq_true, if_false]
      split <;> simp [skipBlank, hspace, hblank hb]

theorem not_letter_spell (h : p.walk ts = some q) (ht : IsTail tail) :
    startsWithLetter (spell true ts ++ tail) = false := by
  have hspace : Text.isLetter ' ' = false := by decide
  cases ts with
  | nil =>
      cases tail with
      | nil => rfl
      | cons c rest => exact (ht c rest rfl).1
  | cons t ts =>
      obtain ⟨p', hstep, -⟩ := Place.walk_cons_eq_some h
      obtain ⟨c, text, htext, -⟩ := exists_text_of_step hstep
      cases hl : Text.isLetter c <;> simp [spell, htext, separator, startsWithLetter, hl, hspace]

theorem readName_spell {name : String} (hname : isProperName name.toList = true)
    (h : p.walk ts = some q) (ht : IsTail tail) :
    readName (name.toList ++ (spell (Token.control name).isWord ts ++ tail)) =
      (name.toList, spell (Token.control name).isWord ts ++ tail) := by
  simp only [Token.isWord]
  simp only [isProperName, Bool.and_eq_true, Bool.not_eq_true', List.isEmpty_eq_false_iff,
    Bool.or_eq_true, List.all_eq_true, beq_iff_eq] at hname
  obtain ⟨hne, hname⟩ := hname
  obtain ⟨c, rest, hcons⟩ := List.exists_cons_of_ne_nil hne
  cases hl : Text.isLetter c with
  | false =>
      have hrest : rest = [] := by
        rcases hname with hall | hone
        · have hletter := hall c (hcons ▸ List.mem_cons_self)
          rw [hl] at hletter
          cases hletter
        · simpa [hcons] using hone
      simp [hcons, hrest, readName, hl]
  | true =>
      have hall : ∀ d ∈ name.toList, Text.isLetter d = true := by
        rcases hname with hall | hone
        · exact hall
        · obtain ⟨d, hd⟩ := List.length_eq_one_iff.1 hone
          rw [hd] at hcons ⊢
          cases hcons
          simpa using hl
      have hword : startsWithLetter name.toList = true := by simp [hcons, startsWithLetter, hl]
      have hnext := not_letter_spell h ht
      rw [hword]
      generalize spell true ts ++ tail = next at hnext ⊢
      have htake : next.takeWhile Text.isLetter = [] ∧ next.dropWhile Text.isLetter = next := by
        cases next with
        | nil => exact ⟨rfl, rfl⟩
        | cons d next =>
            simp only [startsWithLetter] at hnext
            simp [hnext]
      unfold readName
      rw [List.takeWhile_append_of_pos hall, List.dropWhile_append_of_pos hall, htake.1, htake.2,
        List.append_nil, hcons]

theorem plainToken_char {c : Char} (h : p.keepsChar c = true) (hb : Text.isBlank c = false) :
    plainToken p.mode c = .char c := by
  simp only [Place.keepsChar, hb, Bool.false_eq_true, if_false, Bool.and_eq_true] at h
  unfold plainToken
  cases ht : p.mode.inText with
  | true =>
      have hc : c ≠ '~' := by simpa [ht] using h.2
      simp [hc]
  | false =>
      have hc : c ≠ '^' ∧ c ≠ '_' ∧ c ≠ '&' := by simpa [ht] using h.2
      simp [hc]

/-! ## All tokens -/

/-- A spelled token is read as itself, and what follows it from the place after it. -/
theorem read_token {p' : Place} (h : p.step t = some p') (hwalk : p'.walk ts = some q)
    (ht : IsTail tail) (offset : Nat) {opened : List Nat} (ho : opened.length = p.nesting) :
    ∃ span offset' opened', opened'.length = p'.nesting ∧
      read (spell false (t :: ts) ++ tail) offset p.mode opened =
        (read (spell false ts ++ tail) offset' p'.mode opened').cons t span := by
  have hmark {c : Char} {u : Token} (hb : Text.isBlank c = false) (hn : c.toNat ≠ 0)
      (hc : ['%', '{', '}', '\\', '#'].contains c = false) (hu : plainToken p.mode c = u) :
      ∃ span offset' opened', opened'.length = p.nesting ∧
        read (c :: (spell false ts ++ tail)) offset p.mode opened =
          (read (spell false ts ++ tail) offset' p.mode.afterToken opened').cons u span :=
    ⟨_, _, opened, ho, hu ▸ read_plain hb hn hc _ offset p.mode opened⟩
  cases t with
  | endOfInput => cases h
  | argument ref => cases h
  | char c =>
      simp only [Place.step, Option.ite_none_right_eq_some, Option.some.injEq] at h
      obtain ⟨hkeeps, rfl⟩ := h
      cases hb : Text.isBlank c with
      | false =>
          have hc := hkeeps
          simp only [Place.keepsChar, hb, Bool.false_eq_true, if_false, Bool.and_eq_true,
            bne_iff_ne, Bool.not_eq_true'] at hc
          exact hmark hb hc.1.1 hc.1.2 (plainToken_char hkeeps hb)
      | true =>
          have hc := hkeeps
          simp only [Place.keepsChar, hb, if_true, Bool.and_eq_true, beq_iff_eq] at hc
          obtain ⟨⟨hmode, -⟩, rfl⟩ := hc
          have heq := read_space (c := ' ') rfl hmode (spell false ts ++ tail) offset opened
          have hafter : p.mode.afterToken = p.mode := by
            cases hm : p.mode <;> simp_all [Mode.inText, Mode.afterToken]
          rw [skipBlank_spell hwalk rfl ht] at heq
          rw [hafter]
          exact ⟨_, _, opened, ho, heq⟩
  | control name =>
      simp only [Place.step, Option.ite_none_right_eq_some, Option.some.injEq] at h
      obtain ⟨hname, rfl⟩ := h
      have heq := read_control (name.toList ++ (spell (Token.control name).isWord ts ++ tail)) offset
        p.mode opened
      rw [readName_spell hname hwalk ht, skipBlank_spell hwalk rfl ht, String.ofList_toList] at heq
      refine ⟨_, _, opened, ho, Eq.trans ?_ heq⟩
      simp [spell, separator, Token.text]
  | groupBegin =>
      cases h
      have heq := read_groupBegin (spell false ts ++ tail) offset p.mode opened
      rw [ho] at heq
      exact ⟨_, _, offset :: opened, by simp [ho], heq⟩
  | groupEnd =>
      cases opened with
      | nil => simp [Place.step, ← ho] at h
      | cons start opened =>
          simp only [Place.step, ← ho, List.length_cons, Option.some.injEq] at h
          cases h
          exact ⟨_, _, opened, rfl, read_groupEnd (spell false ts ++ tail) offset p.mode start opened⟩
  | superscript =>
      simp only [Place.step, Option.ite_none_left_eq_some, Option.some.injEq] at h
      obtain ⟨hmode, rfl⟩ := h
      exact hmark rfl (by decide) (by decide) (by simp [plainToken, hmode])
  | subscript =>
      simp only [Place.step, Option.ite_none_left_eq_some, Option.some.injEq] at h
      obtain ⟨hmode, rfl⟩ := h
      exact hmark rfl (by decide) (by decide) (by simp [plainToken, hmode])
  | alignment =>
      simp only [Place.step, Option.ite_none_left_eq_some, Option.some.injEq] at h
      obtain ⟨hmode, rfl⟩ := h
      exact hmark rfl (by decide) (by decide) (by simp [plainToken, hmode])

/-- Spelled tokens are read as themselves, and the rest of the source after them. -/
theorem read_spell (h : p.walk ts = some q) (ht : IsTail tail) (offset : Nat) {opened : List Nat}
    (ho : opened.length = p.nesting) :
    ∃ spanned offset' opened', spanned.map SpannedToken.token = ts ∧ opened'.length = q.nesting ∧
      (read (spell false ts ++ tail) offset p.mode opened).tokens =
        spanned ++ (read tail offset' q.mode opened').tokens ∧
      (read (spell false ts ++ tail) offset p.mode opened).diagnostics =
        (read tail offset' q.mode opened').diagnostics := by
  induction ts generalizing p offset opened with
  | nil =>
      cases h
      exact ⟨[], offset, opened, rfl, ho, rfl, rfl⟩
  | cons t ts ih =>
      obtain ⟨p', hstep, hwalk⟩ := Place.walk_cons_eq_some h
      obtain ⟨span, offset₁, opened₁, ho₁, heq⟩ := read_token hstep hwalk ht offset ho
      obtain ⟨spanned, offset', opened', htokens, ho', hrest, hdiagnostics⟩ := ih hwalk offset₁ ho₁
      refine ⟨⟨t, span⟩ :: spanned, offset', opened', by simp [htokens], ho', ?_, ?_⟩
      · rw [heq]
        simp [Tokens.cons, hrest]
      · rw [heq]
        exact hdiagnostics

end FormulaEditor.Latex.Lexer

namespace FormulaEditor.Latex

/-- A whole source that is spelled from tokens is read as these tokens, without a problem. -/
theorem tokenize_spell {ts : List Token} {q : Lexer.Place}
    (h : Lexer.Place.start.walk ts = some q) (hn : q.nesting = 0) {source : String}
    (hs : source.toList = Writer.spell false ts) :
    (tokenize source).tokens.map SpannedToken.token = ts ++ [.endOfInput] ∧
      (tokenize source).diagnostics = [] := by
  have hnesting : ([] : List Nat).length = Lexer.Place.start.nesting := rfl
  obtain ⟨spanned, offset, opened, htokens, hlength, hread, hdiagnostics⟩ :=
    Lexer.read_spell h Lexer.isTail_nil 0 hnesting
  have hopened : opened = [] := List.eq_nil_of_length_eq_zero (hlength.trans hn)
  have hmode : Lexer.Place.start.mode = .math := rfl
  rw [List.append_nil, ← hs, hmode] at hread hdiagnostics
  rw [tokenize, hread, hdiagnostics, hopened, Lexer.read.eq_def]
  simp [Lexer.finish, htokens]

end FormulaEditor.Latex

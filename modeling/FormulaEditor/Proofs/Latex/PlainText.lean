import FormulaEditor.Proofs.Latex.Balance
import FormulaEditor.Proofs.Latex.Lexing
import FormulaEditor.Proofs.Latex.ReadingBack

/-!
# Plain text

A text in which no character has a meaning of its own is read as one token, and one atom, for each of
its characters that is neither blank nor NUL. Only primes are not atoms of the sequence in math: they
go to a superscript, unless they are spelled as commands.
-/

namespace FormulaEditor.Latex

/-- Whether a character has a meaning of its own in a source. -/
def isReserved (c : Char) : Bool :=
  ['\\', '^', '_', '{', '}', '#', '%', '&', '$'].contains c

/-- Whether a character has no meaning of its own in a source, except that blanks separate tokens. -/
def isUnreserved (c : Char) : Bool :=
  c.toNat != 0 && !isReserved c

/-- Whether a character is not blank. -/
def isVisible (c : Char) : Bool :=
  !Text.isBlank c

/-- Whether a character becomes a token: blanks are skipped, and NUL is dropped. -/
def isRead (c : Char) : Bool :=
  c.toNat != 0 && isVisible c

/-- The spelling of a character by which a prime is a symbol. -/
def spellPrime (c : Char) : List Char :=
  if c = Text.Quoted.singleQuote then "\\prime ".toList else [c]

/-- The token of a character by which a prime is a symbol. -/
def symbolToken (c : Char) : Token :=
  if c = Text.Quoted.singleQuote then .control "prime" else .char c

section

variable {text : List Char} {c : Char}

theorem toNat_eq_zero_iff : c.toNat = 0 ↔ c = '\x00' :=
  Char.toNat_inj (d := '\x00')

theorem isUnreserved_iff : isUnreserved c = true ↔ c ≠ '\x00' ∧ isReserved c = false := by
  simp [isUnreserved, toNat_eq_zero_iff]

theorem filter_isRead (h : '\x00' ∉ text) : text.filter isRead = text.filter isVisible := by
  apply List.filter_congr
  intro c hc
  have hnul : c ≠ '\x00' := fun hnul => h (hnul ▸ hc)
  simp [isRead, toNat_eq_zero_iff, hnul]

theorem length_filter_isRead_lt (h : '\x00' ∈ text) :
    (text.filter isRead).length < (text.filter isVisible).length := by
  have hfilter : text.filter isRead = (text.filter isVisible).filter fun c => c.toNat != 0 :=
    List.filter_filter.symm
  rw [hfilter, List.length_filter_lt_length_iff_exists]
  exact ⟨'\x00', List.mem_filter.2 ⟨h, rfl⟩, by decide⟩

end

/-! ## Tokens -/

namespace Lexer

/-- Whether a text is read in math as the given tokens, also without the blanks at its start. -/
def IsReadAs (text : List Char) (ts : List Token) : Prop :=
  ∀ offset, ∀ rest ∈ [text, (skipBlank text).2], (read rest offset .math []).kinds = ts

variable {text : List Char} {ts : List Token} {c : Char}

theorem isReadAs_nil : IsReadAs [] [.endOfInput] := by
  intro offset rest hrest
  have hnil : rest = [] := by simpa [skipBlank] using hrest
  subst hnil
  rw [read_nil]
  rfl

theorem IsReadAs.blank (hc : Text.isBlank c = true) (h : IsReadAs text ts) :
    IsReadAs (c :: text) ts := by
  have hskip : (skipBlank (c :: text)).2 = (skipBlank text).2 := by
    simp [skipBlank, hc]
  intro offset rest hrest
  rw [hskip] at hrest
  rcases List.mem_cons.1 hrest with rfl | hrest
  · rw [read_blank hc rfl]
    exact h _ _ (by simp)
  · exact h offset rest (List.mem_cons_of_mem _ hrest)

/-- NUL is reported, and nothing is read of it. -/
theorem IsReadAs.nul (h : IsReadAs text ts) : IsReadAs ('\x00' :: text) ts := by
  intro offset rest hrest
  have hself : rest = '\x00' :: text := by
    simpa [skipBlank, show Text.isBlank '\x00' = false from rfl] using hrest
  subst hself
  rw [read_nul rfl]
  exact h _ _ List.mem_cons_self

/-- A text that begins with what is read as a token, whatever follows the token. -/
theorem IsReadAs.cons {spelling rest : List Char} {t : Token} (hc : Text.isBlank c = false)
    (hread : ∀ offset, ∃ offset' span, read (c :: spelling ++ text) offset .math [] =
      (read rest offset' .math []).cons t span)
    (hrest : rest ∈ [text, (skipBlank text).2]) (h : IsReadAs text ts) :
    IsReadAs (c :: spelling ++ text) (t :: ts) := by
  intro offset rest' hrest'
  have hself : rest' = c :: spelling ++ text := by
    simpa [skipBlank, hc] using hrest'
  subst hself
  obtain ⟨offset', span, heq⟩ := hread offset
  rw [heq]
  exact congrArg (List.cons t) (h offset' rest hrest)

theorem IsReadAs.char (hc : isReserved c = false) (hv : isRead c = true) (h : IsReadAs text ts) :
    IsReadAs (c :: text) (.char c :: ts) := by
  obtain ⟨hn, hb⟩ : c.toNat ≠ 0 ∧ Text.isBlank c = false := by simpa [isRead, isVisible] using hv
  simp only [isReserved, List.contains_cons, List.contains_nil, Bool.or_false, Bool.or_eq_false_iff,
    beq_eq_false_iff_ne] at hc
  obtain ⟨hslash, hsup, hsub, hbegin, hend, hnumber, hpercent, halign, -⟩ := hc
  have hplain : plainToken .math c = .char c := by
    simp [plainToken, Mode.inText, hsup, hsub, halign]
  have hread (offset : Nat) : ∃ offset' span, read ([c] ++ text) offset .math [] =
      (read text offset' .math []).cons (.char c) span := by
    have hplainRead := read_plain hb hn (by simp [hslash, hbegin, hend, hnumber, hpercent]) text
      offset .math []
    rw [hplain] at hplainRead
    exact ⟨_, _, hplainRead⟩
  exact IsReadAs.cons hb hread (by simp) h

theorem IsReadAs.prime (h : IsReadAs text ts) :
    IsReadAs ("\\prime ".toList ++ text) (.control "prime" :: ts) := by
  have hname : readName ("prime ".toList ++ text) = ("prime".toList, ' ' :: text) := rfl
  have hskip : (skipBlank (' ' :: text)).2 = (skipBlank text).2 := rfl
  have hmode : Mode.afterCommand .math "prime" = .math := by decide +kernel
  have hread (offset : Nat) : ∃ offset' span,
      read ('\\' :: "prime ".toList ++ text) offset .math [] =
        (read (skipBlank text).2 offset' .math []).cons (.control "prime") span := by
    have hcontrol := read_control ("prime ".toList ++ text) offset .math []
    rw [hname] at hcontrol
    simp only [hskip, String.ofList_toList, hmode] at hcontrol
    exact ⟨_, _, hcontrol⟩
  exact IsReadAs.cons rfl hread (by simp) h

/-- Nothing is read of a character that becomes no token. -/
theorem IsReadAs.skipped (hv : isRead c = false) (h : IsReadAs text ts) :
    IsReadAs (c :: text) ts := by
  by_cases hb : Text.isBlank c = true
  · exact h.blank hb
  · have hnul : c = '\x00' := by simpa [isRead, isVisible, hb, toNat_eq_zero_iff] using hv
    rw [hnul]
    exact h.nul

/-- Plain text is read as its characters. -/
theorem isReadAs_plain (h : ∀ c ∈ text, isReserved c = false) :
    IsReadAs text ((text.filter isRead).map Token.char ++ [.endOfInput]) := by
  induction text with
  | nil => exact isReadAs_nil
  | cons c text ih =>
      obtain ⟨hc, htext⟩ := List.forall_mem_cons.1 h
      by_cases hv : isRead c = true
      · rw [List.filter_cons_of_pos hv]
        exact (ih htext).char hc hv
      · rw [List.filter_cons_of_neg hv]
        exact (ih htext).skipped (Bool.eq_false_iff.2 hv)

theorem isReadAs_spellPrime (h : ∀ c ∈ text, isReserved c = false) :
    IsReadAs (text.flatMap spellPrime)
      ((text.filter isRead).map symbolToken ++ [.endOfInput]) := by
  induction text with
  | nil => exact isReadAs_nil
  | cons c text ih =>
      obtain ⟨hc, htext⟩ := List.forall_mem_cons.1 h
      rw [List.flatMap_cons]
      by_cases hprime : c = Text.Quoted.singleQuote
      · have hv : isRead c = true := by
          rw [hprime]
          rfl
        rw [List.filter_cons_of_pos hv, List.map_cons, spellPrime, if_pos hprime, symbolToken,
          if_pos hprime]
        exact (ih htext).prime
      · rw [spellPrime, if_neg hprime]
        by_cases hv : isRead c = true
        · rw [List.filter_cons_of_pos hv, List.map_cons, symbolToken, if_neg hprime]
          exact (ih htext).char hc hv
        · rw [List.filter_cons_of_neg hv]
          exact (ih htext).skipped (Bool.eq_false_iff.2 hv)

end Lexer

/-! ## Atoms -/

namespace Reader

/-- The atom of a character by which a prime is a symbol. -/
def newPlain (mode : ReadingMode) (c : Char) : Minting Atom :=
  match mode with
  | .math => newMathChar c
  | .text => Atom.newChar .ordinary c

/-- Whether atoms are those of some characters, whatever their identities. -/
inductive AreOf (mode : ReadingMode) : List Char → List Atom → Prop where
  | nil : AreOf mode [] []
  | cons {chars : List Char} {atoms : List Atom} (c : Char) (n : Nat) : AreOf mode chars atoms →
      AreOf mode (c :: chars) ((newPlain mode c n).1 :: atoms)

/-- The atom of a character, without an identity. -/
def plainAtom (mode : ReadingMode) (c : Char) : Atom :=
  (newPlain mode c 0).1

theorem bare_newPlain (mode : ReadingMode) (c : Char) (n : Nat) :
    (newPlain mode c n).1.bare = plainAtom mode c := by
  cases mode with
  | text => rfl
  | math =>
      unfold plainAtom newPlain newMathChar
      dsimp only
      split
      · rfl
      · split <;> rfl

section

variable {mode : ReadingMode} {chars : List Char} {atoms : List Atom}

theorem AreOf.map_bare (h : AreOf mode chars atoms) :
    atoms.map Atom.bare = chars.map (plainAtom mode) := by
  induction h with
  | nil => rfl
  | cons c n _ ih => rw [List.map_cons, List.map_cons, bare_newPlain, ih]

theorem AreOf.append {chars' : List Char} {atoms' : List Atom} (h : AreOf mode chars atoms)
    (h' : AreOf mode chars' atoms') : AreOf mode (chars ++ chars') (atoms ++ atoms') := by
  induction h with
  | nil => exact h'
  | cons c n _ ih => exact .cons c n ih

theorem AreOf.length_eq (h : AreOf mode chars atoms) : atoms.length = chars.length := by
  have hlength := congrArg List.length h.map_bare
  simpa only [List.length_map] using hlength

end

variable {args : List (List Atom)} {mode : ReadingMode} {done : List Atom} {s : Reader}
  {ts : List Token} {c : Char}

/-- Whether the reader makes of a token what is made of a character. -/
def TakesAs (args : List (List Atom)) (mode : ReadingMode) (t : Token) (c : Char) : Prop :=
  ∀ done s ts, s.ahead = t :: ts → readItem args mode done s = push done (newPlain mode c) s.skip

theorem takesAs_char (args : List (List Atom)) (h : mode = .math → c ≠ Text.Quoted.singleQuote) :
    TakesAs args mode (.char c) c := by
  intro done s ts hs
  cases mode with
  | math => exact readItem_char hs (h rfl)
  | text => exact readItem_textChar hs

theorem takesAs_symbolToken (args : List (List Atom)) (c : Char) :
    TakesAs args .math (symbolToken c) c := by
  unfold symbolToken
  split
  · rename_i hprime
    subst hprime
    intro done s ts hs
    obtain ⟨span, hitem⟩ : ∃ span, readItem args .math done s =
        readCommand args "prime" span .math done s.skip := readItem_control hs
    rw [hitem, readCommand_symbol Vocabulary.find?_prime rfl]
    rfl
  · rename_i hprime
    exact takesAs_char args fun _ => hprime

/-- Characters are read as an atom each, if each token is taken as its character. -/
theorem readItems_plain {token : Char → Token} {chars : List Char}
    (htakes : ∀ c ∈ chars, TakesAs args mode (token c) c)
    (hstop : ∀ c, Stop.endOfInput.endsAt (token c) = false) (done : List Atom)
    (hs : s.ahead = chars.map token ++ [.endOfInput]) :
    ∃ atoms, (readItems args .endOfInput mode done s).1 = done.reverse ++ atoms ∧
      AreOf mode chars atoms := by
  induction chars generalizing done s with
  | nil =>
      rw [readItems_stop hs rfl]
      exact ⟨[], (List.append_nil _).symm, AreOf.nil⟩
  | cons c chars ih =>
      obtain ⟨hc, hchars⟩ := List.forall_mem_cons.1 htakes
      have hitem := hc done s _ hs
      have hnext : (push done (newPlain mode c) s.skip).2.ahead =
          chars.map token ++ [.endOfInput] := ahead_skip hs
      have hpushed : (push done (newPlain mode c) s.skip).1 =
          (newPlain mode c s.skip.supply).1 :: done := rfl
      obtain ⟨atoms, hread, hatoms⟩ :=
        ih hchars (push done (newPlain mode c) s.skip).1 hnext
      refine ⟨(newPlain mode c s.skip.supply).1 :: atoms, ?_, .cons c _ hatoms⟩
      rw [readItems_step hs (hstop c) hitem (Nat.le_of_eq (congrArg List.length hnext)), hread,
        hpushed, List.reverse_cons, List.append_assoc]
      rfl

/-! ## Primes -/

/-- Whether one of some atoms has a superscript. -/
def HasSuperscript (atoms : List Atom) : Prop :=
  ∃ a ∈ atoms, (a.branch .superscript).isSome = true

theorem readItem_prime (hs : s.ahead = .char Text.Quoted.singleQuote :: ts) :
    ∃ span, readItem args .math done s = attachPrime done span s.skip := by
  obtain ⟨rest, used, problems, supply⟩ := s
  obtain ⟨u, rest, rfl, hu, -⟩ := List.map_eq_cons_iff.1 hs
  refine ⟨u.span, ?_⟩
  rw [readItem.eq_def]
  simp only [hu, if_true]
  rfl

theorem ahead_attachScript (slot : Slot) (content done : List Atom) (span : Span) (s : Reader) :
    (attachScript slot content done span s).2.ahead = s.ahead := by
  unfold attachScript
  dsimp only
  split
  · rfl
  · split
    · split <;> rfl
    · rfl

theorem ahead_attachPrime (done : List Atom) (span : Span) (s : Reader) :
    (attachPrime done span s).2.ahead = s.ahead := by
  unfold attachPrime
  dsimp only
  split
  · split
    · split
      · rfl
      · exact ahead_attachScript ..
    · exact ahead_attachScript ..
  · exact ahead_attachScript ..

theorem hasSuperscript_withBranch {a : Atom} (hk : a.kind.allowsScripts = true)
    (hb : a.branch .superscript = none) {content : List Atom} (hne : content ≠ []) (done : List Atom)
    (n : Nat) : HasSuperscript ((withBranch a .superscript content n).1 :: done) := by
  refine ⟨_, List.mem_cons_self, ?_⟩
  rw [withBranch_apply hk rfl hb, if_neg hne, Atom.branch_putBranch_self]
  rfl

theorem hasSuperscript_attachScript {content : List Atom} (hne : content ≠ []) (done : List Atom)
    (span : Span) (s : Reader) : HasSuperscript (attachScript .superscript content done span s).1 := by
  have hplaceholder (error : Bool) (done : List Atom) (n : Nat) :
      HasSuperscript ((withBranch
        (if error then (Atom.placeholder n).markError else Atom.placeholder n)
          .superscript content (n + 1)).1 :: done) := by
    cases error <;> exact hasSuperscript_withBranch rfl rfl hne done _
  unfold attachScript
  dsimp only
  split
  · exact hplaceholder false [] s.supply
  · rename_i last before
    split
    · rename_i hk
      split
      · rename_i hb
        exact hasSuperscript_withBranch hk (Option.isNone_iff_eq_none.1 hb) hne before s.supply
      · exact hplaceholder true (last :: before) s.supply
    · exact hplaceholder false (last :: before) s.supply

theorem hasSuperscript_attachPrime (done : List Atom) (span : Span) (s : Reader) :
    HasSuperscript (attachPrime done span s).1 := by
  unfold attachPrime
  dsimp only
  split
  · split
    · split
      · refine ⟨_, List.mem_cons_self, ?_⟩
        rw [Atom.branch_putBranch_self]
        rfl
      · exact hasSuperscript_attachScript (List.cons_ne_nil _ _) ..
    · exact hasSuperscript_attachScript (List.cons_ne_nil _ _) ..
  · exact hasSuperscript_attachScript (List.cons_ne_nil _ _) ..

/-- A prime among some characters of math makes a superscript, which stays. -/
theorem hasSuperscript_readItems {chars : List Char}
    (hs : s.ahead = chars.map Token.char ++ [.endOfInput])
    (h : Text.Quoted.singleQuote ∈ chars ∨ HasSuperscript done) :
    HasSuperscript (readItems args .endOfInput .math done s).1 := by
  induction chars generalizing done s with
  | nil =>
      obtain ⟨a, ha, hsuperscript⟩ := h.resolve_left List.not_mem_nil
      rw [readItems_stop hs rfl]
      exact ⟨a, List.mem_reverse.2 ha, hsuperscript⟩
  | cons c chars ih =>
      by_cases hprime : c = Text.Quoted.singleQuote
      · subst hprime
        obtain ⟨span, hitem⟩ : ∃ span, readItem args .math done s = attachPrime done span s.skip :=
          readItem_prime hs
        have hnext : (attachPrime done span s.skip).2.ahead = chars.map Token.char ++ [.endOfInput] :=
          (ahead_attachPrime ..).trans (ahead_skip hs)
        rw [readItems_step hs rfl hitem (Nat.le_of_eq (congrArg List.length hnext))]
        exact ih hnext (.inr (hasSuperscript_attachPrime ..))
      · have hitem : readItem args .math done s = push done (newMathChar c) s.skip :=
          readItem_char hs hprime
        have hnext : (push done (newMathChar c) s.skip).2.ahead =
            chars.map Token.char ++ [.endOfInput] := ahead_skip hs
        rw [readItems_step hs rfl hitem (Nat.le_of_eq (congrArg List.length hnext))]
        apply ih hnext
        rcases h with hmem | ⟨a, ha, hsuperscript⟩
        · exact .inl ((List.mem_cons.1 hmem).resolve_left (Ne.symm hprime))
        · exact .inr ⟨a, List.mem_cons_of_mem _ ha, hsuperscript⟩

end Reader

open Reader

theorem endsAt_char (c : Char) : Stop.endOfInput.endsAt (.char c) = false := rfl

theorem endsAt_symbolToken (c : Char) : Stop.endOfInput.endsAt (symbolToken c) = false := by
  unfold symbolToken
  split <;> rfl

variable {text : List Char} {ts : List Token}

theorem ahead_start_of_isReadAs (h : Lexer.IsReadAs text ts) (n : Nat) :
    (start (tokenize (String.ofList text)).tokens n).ahead = ts := by
  rw [tokenize, String.toList_ofList]
  exact h 0 text List.mem_cons_self

/-- Plain text is read as the atoms of the characters that become tokens, if there is no prime or the
text is read as text. -/
theorem areOf_parseFragment_plain (h : ∀ c ∈ text, isReserved c = false) {mode : ReadingMode}
    (hprime : mode = .math → Text.Quoted.singleQuote ∉ text) (args : List (List Atom)) (n : Nat) :
    AreOf mode (text.filter isRead) (parseFragment (String.ofList text) mode args n).1.atoms := by
  have htakes : ∀ c ∈ text.filter isRead, TakesAs args mode (.char c) c := by
    intro c hc
    apply takesAs_char
    rintro hmode rfl
    exact hprime hmode (List.mem_filter.1 hc).1
  have hahead := ahead_start_of_isReadAs (Lexer.isReadAs_plain h) n
  obtain ⟨atoms, hread, hatoms⟩ := readItems_plain htakes endsAt_char [] hahead
  rw [List.reverse_nil, List.nil_append] at hread
  rw [← hread] at hatoms
  exact hatoms

/-- With the primes spelled as commands, it is read so in any case. -/
theorem areOf_parseFragment_spellPrime (h : ∀ c ∈ text, isReserved c = false)
    (args : List (List Atom)) (n : Nat) :
    AreOf .math (text.filter isRead)
      (parseFragment (String.ofList (text.flatMap spellPrime)) .math args n).1.atoms := by
  have hahead := ahead_start_of_isReadAs (Lexer.isReadAs_spellPrime h) n
  obtain ⟨atoms, hread, hatoms⟩ := readItems_plain
    (fun c _ => takesAs_symbolToken args c) endsAt_symbolToken [] hahead
  rw [List.reverse_nil, List.nil_append] at hread
  rw [← hread] at hatoms
  exact hatoms

/-- A prime in plain text of math is a superscript. -/
theorem hasSuperscript_parseFragment (h : ∀ c ∈ text, isReserved c = false)
    (hprime : Text.Quoted.singleQuote ∈ text) (args : List (List Atom)) (n : Nat) :
    HasSuperscript (parseFragment (String.ofList text) .math args n).1.atoms :=
  hasSuperscript_readItems (ahead_start_of_isReadAs (Lexer.isReadAs_plain h) n)
    (.inl (List.mem_filter.2 ⟨hprime, rfl⟩))

end FormulaEditor.Latex

import FormulaEditor.Proofs.Latex.Faultless
import FormulaEditor.Proofs.Latex.ReadingBack

/-!
# The round trip of formulas without text

A formula that was read without a problem, from a source without text, is written so that reading it
again gives an alike formula, again without a problem.
-/

namespace FormulaEditor.Latex

open Lexer

/-! ## Written tokens are read outside of text -/

/-- Tokens that are read as themselves outside of text, and leave as many groups open as there were
before. -/
def WalksInMath (ts : List Token) : Prop :=
  ∀ nesting blank, ∃ blank', Place.walk ⟨.math, nesting, blank⟩ ts = some ⟨.math, nesting, blank'⟩

theorem walksInMath_nil : WalksInMath [] :=
  fun _ blank => ⟨blank, rfl⟩

theorem WalksInMath.append {ts us : List Token} (h : WalksInMath ts) (h' : WalksInMath us) :
    WalksInMath (ts ++ us) := by
  intro nesting blank
  obtain ⟨blank₁, hts⟩ := h nesting blank
  obtain ⟨blank₂, hus⟩ := h' nesting blank₁
  exact ⟨blank₂, by rw [Place.walk_append, hts, Option.bind_some, hus]⟩

theorem WalksInMath.flatMap {α : Type} {f : α → List Token} {as : List α}
    (h : ∀ a ∈ as, WalksInMath (f a)) : WalksInMath (as.flatMap f) := by
  induction as with
  | nil => exact walksInMath_nil
  | cons a as ih =>
      rw [List.flatMap_cons]
      exact (h a List.mem_cons_self).append (ih fun b hb => h b (List.mem_cons_of_mem _ hb))

theorem walksInMath_char {c : Char} (h : isMathChar c = true) : WalksInMath [.char c] := by
  intro nesting blank
  have hkeeps : Place.keepsChar ⟨.math, nesting, blank⟩ c = true := h
  exact ⟨_, by simp [Place.walk, Place.step, hkeeps, Mode.afterToken]; rfl⟩

theorem walksInMath_mark {t : Token} (h : t = .superscript ∨ t = .subscript ∨ t = .alignment) :
    WalksInMath [t] := by
  rcases h with rfl | rfl | rfl <;> exact fun _ _ => ⟨true, rfl⟩

theorem afterCommand_math {name : String}
    (h : (Vocabulary.find? name).map Meaning.action ≠ some .text) :
    Mode.afterCommand .math name = .math := by
  unfold Mode.afterCommand
  split
  · exact absurd ‹_› h
  · rfl

theorem walksInMath_control {name : String} (hn : isProperName name.toList = true)
    (ht : (Vocabulary.find? name).map Meaning.action ≠ some .text) :
    WalksInMath [.control name] := by
  intro nesting blank
  refine ⟨false, ?_⟩
  simp [Place.walk, Place.step, hn, afterCommand_math ht]

theorem walksInMath_command {name : String} {m : Meaning} (hf : Vocabulary.find? name = some m)
    (ht : m.action ≠ .text) : WalksInMath [.control name] :=
  walksInMath_control (Vocabulary.isProperName_of_find? hf) (by simpa [hf] using ht)

theorem WalksInMath.braced {ts : List Token} (h : WalksInMath ts) :
    WalksInMath (.groupBegin :: ts ++ [.groupEnd]) := by
  intro nesting blank
  obtain ⟨blank', hts⟩ := h (nesting + 1) true
  refine ⟨true, ?_⟩
  have hbegin : Place.step ⟨.math, nesting, blank⟩ .groupBegin = some ⟨.math, nesting + 1, true⟩ := rfl
  rw [List.cons_append, Place.walk, hbegin, Option.bind_some, Place.walk_append, hts,
    Option.bind_some]
  rfl

theorem walksInMath_tokensOfList {atoms : List Atom} (h : ∀ a ∈ atoms, WalksInMath (tokensOf a)) :
    WalksInMath (tokensOfList atoms) := by
  induction atoms with
  | nil => exact walksInMath_nil
  | cons a atoms ih =>
      rw [tokensOfList_cons]
      exact (h a List.mem_cons_self).append (ih fun b hb => h b (List.mem_cons_of_mem _ hb))

theorem walksInMath_environmentTokens {command name : String} {m : Meaning}
    (hf : Vocabulary.find? command = some m) (ht : m.action ≠ .text)
    (hname : Vocabulary.isArrayEnvironment name = true) :
    WalksInMath (Writer.environmentTokens command name) := by
  have hchars : ∀ name ∈ Vocabulary.arrayEnvironments, name.toList.all isMathChar = true := by
    decide +kernel
  have hmap : name.toList.map Token.char = name.toList.flatMap fun c => [.char c] := by
    rw [List.map_eq_flatMap]
  rw [Writer.environmentTokens, hmap]
  refine (walksInMath_command hf ht).append (WalksInMath.braced (WalksInMath.flatMap fun c hc => ?_))
  exact walksInMath_char (List.all_eq_true.1 (hchars name (List.contains_iff_mem.1 hname)) c hc)

theorem walksInMath_indexTokens {index : Option (List Atom)}
    (h : ∀ atoms, index = some atoms → WalksInMath (tokensOfList atoms)) :
    WalksInMath (indexTokens index) := by
  have hopen : WalksInMath [.char '['] := walksInMath_char (by decide)
  have hclose : WalksInMath [.char ']'] := walksInMath_char (by decide)
  cases index with
  | none => exact walksInMath_nil
  | some atoms =>
      have hatoms := h atoms rfl
      cases hb : Writer.needsBraces atoms with
      | false => simpa [indexTokens, indexEnd, hb] using (hopen.append hatoms).append hclose
      | true => simpa [indexTokens, indexEnd, hb] using (hopen.append hatoms.braced).append hclose

theorem walksInMath_gridTokens {rows : List (List (List Atom))}
    (h : ∀ cells ∈ rows, ∀ content ∈ cells, WalksInMath (tokensOfList content)) :
    WalksInMath (gridTokens rows) := by
  have hrow {cells : List (List Atom)} (hc : ∀ content ∈ cells, WalksInMath (tokensOfList content)) :
      WalksInMath (rowTokens cells) := by
    cases cells with
    | nil => exact walksInMath_nil
    | cons content cells =>
        refine (hc content List.mem_cons_self).append (WalksInMath.flatMap fun c hmem => ?_)
        exact (walksInMath_mark (.inr (.inr rfl))).append (hc c (List.mem_cons_of_mem _ hmem))
  have hseparator : WalksInMath [.control "\\"] :=
    walksInMath_command Vocabulary.find?_newRow nofun
  cases rows with
  | nil => exact walksInMath_nil
  | cons cells rows =>
      refine (hrow (h cells List.mem_cons_self)).append (WalksInMath.flatMap fun cells hmem => ?_)
      exact hseparator.append (hrow (h cells (List.mem_cons_of_mem _ hmem)))

theorem walksInMath_of_legible {flawless : Prop} {mode : ReadingMode} {k : List Token} {a : Atom}
    (h : Legible True flawless mode k a) (hm : mode = .math) : WalksInMath (tokensOf a) := by
  induction h with
  | char hs hc hprime hb =>
      rw [tokensOf_of_bare_eq hb, tokensOf_newMathChar hc hprime]
      exact walksInMath_char (hs trivial)
  | textChar hc hb => cases hm
  | symbol hf ha hb =>
      rw [tokensOf_of_bare_eq hb,
        tokensOf_command (Vocabulary.isSpelled_of_symbol hf ha).1 (Vocabulary.isProperName_of_find? hf)]
      exact walksInMath_command hf (by simp [ha])
  | function hf ha hb | space hf ha hb =>
      rw [tokensOf_of_bare_eq hb, tokensOf_command rfl (Vocabulary.isProperName_of_find? hf)]
      exact walksInMath_command hf (by simp [ha])
  | unknown hs hfind hn hname hk hb =>
      rw [tokensOf_of_bare_eq hb, tokensOf_command rfl hn]
      exact walksInMath_control hn (by simp [hfind trivial])
  | placeholder hb =>
      rw [tokensOf_of_bare_eq hb, tokensOf_placeholder]
      exact (walksInMath_command Vocabulary.find?_placeholder nofun).append walksInMath_nil.braced
  | group hc hb ih =>
      rw [tokensOf_of_bare_eq hb, tokensOf_group]
      exact (walksInMath_tokensOfList (forall_mem_of_append fun before a after heq =>
        ih before a after heq hm)).braced
  | @withArguments k a name m contents index hs hi hc hx hb ihc ihx =>
      have hmode : m.action.argumentMode = .math := if_neg (hs trivial)
      have hcontent (content : List Atom) (hmem : content ∈ contents) :
          WalksInMath (bracedTokens content) := by
        obtain ⟨before, after, heq⟩ := List.append_of_mem hmem
        exact (walksInMath_tokensOfList (forall_mem_of_append fun before' a after' heq' =>
          ihc before content after heq before' a after' heq' hmode)).braced
      have hindex (atoms : List Atom) (hatoms : index = some atoms) :
          WalksInMath (tokensOfList atoms) :=
        walksInMath_tokensOfList (forall_mem_of_append fun before a after heq =>
          ihx atoms hatoms before a after heq rfl)
      rw [tokensOf_of_bare_eq hb, tokensOf_newWithArguments hi]
      exact ((walksInMath_command hi.find (hs trivial)).append (walksInMath_indexTokens hindex)).append
        (WalksInMath.flatMap hcontent)
  | @array k a name rows hn hg hc hb ih =>
      have hgrid : WalksInMath (gridTokens rows) :=
        walksInMath_gridTokens (forall_mem_of_append fun above cells below hrows =>
          forall_mem_of_append fun before content after heq =>
            walksInMath_tokensOfList (forall_mem_of_append fun before' a after' heq' =>
              ih above cells below hrows before content after heq before' a after' heq' rfl))
      rw [tokensOf_of_bare_eq hb, tokensOf_newArray hg hn]
      exact ((walksInMath_environmentTokens Vocabulary.find?_begin nofun hn).append hgrid).append
        (walksInMath_environmentTokens Vocabulary.find?_end nofun hn)
  | @script mode k a b slot atoms ha hs hk hnone hsup hne hc hb ih ihc =>
      have hatoms : WalksInMath (bracedTokens atoms) :=
        (walksInMath_tokensOfList (forall_mem_of_append fun before a after heq =>
          ihc before a after heq hm)).braced
      have hmark : WalksInMath [scriptToken slot] := by
        refine walksInMath_mark ?_
        unfold scriptToken
        split
        · exact .inr (.inl rfl)
        · exact .inl rfl
      rw [tokensOf_of_bare_eq hb, tokensOf_putBranch hs hnone hsup]
      exact (ih hm).append (hmark.append hatoms)

/-- A formula without text is written so that reading it gives an alike formula, without a problem if
no command in it lacks a meaning. -/
theorem parseFormula_write {flawless : Prop} {atoms : List Atom}
    (h : ∀ a ∈ atoms, Legible True flawless .math [] a) (supply : Nat) :
    (flawless → (parseFormula (write atoms) supply).1.diagnostics = []) ∧
      (parseFormula (write atoms) supply).1.atoms.map Atom.bare = atoms.map Atom.bare := by
  have hspelled := allSpelled_listPieces fun a ha => (h a ha).allSpelled
  obtain ⟨blank, hwalk⟩ := walksInMath_tokensOfList (fun a ha => walksInMath_of_legible (h a ha) rfl)
    0 true
  obtain ⟨htokens, hdiagnostics⟩ := tokenize_spell hwalk rfl (write_eq_spell hspelled)
  obtain ⟨hbare, hquiet⟩ := parse_back (InPlace.of_forall h _) htokens supply
  refine ⟨fun hf => ?_, hbare⟩
  have hparse : (parseFormula (write atoms) supply).1.diagnostics =
      (tokenize (write atoms)).diagnostics ++
        (parse (tokenize (write atoms)).tokens .math [] supply).1.diagnostics := rfl
  rw [hparse, hdiagnostics, hquiet hf, List.append_nil]

/-! ## Sources without text -/

/-- Whether a token neither starts text nor is one of the characters that are written in another
way. -/
def Token.isTextless : Token → Bool
  | char c => c != '#' && c != '$'
  | control name => (Vocabulary.find? name).map Meaning.action != some .text
  | groupBegin | groupEnd | superscript | subscript | alignment | endOfInput | argument _ => true

/-- Whether a token, if it is a character, is one that can be read outside of text. -/
def Token.HasMathChar (t : Token) : Prop :=
  ∀ c, t = .char c → isMathChar c = true

theorem hasMathChar_plainToken {c : Char} (hb : ¬Text.isBlank c = true) (hn : ¬c.toNat = 0)
    (h₁ : ¬c = '%') (h₂ : ¬c = '{') (h₃ : ¬c = '}') (h₄ : ¬c = '\\') (h₅ : ¬c = '#') :
    (plainToken .math c).HasMathChar := by
  intro d hd
  have hmarks : c = d ∧ c ≠ '^' ∧ c ≠ '_' ∧ c ≠ '&' := by
    unfold plainToken at hd
    rw [if_neg (by decide)] at hd
    split at hd
    · cases hd
    · split at hd
      · cases hd
      · split at hd
        · cases hd
        · cases hd
          exact ⟨rfl, ‹_›, ‹_›, ‹_›⟩
  obtain ⟨rfl, h₆, h₇, h₈⟩ := hmarks
  simp [isMathChar, Place.keepsChar, Place.start, Mode.inText, hb, hn, h₁, h₂, h₃, h₄, h₅, h₆, h₇, h₈]

/-- A source whose tokens do not start text is read outside of text throughout. -/
theorem hasMathChar_of_read (text : List Char) (offset : Nat) (opened : List Nat)
    (h : ∀ t ∈ (Lexer.read text offset .math opened).tokens, t.token.isTextless = true) :
    ∀ t ∈ (Lexer.read text offset .math opened).tokens, t.token.HasMathChar := by
  have hcons {u : Token} {span : Span} {s : Tokens}
      (h : ∀ t ∈ (s.cons u span).tokens, t.token.isTextless = true)
      (hu : u.isTextless = true → u.HasMathChar)
      (ih : (∀ t ∈ s.tokens, t.token.isTextless = true) → ∀ t ∈ s.tokens, t.token.HasMathChar) :
      ∀ t ∈ (s.cons u span).tokens, t.token.HasMathChar := by
    obtain ⟨hfirst, hrest⟩ := List.forall_mem_cons.1 h
    exact List.forall_mem_cons.2 ⟨hu hfirst, ih hrest⟩
  generalize hmode : Lexer.Mode.math = mode at h ⊢
  fun_induction Lexer.read text offset mode opened <;> subst hmode
  case case1 offset opened =>
      intro t ht c hc
      rcases List.mem_append.1 ht with ht | ht
      · obtain ⟨start, -, rfl⟩ := List.mem_map.1 ht
        cases hc
      · rw [List.mem_singleton.1 ht] at hc
        cases hc
  case case2 htext ih => cases htext
  case case3 ih => exact ih rfl h
  case case4 ih => exact ih rfl h
  case case5 ih => exact ih rfl h
  case case6 ih => exact hcons h (fun _ => nofun) (ih rfl)
  case case7 ih => exact ih rfl h
  case case8 ih => exact hcons h (fun _ => nofun) (ih rfl)
  case case9 ih =>
      have hfirst := (List.forall_mem_cons.1 h).1
      exact hcons h (fun _ => nofun) (ih (afterCommand_math (bne_iff_ne.1 hfirst)).symm)
  case case10 ih => exact hcons h (fun _ => nofun) (ih rfl)
  case case11 ih => exact hcons h (fun hu => absurd hu (by decide)) (ih rfl)
  case case12 ih => exact hcons h (fun hu => absurd hu (by decide)) (ih rfl)
  case case13 ih =>
      exact hcons h (fun _ => hasMathChar_plainToken ‹_› ‹_› ‹_› ‹_› ‹_› ‹_› ‹_›) (ih rfl)

theorem isMathSource_textless :
    IsMathSource fun t => t.isTextless = true ∧ t.HasMathChar where
  isMathChar c h := h.2 c rfl
  isLiteral c h := by
    have hmath := h.2 c rfl
    have hdollar := h.1
    simp [isMathChar, Place.keepsChar, Place.start, Mode.inText] at hmath
    simp [Token.isTextless] at hdollar
    simp [isLiteral, Writer.special, hmath, hdollar]
  not_text name m h hf ha := by
    have htext := h.1
    simp [Token.isTextless, hf, ha] at htext

/-- Reading, writing and reading again gives an alike formula and no problem, provided that there was
no problem at first, that no text was started, and that no number or dollar sign stood for itself.
-/
theorem alikeList_parseFormula_write (source : String) (supply supply' : Nat)
    (hq : (parseFormula source supply).1.diagnostics = [])
    (ht : ∀ t ∈ (tokenize source).tokens, t.token.isTextless = true) :
    (parseFormula (write (parseFormula source supply).1.atoms) supply').1.diagnostics = [] ∧
      Atom.alikeList (parseFormula (write (parseFormula source supply).1.atoms) supply').1.atoms
        (parseFormula source supply).1.atoms = true := by
  have hparsed : (parse (tokenize source).tokens .math [] supply).1.diagnostics = [] :=
    (List.append_eq_nil_iff.1 hq).2
  have hchars := hasMathChar_of_read source.toList 0 [] ht
  have hlegible := forall_parse (readingClosed_legible isMathSource_textless)
    (fun t hmem => ⟨ht t hmem, hchars t hmem⟩) .math supply fun _ => hparsed
  obtain ⟨hdiagnostics, hbare⟩ := parseFormula_write (fun a ha => hlegible a ha rfl) supply'
  refine ⟨hdiagnostics trivial, (Atom.alikeList_iff _ _).2 ?_⟩
  rw [Atom.mapLabelsOfList_eq_map, Atom.mapLabelsOfList_eq_map]
  exact hbare

theorem alikeList_parseFormula_write_root :
    (parseFormula "\\sqrt[3]\x7bx\x7d_2'" 0).1.diagnostics = [] ∧
      Atom.alikeList
        (parseFormula (write (parseFormula "\\sqrt[3]\x7bx\x7d_2'" 0).1.atoms) 9).1.atoms
        (parseFormula "\\sqrt[3]\x7bx\x7d_2'" 0).1.atoms = true :=
  have hq : (parseFormula "\\sqrt[3]\x7bx\x7d_2'" 0).1.diagnostics = [] := by decide +kernel
  have ht : ∀ t ∈ (tokenize "\\sqrt[3]\x7bx\x7d_2'").tokens, t.token.isTextless = true := by
    decide +kernel
  ⟨hq, (alikeList_parseFormula_write "\\sqrt[3]\x7bx\x7d_2'" 0 9 hq ht).2⟩

end FormulaEditor.Latex

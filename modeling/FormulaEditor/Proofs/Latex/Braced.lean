import FormulaEditor.Proofs.Latex.Balance
import FormulaEditor.Proofs.Latex.Fragments
import FormulaEditor.Proofs.Latex.Identities

/-!
# Fragments that wrap their argument

A reference to the argument in braces, alone or behind a command with one argument, is read as one
atom that holds the argument as it is. The main statement is `Wraps.exists_wrapper`.
-/

namespace FormulaEditor.Latex

/-- The kind of atom that a command makes around its only argument, and the slot where it keeps it. -/
def Action.wrapper? : Action → Option (Kind × Slot)
  | radical => some (.radical, .radicand)
  | accent _ => some (.accent, .body)
  | font => some (.font, .body)
  | text => some (.text, .body)
  | _ => none

/-- A reference to the argument in braces. -/
def bracedArgument : String :=
  "\x7b#0\x7d"

/-- The fragments that wrap their argument, with the kind of atom that each makes and the slot where
that keeps the argument. -/
inductive Wraps : String → Kind → Slot → Prop where
  | group : Wraps bracedArgument .group .body
  | command {name : String} {m : Meaning} {kind : Kind} {slot : Slot} :
      Vocabulary.find? name = some m → m.action.wrapper? = some (kind, slot) →
      Wraps (Vocabulary.command name ++ bracedArgument) kind slot

/-- An atom of a kind that holds atoms in one slot and nothing else. -/
structure IsWrapper (kind : Kind) (slot : Slot) (content : List Atom) (w : Atom) : Prop where
  kind_eq : w.kind = kind
  branch_eq : w.branch slot = some content
  branch_eq_none {other : Slot} : other ≠ slot → w.branch other = none

variable {name source : String} {m : Meaning} {kind : Kind} {slot : Slot} {argument : List Atom}

theorem Action.takesArguments_of_wrapper? {action : Action} (h : action.wrapper? = some (kind, slot)) :
    action.takesArguments = true ∧ action ≠ .fraction := by
  cases action <;> first | exact ⟨rfl, Action.noConfusion⟩ | cases h

/-! ## Tokens -/

/-- The tokens of a reference to the argument in braces. -/
def bracedArgumentTokens : List Token :=
  [.groupBegin, .argument (.index 0), .groupEnd, .endOfInput]

namespace Lexer

theorem kinds_read_bracedArgument (offset : Nat) (mode : Mode) :
    (read bracedArgument.toList offset mode []).kinds = bracedArgumentTokens := by
  have hsource : bracedArgument.toList = ['{', '#', '0', '}'] := by decide
  have href : argumentRef? '0' = some (.index 0) := by decide
  rw [hsource, read_groupBegin, read_argument href, read_groupEnd, read_nil]
  rfl

/-- The name of a command ends before a brace. -/
theorem readName_append_brace {name : List Char} (hn : name ≠ [])
    (hl : ∀ c ∈ name, Text.isLetter c = true) (rest : List Char) :
    readName (name ++ '{' :: rest) = (name, '{' :: rest) := by
  have htake : (name ++ '{' :: rest).takeWhile Text.isLetter = name := by
    rw [List.takeWhile_append_of_pos hl]
    exact List.append_nil name
  have hdrop : (name ++ '{' :: rest).dropWhile Text.isLetter = '{' :: rest := by
    rw [List.dropWhile_append_of_pos hl]
    rfl
  unfold readName
  rw [htake, hdrop]
  cases name with
  | nil => exact absurd rfl hn
  | cons c letters => rfl

end Lexer

theorem kinds_tokenize_bracedArgument : (tokenize bracedArgument).kinds = bracedArgumentTokens :=
  Lexer.kinds_read_bracedArgument 0 .math

theorem kinds_tokenize_command (hf : Vocabulary.find? name = some m)
    (ht : m.action.takesArguments = true) :
    (tokenize (Vocabulary.command name ++ bracedArgument)).kinds =
      .control name :: bracedArgumentTokens := by
  have hletters := isLetter_of_takesArguments hf (.inl ht)
  have hne : name.toList ≠ [] := by
    have hproper := Vocabulary.isProperName_of_find? hf
    simp only [isProperName, Bool.and_eq_true, Bool.not_eq_true', List.isEmpty_eq_false_iff] at hproper
    exact hproper.1
  have hsource : (Vocabulary.command name ++ bracedArgument).toList =
      '\\' :: (name.toList ++ bracedArgument.toList) := by
    rw [String.toList_append, Writer.toList_command]
    rfl
  have hbrace : bracedArgument.toList = '{' :: ['#', '0', '}'] := by decide
  have hname := Lexer.readName_append_brace hne hletters ['#', '0', '}']
  rw [← hbrace] at hname
  have hskip : (Lexer.skipBlank bracedArgument.toList).2 = bracedArgument.toList := by decide
  rw [tokenize, hsource, Lexer.read_control, hname, String.ofList_toList]
  simp only [hskip]
  exact congrArg (List.cons _) (Lexer.kinds_read_bracedArgument _ _)

/-! ## Atoms -/

namespace Reader

variable (mode : ReadingMode) {s : Reader} {ts : List Token}

theorem readItem_argument (args : List (List Atom)) (done : List Atom) {ref : ArgumentRef}
    (h : s.ahead = .argument ref :: ts) :
    readItem args mode done s =
      ((substitute args ref s.skip).1.reverse ++ done, (substitute args ref s.skip).2) := by
  obtain ⟨rest, used, problems, supply⟩ := s
  obtain ⟨u, rest, rfl, hu, -⟩ := List.map_eq_cons_iff.1 h
  rw [readItem.eq_def]
  simp only [hu]
  rfl

/-- A group of a reference that was not used before is read as the argument. -/
theorem readGroup_argument (hne : argument ≠ []) (hu : s.used = [])
    (h : s.ahead = .argument (.index 0) :: .groupEnd :: ts) :
    ∃ s', readGroup [argument] mode s = (argument, s') ∧ s'.ahead = ts := by
  have hsubstitute : substitute [argument] (.index 0) s.skip =
      (argument, { s.skip with used := [0] }) := by
    have hused : s.skip.used = [] := hu
    rw [substitute_index]
    simp [hne, hused]
  have hitem := readItem_argument mode [argument] [] h
  rw [hsubstitute, List.append_nil] at hitem
  have hrest : ({ s.skip with used := [0] } : Reader).ahead = .groupEnd :: ts := ahead_skip h
  have hitems : readItems [argument] .group mode [] s = (argument, { s.skip with used := [0] }) := by
    rw [readItems_step h rfl hitem (Nat.le_of_eq (congrArg List.length hrest)),
      readItems_stop hrest rfl, List.reverse_reverse]
  exact ⟨skip { s.skip with used := [0] }, readGroup_eq hitems hrest, ahead_skip hrest⟩

theorem readArgument_argument (hne : argument ≠ []) (hu : s.used = [])
    (h : s.ahead = .groupBegin :: .argument (.index 0) :: .groupEnd :: ts) :
    ∃ s', readArgument [argument] mode s = (some argument, s') ∧ s'.ahead = ts := by
  obtain ⟨s', hgroup, hrest⟩ := readGroup_argument mode (s := s.skip) hne hu (ahead_skip h)
  exact ⟨s', readArgument_groupBegin h hgroup, hrest⟩

/-- A reference in braces is read as a group that holds the argument. -/
theorem readItems_bracedArgument (hne : argument ≠ []) (hu : s.used = [])
    (h : s.ahead = bracedArgumentTokens) :
    ∃ n, (readItems [argument] .endOfInput mode [] s).1 =
      [(Atom.newWrapper .group none argument n).1] := by
  obtain ⟨s', hgroup, hrest⟩ := readGroup_argument mode (s := s.skip) hne hu (ahead_skip h)
  have hitem : readItem [argument] mode [] s = _ := readItem_groupBegin h
  rw [hgroup] at hitem
  refine ⟨s'.supply, ?_⟩
  have hrest' : (push [] (Atom.newWrapper .group none argument) s').2.ahead = [.endOfInput] := hrest
  rw [readItems_step h rfl hitem (by rw [hrest']; decide), readItems_stop hrest' rfl]
  rfl

theorem readArguments_bracedArgument (hne : argument ≠ []) (hu : s.used = [])
    (h : s.ahead = bracedArgumentTokens) :
    ∃ s', readArguments [argument] mode 1 s = (.ok [argument], s') ∧ s'.ahead = [.endOfInput] := by
  obtain ⟨s', hread, hrest⟩ := readArgument_argument mode hne hu h
  refine ⟨s', readArguments_succ hread ?_ (readArguments.eq_def ..), hrest⟩
  rw [hrest, h]
  decide

/-- Behind a command with one argument, it is read as the atom of the command. -/
theorem readItems_commandOfArgument (hne : argument ≠ []) (hu : s.used = [])
    (hf : Vocabulary.find? name = some m) (hw : m.action.wrapper? = some (kind, slot))
    (h : s.ahead = .control name :: bracedArgumentTokens) :
    ∃ n, (readItems [argument] .endOfInput .math [] s).1 =
      [(newWithArguments m.action (Vocabulary.command name) [argument] none n).1] := by
  obtain ⟨ht, hfraction⟩ := Action.takesArguments_of_wrapper? hw
  have harity : m.arity = 1 := by
    rw [Vocabulary.arity_of_takesArguments hf ht, if_neg hfraction]
  have hnext : s.skip.ahead = bracedArgumentTokens := ahead_skip h
  -- A radical looks for an index first, and a brace starts none.
  have hindex : (if m.action = .radical then readIndex [argument] s.skip else (none, s.skip)) =
      (none, s.skip) := by
    rw [readIndex_groupBegin hnext, ite_self]
  obtain ⟨s', hread, hrest⟩ :=
    readArguments_bracedArgument m.action.argumentMode hne (s := s.skip) hu hnext
  rw [← harity] at hread
  have hstop : Stop.endOfInput.endsAt (.control name) = false := rfl
  obtain ⟨span, hitems⟩ := readItems_control [argument] .math [] h hstop
  have hrest' : ((push [] (newWithArguments m.action (Vocabulary.command name) [argument] none)
      s').2.capped bracedArgumentTokens.length).ahead = [.endOfInput] := by
    rw [capped_of_le]
    · exact hrest
    · have hlength := congrArg List.length hrest
      rw [length_ahead] at hlength
      exact Nat.le_trans (Nat.le_of_eq hlength) (by decide)
  refine ⟨s'.supply, ?_⟩
  rw [hitems, readCommand_withArguments hf ht hindex (Nat.le_refl _) hread, readItems_stop hrest' rfl]
  rfl

end Reader

/-! ## Wrappers -/

namespace IsWrapper

theorem newWrapper (kind : Kind) (hk : kind.shape = .sequence) (value : Option String)
    (hne : argument ≠ []) (n : Nat) :
    IsWrapper kind .body argument (Atom.newWrapper kind value argument n).1 := by
  rw [Atom.newWrapper_of_ne_nil hk value (fun _ => hne)]
  refine ⟨rfl, rfl, fun {other} hother => ?_⟩
  cases other <;> first | rfl | exact absurd rfl hother

theorem newRadical (hne : argument ≠ []) (n : Nat) :
    IsWrapper .radical .radicand argument (Atom.newRadical argument none n).1 := by
  rw [Atom.newRadical_of_ne_nil hne]
  refine ⟨rfl, rfl, fun {other} hother => ?_⟩
  cases other <;> first | rfl | exact absurd rfl hother

theorem newWithArguments {action : Action} (hw : action.wrapper? = some (kind, slot))
    (hne : argument ≠ []) (command : String) (n : Nat) :
    IsWrapper kind slot argument (Reader.newWithArguments action command [argument] none n).1 := by
  cases action <;> cases hw
  case radical => exact newRadical hne n
  case accent glyph =>
    have hwrapper := newWrapper .accent rfl (some command) hne n
    exact ⟨hwrapper.kind_eq, hwrapper.branch_eq, hwrapper.branch_eq_none⟩
  case font => exact newWrapper .font rfl (some command) hne n
  case text => exact newWrapper .text rfl (some command) hne n

end IsWrapper

/-- A fragment that wraps its argument is read as one atom that holds the argument as it is. -/
theorem Wraps.exists_wrapper (hw : Wraps source kind slot) (hne : argument ≠ []) (n : Nat) :
    ∃ w, (parseFragment source .math [argument] n).1.atoms = [w] ∧
      IsWrapper kind slot argument w := by
  cases hw with
  | group =>
      obtain ⟨n', hread⟩ := Reader.readItems_bracedArgument .math
        (s := Reader.start (tokenize bracedArgument).tokens n) hne rfl kinds_tokenize_bracedArgument
      exact ⟨_, hread, .newWrapper .group rfl none hne n'⟩
  | command hf haction =>
      obtain ⟨n', hread⟩ := Reader.readItems_commandOfArgument
        (s := Reader.start (tokenize (Vocabulary.command _ ++ bracedArgument)).tokens n) hne rfl hf
        haction (kinds_tokenize_command hf (Action.takesArguments_of_wrapper? haction).1)
      exact ⟨_, hread, .newWithArguments haction hne _ n'⟩

end FormulaEditor.Latex

import FormulaEditor.Proofs.Latex.Identities
import FormulaEditor.Proofs.Latex.Progress

/-!
# Reading does not look at spans

Spans are carried along to where problems are reported, and nothing depends on them: a token stream
whose spans are changed is read as the same atoms, and the same problems are reported at the changed
spans. So two token streams of the same tokens stand for the same atoms, wherever they were read.
-/

namespace FormulaEditor.Latex

/-- The token at a changed span. -/
def SpannedToken.respan (f : Span → Span) (t : SpannedToken) : SpannedToken :=
  ⟨t.token, f t.span⟩

@[simp] theorem SpannedToken.token_respan (f : Span → Span) (t : SpannedToken) :
    (t.respan f).token = t.token := rfl

@[simp] theorem SpannedToken.span_respan (f : Span → Span) (t : SpannedToken) :
    (t.respan f).span = f t.span := rfl

/-- The diagnostic at a changed span. -/
def Diagnostic.respan (f : Span → Span) (d : Diagnostic) : Diagnostic :=
  ⟨f d.span, d.problem⟩

namespace Reader

/-- The state with all spans changed. -/
def respan (f : Span → Span) (s : Reader) : Reader :=
  ⟨s.rest.map (SpannedToken.respan f), s.used, s.problems.map (Diagnostic.respan f), s.supply⟩

/-- A result with all spans changed in the state that it leaves. -/
def respanned {α : Type} (f : Span → Span) (r : α × Reader) : α × Reader :=
  (r.1, r.2.respan f)

variable {f : Span → Span} {args : List (List Atom)}

theorem rest_respan_nil {s : Reader} (h : s.rest = []) : (s.respan f).rest = [] := by
  rw [respan, h, List.map_nil]

theorem rest_respan_cons {s : Reader} {t : SpannedToken} {rest : List SpannedToken}
    (h : s.rest = t :: rest) :
    (s.respan f).rest = t.respan f :: rest.map (SpannedToken.respan f) := by
  rw [respan, h, List.map_cons]

/-- A state with a token left, with all spans changed. -/
theorem respan_cons (token : Token) (span : Span) (rest : List SpannedToken) (used : List Nat)
    (problems : List Diagnostic) (n : Nat) :
    respan f ⟨⟨token, span⟩ :: rest, used, problems, n⟩ =
      ⟨⟨token, f span⟩ :: rest.map (SpannedToken.respan f), used,
        problems.map (Diagnostic.respan f), n⟩ :=
  rfl

/-- What is left after a token is the same with spans changed before or afterwards. -/
theorem withRest_respan_cons (token : Token) (span : Span) (rest : List SpannedToken)
    (used : List Nat) (problems : List Diagnostic) (n : Nat) :
    withRest ⟨⟨token, f span⟩ :: rest.map (SpannedToken.respan f), used,
        problems.map (Diagnostic.respan f), n⟩ (rest.map (SpannedToken.respan f)) =
      (withRest ⟨⟨token, span⟩ :: rest, used, problems, n⟩ rest).respan f :=
  rfl

theorem length_rest_respan (s : Reader) : (s.respan f).rest.length = s.rest.length :=
  List.length_map _

theorem peek_respan (s : Reader) : (s.respan f).peek = s.peek := by
  obtain ⟨rest, used, problems, n⟩ := s
  cases rest <;> rfl

theorem skip_respan (s : Reader) : (s.respan f).skip = s.skip.respan f := by
  obtain ⟨rest, used, problems, n⟩ := s
  cases rest <;> rfl

theorem capped_respan (s : Reader) (n : Nat) : (s.respan f).capped n = (s.capped n).respan f := by
  simp only [capped, withRest, respan, List.length_map, List.map_drop]

theorem attachScript_respan (slot : Slot) (content done : List Atom) (span : Span) (s : Reader) :
    attachScript slot content done (f span) (s.respan f) =
      respanned f (attachScript slot content done span s) := by
  unfold attachScript
  cases done with
  | nil => rfl
  | cons last before =>
      simp only
      split
      · split <;> rfl
      · rfl

theorem attachPrime_respan (done : List Atom) (span : Span) (s : Reader) :
    attachPrime done (f span) (s.respan f) = respanned f (attachPrime done span s) := by
  have hattach := attachScript_respan (f := f) .superscript [(s.mint newPrime).1] done span
    (s.mint newPrime).2
  unfold attachPrime
  cases done with
  | nil => exact hattach
  | cons last before =>
      simp only
      split
      · split
        · rfl
        · exact hattach
      · exact hattach

theorem substitute_respan (ref : ArgumentRef) (s : Reader) :
    substitute args ref (s.respan f) = respanned f (substitute args ref s) := by
  have hindex (i : Nat) :
      substitute args (.index i) (s.respan f) = respanned f (substitute args (.index i) s) := by
    have hused : (s.respan f).used = s.used := rfl
    rw [substitute_index, substitute_index, hused]
    split
    · rfl
    · split <;> rfl
  cases ref with
  | index i => exact hindex i
  | implicit => exact hindex 0
  | placeholder => rfl

theorem nameChars_respan (tokens : List SpannedToken) :
    nameChars (tokens.map (SpannedToken.respan f)) =
      ((nameChars tokens).1, (nameChars tokens).2.map (SpannedToken.respan f)) := by
  induction tokens with
  | nil => rfl
  | cons t rest ih =>
      rw [List.map_cons, nameChars, nameChars, SpannedToken.token_respan, ih]
      cases t.token <;> rfl

theorem environmentName_respan (s : Reader) :
    environmentName (s.respan f) = respanned f (environmentName s) := by
  have htail : (s.respan f).rest.tail = s.rest.tail.map (SpannedToken.respan f) :=
    List.map_tail.symm
  unfold environmentName
  rw [peek_respan]
  split
  · rw [htail, nameChars_respan]
    rfl
  · rfl

mutual

theorem readItems_respan (stop : Stop) (mode : ReadingMode) (done : List Atom) (s : Reader) :
    readItems args stop mode done (s.respan f) = respanned f (readItems args stop mode done s) := by
  cases hs : s.rest with
  | nil =>
      rw [readItems_nil stop mode done hs, readItems_nil stop mode done (rest_respan_nil hs)]
      rfl
  | cons t rest =>
      have hitem := readItem_respan mode done s
      have hle := length_readItem_le args mode done hs
      have hlength : s.rest.length = rest.length + 1 := congrArg List.length hs
      rw [readItems_cons stop mode done hs, readItems_cons stop mode done (rest_respan_cons hs),
        SpannedToken.token_respan]
      split
      · rfl
      · rw [hitem]
        exact readItems_respan stop mode _ _
termination_by 4 * s.rest.length + 1
decreasing_by
  all_goals omega

theorem readItem_respan (mode : ReadingMode) (done : List Atom) : (s : Reader) →
    readItem args mode done (s.respan f) = respanned f (readItem args mode done s)
  | ⟨[], used, problems, n⟩ => by
      rw [readItem.eq_def, readItem.eq_def]
      rfl
  | ⟨⟨token, span⟩ :: rest, used, problems, n⟩ => by
      rw [respan_cons, readItem.eq_def, readItem.eq_def]
      simp only [withRest_respan_cons]
      cases token with
      | superscript => exact readScript_respan .superscript mode done span _
      | subscript => exact readScript_respan .subscript mode done span _
      | char c =>
          cases mode with
          | math =>
              simp only
              split
              · exact attachPrime_respan done span _
              · rfl
          | text => rfl
      | groupBegin =>
          simp only
          rw [readGroup_respan mode _]
          rfl
      | control name => exact readCommand_respan name span mode done _
      | argument ref =>
          simp only
          rw [substitute_respan]
          rfl
      | _ => rfl
termination_by s => 4 * s.rest.length
decreasing_by
  all_goals
    simp only [withRest, List.length_cons] at *
    omega

theorem readGroup_respan (mode : ReadingMode) (s : Reader) :
    readGroup args mode (s.respan f) = respanned f (readGroup args mode s) := by
  rw [readGroup.eq_def, readGroup.eq_def, readItems_respan .group mode [] s]
  simp only [respanned, peek_respan, skip_respan]
  cases (readItems args .group mode [] s).2.peek <;> rfl
termination_by 4 * s.rest.length + 2

theorem readArgument_respan (mode : ReadingMode) : (s : Reader) →
    readArgument args mode (s.respan f) = respanned f (readArgument args mode s)
  | ⟨[], used, problems, n⟩ => by
      rw [readArgument.eq_def, readArgument.eq_def]
      rfl
  | ⟨⟨token, span⟩ :: rest, used, problems, n⟩ => by
      have hitem := readItem_respan mode [] ⟨⟨token, span⟩ :: rest, used, problems, n⟩
      rw [respan_cons] at hitem ⊢
      rw [readArgument.eq_def, readArgument.eq_def]
      simp only [withRest_respan_cons]
      by_cases hbegin : token = .groupBegin
      · rw [if_pos hbegin, if_pos hbegin, readGroup_respan mode _]
        rfl
      · rw [if_neg hbegin, if_neg hbegin]
        split
        · rfl
        · rw [hitem]
          rfl
termination_by s => 4 * s.rest.length + 1
decreasing_by
  all_goals
    simp only [withRest, List.length_cons] at *
    omega

theorem readScript_respan (slot : Slot) (mode : ReadingMode) (done : List Atom) (span : Span)
    (s : Reader) :
    readScript args slot mode done (f span) (s.respan f) =
      respanned f (readScript args slot mode done span s) := by
  rw [readScript.eq_def, readScript.eq_def, readArgument_respan mode s]
  simp only [respanned]
  split
  · exact attachScript_respan slot _ done span _
  · exact attachScript_respan slot _ done span
      (((readArgument args mode s).2.report span .missingArgument).mint (Atom.filled [])).2
termination_by 4 * s.rest.length + 2

theorem readArguments_respan (mode : ReadingMode) (count : Nat) (s : Reader) :
    readArguments args mode count (s.respan f) =
      respanned f (readArguments args mode count s) := by
  cases count with
  | zero =>
      rw [readArguments.eq_def, readArguments.eq_def]
      rfl
  | succ count =>
      rw [readArguments_succ_eq, readArguments_succ_eq, readArgument_respan mode s]
      simp only [respanned]
      cases hfirst : (readArgument args mode s).1 with
      | none => rfl
      | some content =>
          have hlt := length_readArgument_lt mode (by rw [hfirst]; rfl)
          simp only
          rw [readArguments_respan mode count _]
          simp only [respanned]
          cases (readArguments args mode count (readArgument args mode s).2).1 <;> rfl
termination_by 4 * s.rest.length + 2
decreasing_by
  all_goals omega

theorem readIndex_respan : (s : Reader) →
    readIndex args (s.respan f) = respanned f (readIndex args s)
  | ⟨[], used, problems, n⟩ => by
      rw [readIndex.eq_def, readIndex.eq_def]
      rfl
  | ⟨⟨token, span⟩ :: rest, used, problems, n⟩ => by
      have hitems := readItems_respan .bracket .math []
        (withRest ⟨⟨token, span⟩ :: rest, used, problems, n⟩ rest)
      rw [respan_cons, readIndex.eq_def, readIndex.eq_def]
      simp only [withRest_respan_cons]
      by_cases hbracket : token = .char '['
      · simp only [if_pos hbracket, hitems, respanned, peek_respan, skip_respan]
        split <;> rfl
      · rw [if_neg hbracket, if_neg hbracket]
        rfl
termination_by s => 4 * s.rest.length + 2
decreasing_by
  all_goals
    simp only [withRest, List.length_cons] at *
    omega

theorem readRows_respan (name : String) (span : Span) (cells : List (List Atom))
    (rows : List (List (List Atom))) (s : Reader) :
    readRows args name (f span) cells rows (s.respan f) =
      respanned f (readRows args name span cells rows s) := by
  have hle := length_capped (readItems args .cell .math [] s).2 s.rest.length
  have hcapped : (respanned f (readItems args .cell .math [] s)).2.capped (s.respan f).rest.length =
      ((readItems args .cell .math [] s).2.capped s.rest.length).respan f := by
    rw [length_rest_respan]
    exact capped_respan _ _
  rw [readRows.eq_def, readRows.eq_def, readItems_respan .cell .math [] s]
  simp only
  generalize readItems args .cell .math [] s = content at hle hcapped ⊢
  generalize (respanned f content).2.capped (s.respan f).rest.length = after' at hcapped ⊢
  generalize content.2.capped s.rest.length = after at hle hcapped ⊢
  subst hcapped
  obtain ⟨rest, used, problems, n⟩ := after
  cases rest with
  | nil => rfl
  | cons t rest =>
      obtain ⟨token, stop⟩ := t
      rw [respan_cons]
      simp only [withRest_respan_cons]
      cases token with
      | alignment => exact readRows_respan name span _ rows _
      | control command =>
          simp only
          split
          · exact readRows_respan name span [] _ _
          · split
            · by_cases hfound : (environmentName
                (withRest ⟨⟨.control command, stop⟩ :: rest, used, problems, n⟩ rest)).1.getD "" = name
              · simp only [environmentName_respan, respanned, if_pos hfound]
              · simp only [environmentName_respan, respanned, if_neg hfound]
                rfl
            · rfl
      | _ => rfl
termination_by 4 * s.rest.length + 2
decreasing_by
  all_goals
    simp only [withRest, List.length_cons] at *
    omega

theorem readCommand_respan (name : String) (span : Span) (mode : ReadingMode) (done : List Atom)
    (s : Reader) :
    readCommand args name (f span) mode done (s.respan f) =
      respanned f (readCommand args name span mode done s) := by
  rw [readCommand.eq_def, readCommand.eq_def]
  simp only
  cases (Vocabulary.find? name).filter fun m => mode == .math || m.action.allowedInText with
  | none => rfl
  | some meaning =>
      cases haction : meaning.action with
      | symbol | function | space | newRow =>
          simp only [haction]
          rfl
      | placeholder =>
          simp only [haction, peek_respan, skip_respan]
          split <;> rfl
      | endEnvironment =>
          have hname := environmentName_respan (f := f) (s.report span .unmatchedClose)
          simp only [haction]
          exact congrArg (fun r => (done, r.2)) hname
      | beginEnvironment =>
          simp only [haction, environmentName_respan, respanned, length_rest_respan]
          cases (environmentName s).1 with
          | none => rfl
          | some environment =>
              by_cases hknown : Vocabulary.isArrayEnvironment environment = true
              · have hle := length_capped (environmentName s).2 s.rest.length
                simp only [if_pos hknown, capped_respan]
                rw [readRows_respan environment span [] [] _]
                rfl
              · have hreport : ((environmentName s).2.respan f).report (f span)
                    (.unknownEnvironment environment) =
                  ((environmentName s).2.report span (.unknownEnvironment environment)).respan f :=
                  rfl
                have hle := length_capped ((environmentName s).2.report span
                  (.unknownEnvironment environment)) s.rest.length
                simp only [if_neg hknown, hreport, capped_respan]
                rw [readRows_respan environment span [] [] _]
                rfl
      | radical =>
          have hle := length_capped (readIndex args s).2 s.rest.length
          simp only [haction, reduceCtorEq, if_true, if_false, readIndex_respan s, respanned,
            length_rest_respan, capped_respan]
          rw [readArguments_respan .math meaning.arity _]
          simp only [respanned]
          split <;> rfl
      | fraction | accent | font | text =>
          have hle := length_capped s s.rest.length
          simp only [haction, reduceCtorEq, if_true, if_false, length_rest_respan, capped_respan]
          rw [readArguments_respan _ meaning.arity _]
          simp only [respanned]
          split <;> rfl
termination_by 4 * s.rest.length + 3

end

end Reader

/-! ## Token streams of the same tokens -/

/-- Reading a token stream with other spans. -/
theorem parse_respan (f : Span → Span) (tokens : List SpannedToken) (mode : ReadingMode)
    (args : List (List Atom)) (supply : Nat) :
    parse (tokens.map (SpannedToken.respan f)) mode args supply =
      (⟨(parse tokens mode args supply).1.atoms,
        (parse tokens mode args supply).1.diagnostics.map (Diagnostic.respan f)⟩,
        (parse tokens mode args supply).2) := by
  have hread : Reader.readAll args mode (Reader.start (tokens.map (SpannedToken.respan f)) supply) =
      Reader.respanned f (Reader.readAll args mode (Reader.start tokens supply)) :=
    Reader.readItems_respan .endOfInput mode [] (Reader.start tokens supply)
  unfold parse
  rw [hread]
  simp only [Reader.respanned, Reader.respan, List.map_reverse]

theorem map_respan_eq {tokens tokens' : List SpannedToken}
    (h : tokens.map SpannedToken.token = tokens'.map SpannedToken.token) (span : Span) :
    tokens.map (SpannedToken.respan fun _ => span) =
      tokens'.map (SpannedToken.respan fun _ => span) := by
  have hmap (us : List SpannedToken) : us.map (SpannedToken.respan fun _ => span) =
      (us.map SpannedToken.token).map fun token => ⟨token, span⟩ := by
    rw [List.map_map]
    rfl
  rw [hmap, hmap, h]

/-- The same tokens stand for the same atoms, with the same problems, wherever they are. -/
theorem parse_eq_of_tokens {tokens tokens' : List SpannedToken}
    (h : tokens.map SpannedToken.token = tokens'.map SpannedToken.token) (mode : ReadingMode)
    (args : List (List Atom)) (supply : Nat) :
    (parse tokens mode args supply).1.atoms = (parse tokens' mode args supply).1.atoms ∧
      (parse tokens mode args supply).1.diagnostics.map Diagnostic.problem =
        (parse tokens' mode args supply).1.diagnostics.map Diagnostic.problem ∧
      (parse tokens mode args supply).2 = (parse tokens' mode args supply).2 := by
  have hproblems (ds : List Diagnostic) : (ds.map (Diagnostic.respan fun _ => Span.at 0)).map
      Diagnostic.problem = ds.map Diagnostic.problem := by
    rw [List.map_map]
    rfl
  have hread : parse (tokens.map (SpannedToken.respan fun _ => Span.at 0)) mode args supply = _ :=
    parse_respan (fun _ => Span.at 0) tokens mode args supply
  rw [map_respan_eq h (Span.at 0), parse_respan] at hread
  obtain ⟨hparsed, hsupply⟩ := Prod.mk.inj hread
  obtain ⟨hatoms, hdiagnostics⟩ := Parsed.mk.inj hparsed
  refine ⟨hatoms.symm, ?_, hsupply.symm⟩
  rw [← hproblems, ← hdiagnostics, hproblems]

end FormulaEditor.Latex

import FormulaEditor.Proofs.Latex.Reading

/-!
# Where problems are reported

The reader reports every problem at the span of a token that it reads. What holds of the spans of all
tokens of a stream therefore holds of the spans of all problems that are reported while it is read.
-/

namespace FormulaEditor.Latex

namespace Reader

/-- What holds of the spans of the tokens that are left and of the problems so far. -/
structure Within (I : Span → Prop) (s : Reader) : Prop where
  tokens : ∀ t ∈ s.rest, I t.span
  problems : ∀ d ∈ s.problems, I d.span

namespace Within

variable {I : Span → Prop} {s : Reader}

theorem withRest (h : s.Within I) {rest : List SpannedToken} (hr : rest <:+ s.rest) :
    (s.withRest rest).Within I :=
  ⟨fun t ht => h.tokens t (hr.subset ht), h.problems⟩

theorem skip (h : s.Within I) : s.skip.Within I :=
  h.withRest (List.tail_suffix _)

theorem capped (h : s.Within I) (n : Nat) : (s.capped n).Within I :=
  h.withRest (List.drop_suffix _ _)

theorem mint (h : s.Within I) {α : Type} (m : Minting α) : (s.mint m).2.Within I :=
  ⟨h.tokens, h.problems⟩

theorem rewind (h : s.Within I) (s' : Reader) : (s.rewind s').Within I :=
  ⟨h.tokens, h.problems⟩

theorem report (h : s.Within I) {span : Span} (hspan : I span) (problem : Problem) :
    (s.report span problem).Within I :=
  ⟨h.tokens, List.forall_mem_cons.2 ⟨hspan, h.problems⟩⟩

/-- The next token and the state after it. -/
theorem next (h : s.Within I) {t : SpannedToken} {rest : List SpannedToken} (hs : s.rest = t :: rest) :
    I t.span ∧ (s.withRest rest).Within I :=
  ⟨h.tokens t (hs ▸ List.mem_cons_self), h.withRest (hs ▸ List.suffix_cons t rest)⟩

end Within

end Reader

open Reader

variable {I : Span → Prop} {args : List (List Atom)}

/-! ## Steps -/

section

variable {s : Reader}

theorem within_push (h : s.Within I) (done : List Atom) (m : Minting Atom) : (push done m s).2.Within I :=
  h.mint m

theorem within_pushUnknown (h : s.Within I) {span : Span} (hspan : I span) (done : List Atom)
    (command : String) (problem : Problem) : (pushUnknown done command problem span s).2.Within I :=
  within_push (h.report hspan problem) _ _

theorem within_attachScript (h : s.Within I) {span : Span} (hspan : I span) (slot : Slot)
    (content done : List Atom) : (attachScript slot content done span s).2.Within I := by
  unfold attachScript
  cases done with
  | nil => exact within_push h _ _
  | cons last before =>
      simp only
      split
      · split
        · exact within_push h _ _
        · exact within_push (h.report hspan _) _ _
      · exact within_push h _ _

theorem within_attachPrime (h : s.Within I) {span : Span} (hspan : I span) (done : List Atom) :
    (attachPrime done span s).2.Within I := by
  have hprime := h.mint newPrime
  unfold attachPrime
  simp only
  split
  · split
    · split
      · exact hprime
      · exact within_attachScript hprime hspan _ _ _
    · exact within_attachScript hprime hspan _ _ _
  · exact within_attachScript hprime hspan _ _ _

theorem within_substitute (h : s.Within I) (ref : ArgumentRef) :
    (substitute args ref s).2.Within I := by
  have hargument (i : Nat) : (substitute args (.index i) s).2.Within I := by
    simp only [substitute]
    split
    · exact h.mint _
    · exact h.mint _
    · split
      · exact h.mint _
      · exact ⟨h.tokens, h.problems⟩
  cases ref with
  | index i => exact hargument i
  | implicit => exact hargument 0
  | placeholder => exact h.mint _

theorem within_environmentName (h : s.Within I) : (environmentName s).2.Within I := by
  unfold environmentName
  split
  · exact h.withRest ((nameChars_suffix _).trans (List.tail_suffix _))
  · exact h

end

/-! ## Every reading function -/

mutual

theorem within_readItems {s : Reader} (h : s.Within I) (stop : Stop) (mode : ReadingMode) (done : List Atom) :
    (readItems args stop mode done s).2.Within I := by
  unfold readItems
  split
  · exact h
  · rename_i t rest hrest
    split
    · exact h
    · have hitem := within_readItem h mode done
      have hlt := length_capped_lt hrest (readItem args mode done s).2
      exact within_readItems (hitem.capped _) stop mode _
termination_by 4 * s.rest.length + 1
decreasing_by
  all_goals omega

theorem within_readItem {s : Reader} (h : s.Within I) (mode : ReadingMode) (done : List Atom) :
    (readItem args mode done s).2.Within I := by
  unfold readItem
  split
  · exact h
  · rename_i t rest hrest
    obtain ⟨hspan, hafter⟩ := h.next hrest
    have hlt := length_rest_lt hrest
    simp only
    split
    · exact hafter
    · exact within_readScript hafter hspan _ mode done
    · exact within_readScript hafter hspan _ mode done
    · split
      · split
        · exact within_attachPrime hafter hspan done
        · exact within_push hafter done _
      · exact within_push hafter done _
    · exact within_push (within_readGroup hafter mode) done _
    · exact hafter.report hspan _
    · exact within_push (hafter.report hspan _) done _
    · exact within_substitute hafter _
    · exact within_readCommand hafter hspan _ mode done
termination_by 4 * s.rest.length
decreasing_by
  all_goals omega

theorem within_readGroup {s : Reader} (h : s.Within I) (mode : ReadingMode) : (readGroup args mode s).2.Within I := by
  have hitems := within_readItems h .group mode []
  unfold readGroup
  simp only
  split
  · exact hitems.skip
  · exact hitems
termination_by 4 * s.rest.length + 2

theorem within_readArgument {s : Reader} (h : s.Within I) (mode : ReadingMode) :
    (readArgument args mode s).2.Within I := by
  unfold readArgument
  split
  · exact h
  · rename_i t rest hrest
    have hlt := length_rest_lt hrest
    split
    · exact within_readGroup (h.next hrest).2 mode
    · split
      · exact h
      · exact within_readItem h mode []
termination_by 4 * s.rest.length + 1
decreasing_by
  all_goals omega

theorem within_readScript {s : Reader} (h : s.Within I) {span : Span} (hspan : I span) (slot : Slot)
    (mode : ReadingMode) (done : List Atom) : (readScript args slot mode done span s).2.Within I := by
  have hargument := within_readArgument h mode
  unfold readScript
  simp only
  split
  · exact within_attachScript hargument hspan _ _ _
  · exact within_attachScript ((hargument.report hspan _).mint _) hspan _ _ _
termination_by 4 * s.rest.length + 2

theorem within_readArguments {s : Reader} (h : s.Within I) (mode : ReadingMode) (count : Nat) :
    (readArguments args mode count s).2.Within I := by
  cases count with
  | zero =>
      rw [readArguments]
      exact h
  | succ count =>
      rw [readArguments]
      split
      · exact h
      · rename_i t rest hrest
        have hfirst := within_readArgument h mode
        simp only
        split
        · exact hfirst
        · have hlt := length_capped_lt hrest (readArgument args mode s).2
          have hothers := within_readArguments (hfirst.capped rest.length) mode count
          split
          · exact hothers
          · exact hothers
termination_by 4 * s.rest.length + 2
decreasing_by
  all_goals omega

theorem within_readIndex {s : Reader} (h : s.Within I) : (readIndex args s).2.Within I := by
  unfold readIndex
  split
  · exact h
  · rename_i t rest hrest
    have hlt := length_rest_lt hrest
    split
    · have hitems := within_readItems (h.next hrest).2 .bracket .math []
      simp only
      split
      · exact hitems.skip
      · exact hitems
    · exact h
termination_by 4 * s.rest.length + 2
decreasing_by
  all_goals omega

theorem within_readRows {s : Reader} (h : s.Within I) {span : Span} (hspan : I span) (name : String)
    (cells : List (List Atom)) (rows : List (List (List Atom))) :
    (readRows args name span cells rows s).2.Within I := by
  have hcap := (within_readItems h .cell .math []).capped s.rest.length
  have hle := length_capped (readItems args .cell .math [] s).2 s.rest.length
  unfold readRows
  simp only
  split
  · exact hcap.report hspan _
  · rename_i t rest hrest
    obtain ⟨ht, hafter⟩ := hcap.next hrest
    have hlt := Nat.lt_of_lt_of_le (length_rest_lt hrest) hle
    split
    · exact within_readRows hafter hspan name _ rows
    · split
      · exact within_readRows hafter hspan name [] _
      · split
        · have hended := within_environmentName hafter
          split
          · exact hended
          · exact hended.report ht _
        · exact hcap.report hspan _
    · exact hcap.report hspan _
termination_by 4 * s.rest.length + 2
decreasing_by
  all_goals omega

theorem within_readCommand {s : Reader} (h : s.Within I) {span : Span} (hspan : I span) (name : String)
    (mode : ReadingMode) (done : List Atom) : (readCommand args name span mode done s).2.Within I := by
  unfold readCommand
  simp only
  split
  · exact within_pushUnknown h hspan done _ _
  · rename_i meaning hfilter
    split
    · exact within_push h done _
    · exact within_push h done _
    · exact within_push h done _
    · split
      · exact within_push h.skip.skip done _
      · exact within_push h done _
    · exact h
    · exact within_environmentName (h.report hspan _)
    · split
      · exact within_pushUnknown h hspan done _ _
      · rename_i environment henvironment
        have hnamed := within_environmentName h
        split
        · have hle := length_capped (environmentName s).2 s.rest.length
          exact within_push (within_readRows (hnamed.capped _) hspan environment [] []) done _
        · have hle := length_capped
            ((environmentName s).2.report span (.unknownEnvironment environment)) s.rest.length
          exact within_push
            (within_readRows ((hnamed.report hspan _).capped _) hspan environment [] []) done _
    · have hindex :
          (if meaning.action = .radical then readIndex args s else (none, s)).2.Within I := by
        split
        · exact within_readIndex h
        · exact h
      generalize (if meaning.action = .radical then readIndex args s else (none, s)) = index at hindex ⊢
      have hle := length_capped index.2 s.rest.length
      have harguments := within_readArguments (hindex.capped s.rest.length)
        (if meaning.action = .text then .text else .math) meaning.arity
      split
      · exact within_push harguments done _
      · exact within_pushUnknown (h.rewind _) hspan done _ _
termination_by 4 * s.rest.length + 3

end

/-- Every problem of a token stream is reported at the span of one of its tokens. -/
theorem exists_token_of_mem_diagnostics {tokens : List SpannedToken} {mode : ReadingMode} {n : Nat}
    {d : Diagnostic} (hd : d ∈ (parse tokens mode args n).1.diagnostics) :
    ∃ t ∈ tokens, t.span = d.span := by
  have hstart : (start tokens n).Within fun span => ∃ t ∈ tokens, t.span = span :=
    ⟨fun t ht => ⟨t, ht, rfl⟩, fun d hd => by cases hd⟩
  have hread : (readAll args mode (start tokens n)).2.Within _ :=
    within_readItems hstart .endOfInput mode []
  exact hread.problems d (List.mem_reverse.1 hd)

end FormulaEditor.Latex

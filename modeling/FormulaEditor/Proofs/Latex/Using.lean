import FormulaEditor.Proofs.Latex.Balance
import FormulaEditor.Proofs.Latex.WellFormed

/-!
# When an argument is used

An argument counts as used if a reference to it was read. Every reference among the tokens of a
fragment is read in the end, also where reading goes back, unless it stands where the name of an
environment is read: there it is passed over.
-/

namespace FormulaEditor.Latex

/-- Whether a token is a reference to the argument with an index. -/
def Token.refersTo (i : Nat) : Token → Bool
  | argument (.index j) => j == i
  | argument .implicit => 0 == i
  | _ => false

/-- Whether the name of an environment is read after a token. -/
def Token.takesName : Token → Bool
  | control name => name == "begin" || name == "end"
  | _ => false

/-- Whether there is a reference to an argument among tokens. -/
def refersTo (i : Nat) (tokens : List SpannedToken) : Bool :=
  tokens.any fun t => t.token.refersTo i

/-- Whether a token does not end a name in braces. -/
def SpannedToken.continuesName (t : SpannedToken) : Bool :=
  t.token != .groupEnd && t.token != .endOfInput

/-- The tokens of the name in braces that a token stream starts with, if it does. -/
def nameTokens : List SpannedToken → List SpannedToken
  | [] => []
  | t :: rest => if t.token = .groupBegin then rest.takeWhile SpannedToken.continuesName else []

/-- Whether a reference to an argument stands in the name of an environment. -/
def hidesReference (i : Nat) : List SpannedToken → Bool
  | [] => false
  | t :: rest => (t.token.takesName && refersTo i (nameTokens rest)) || hidesReference i rest

variable {i : Nat} {tokens rest : List SpannedToken} {t : SpannedToken}

theorem refersTo_cons :
    refersTo i (t :: rest) = true ↔ t.token.refersTo i = true ∨ refersTo i rest = true := by
  rw [refersTo, List.any_cons, Bool.or_eq_true]
  rfl

theorem refersTo_of_suffix (hs : rest <:+ tokens) (h : refersTo i rest = true) :
    refersTo i tokens = true := by
  obtain ⟨t, ht, href⟩ := List.any_eq_true.1 h
  exact List.any_eq_true.2 ⟨t, hs.subset ht, href⟩

theorem hidesReference_of_suffix (hs : rest <:+ tokens) (h : hidesReference i tokens = false) :
    hidesReference i rest = false := by
  induction tokens with
  | nil => rwa [List.suffix_nil.1 hs]
  | cons t tokens ih =>
      rcases List.suffix_cons_iff.1 hs with rfl | hs
      · exact h
      · exact ih hs (Bool.or_eq_false_iff.1 h).2

theorem refersTo_of_takesName {token : Token} (h : token.takesName = true) :
    token.refersTo i = false := by
  cases token <;> first | rfl | cases h

/-- A command whose meaning takes the name of an environment. -/
theorem takesName_of_action {name : String} {m : Meaning} (hf : Vocabulary.find? name = some m)
    (ha : m.action = .beginEnvironment ∨ m.action = .endEnvironment) :
    (Token.control name).takesName = true := by
  have hall : (Vocabulary.all.all fun entry =>
      !(entry.2.action == .beginEnvironment || entry.2.action == .endEnvironment) ||
        (Token.control entry.1).takesName) = true := by decide +kernel
  have hentry := List.all_eq_true.1 hall _ (Vocabulary.mem_of_find? hf)
  rcases ha with ha | ha <;> simpa [ha] using hentry

namespace Reader

/-! ## What reading leads to -/

/-- An argument was used, or a reference to it is still to be read. -/
def Meets (i : Nat) (s : Reader) : Prop :=
  i ∈ s.used ∨ refersTo i s.rest = true

/-- Reading meets no further references, and misses none that is not hidden. -/
structure Tracks (i : Nat) (s s' : Reader) : Prop where
  rest : s'.rest <:+ s.rest
  of_meets : s'.Meets i → s.Meets i
  meets : hidesReference i s.rest = false → s.Meets i → s'.Meets i

variable {s s' s'' : Reader}

namespace Tracks

theorem refl (i : Nat) (s : Reader) : s.Tracks i s :=
  ⟨List.suffix_refl _, id, fun _ => id⟩

theorem trans (h : s.Tracks i s') (h' : s'.Tracks i s'') : s.Tracks i s'' :=
  ⟨h'.rest.trans h.rest, fun hm => h.of_meets (h'.of_meets hm),
    fun hh hm => h'.meets (hidesReference_of_suffix h.rest hh) (h.meets hh hm)⟩

/-- Where the tokens and the used arguments are the same, so is what is met. -/
theorem of_eq (h : s.Tracks i s') (hr : s''.rest = s'.rest) (hu : s''.used = s'.used) :
    s.Tracks i s'' := by
  have hmeets : s''.Meets i ↔ s'.Meets i := by
    rw [Meets, Meets, hr, hu]
  exact ⟨hr ▸ h.rest, fun hm => h.of_meets (hmeets.1 hm), fun hh hm => hmeets.2 (h.meets hh hm)⟩

theorem mint (h : s.Tracks i s') {α : Type} (m : Minting α) : s.Tracks i (s'.mint m).2 :=
  h.of_eq rfl rfl

theorem report (h : s.Tracks i s') (span : Span) (problem : Problem) :
    s.Tracks i (s'.report span problem) :=
  h.of_eq rfl rfl

theorem rewind (h : s.Tracks i s') (s'' : Reader) : s.Tracks i (s'.rewind s'') :=
  h.of_eq rfl rfl

/-- The tokens that are left are no more than allowed, so that none is dropped. -/
theorem capped (h : s.Tracks i s') (hs : s'.rest <:+ rest) : s.Tracks i (s'.capped rest.length) := by
  rw [capped_of_le hs.length_le]
  exact h

/-- A token that is no reference may be passed over. -/
theorem next (hs : s.rest = t :: rest) (ht : t.token.refersTo i = false) :
    s.Tracks i (s.withRest rest) := by
  have hmeets : (s.withRest rest).Meets i ↔ s.Meets i := by
    rw [Meets, Meets, hs, refersTo_cons, ht]
    simp [withRest]
  exact ⟨hs ▸ List.suffix_cons t rest, hmeets.1, fun _ => hmeets.2⟩

theorem skip (h : s.Tracks i s') (ht : s'.peek.refersTo i = false) : s.Tracks i s'.skip := by
  refine h.trans ?_
  cases hs : s'.rest with
  | nil => exact (refl i s').of_eq (by simp [Reader.skip, withRest, hs]) rfl
  | cons t rest =>
      have hnext := next hs (by simpa [peek, hs] using ht)
      simpa [Reader.skip, hs] using hnext

end Tracks

/-- Reading that leaves fewer tokens if there were any. -/
structure Consumes (i : Nat) (s s' : Reader) : Prop extends s.Tracks i s' where
  progress : s'.rest <:+ s.rest.tail

theorem Tracks.consumes (h : (s.withRest rest).Tracks i s') (hs : s.rest = t :: rest)
    (ht : t.token.refersTo i = false) : s.Consumes i s' :=
  ⟨(Tracks.next hs ht).trans h, by rw [hs]; exact h.rest⟩

theorem Consumes.followed (h : s.Consumes i s') (h' : s'.Tracks i s'') : s.Consumes i s'' :=
  ⟨h.toTracks.trans h', h'.rest.trans h.progress⟩

/-! ## Steps -/

section

variable {args : List (List Atom)}

theorem tracks_push (h : s.Tracks i s') (done : List Atom) (m : Minting Atom) :
    s.Tracks i (push done m s').2 :=
  h.mint m

theorem tracks_pushUnknown (h : s.Tracks i s') (done : List Atom) (command : String)
    (problem : Problem) (span : Span) : s.Tracks i (pushUnknown done command problem span s').2 :=
  tracks_push (h.report span problem) _ _

theorem tracks_attachScript (h : s.Tracks i s') (slot : Slot) (content done : List Atom)
    (span : Span) : s.Tracks i (attachScript slot content done span s').2 := by
  unfold attachScript
  cases done with
  | nil => exact tracks_push h _ _
  | cons last before =>
      simp only
      split
      · split
        · exact tracks_push h _ _
        · exact tracks_push (h.report span _) _ _
      · exact tracks_push h _ _

theorem tracks_attachPrime (h : s.Tracks i s') (done : List Atom) (span : Span) :
    s.Tracks i (attachPrime done span s').2 := by
  have hprime := h.mint newPrime
  unfold attachPrime
  simp only
  split
  · split
    · split
      · exact hprime
      · exact tracks_attachScript hprime _ _ _ span
    · exact tracks_attachScript hprime _ _ _ span
  · exact tracks_attachScript hprime _ _ _ span

/-- A reference to an argument that is there makes the argument used. -/
theorem mem_used_substitute {atoms : List Atom} (hi : args[i]? = some atoms) (hne : atoms ≠ [])
    (j : Nat) (s : Reader) :
    (substitute args (.index j) s).2.rest = s.rest ∧
      (i ∈ (substitute args (.index j) s).2.used ↔ j = i ∨ i ∈ s.used) := by
  have hempty {others : Option (List Atom)} (hj : args[j]? = others)
      (hothers : others = none ∨ others = some []) : j ≠ i := by
    rintro rfl
    rcases hothers with rfl | rfl
    · rw [hi] at hj
      cases hj
    · exact hne (Option.some.inj (hi.symm.trans hj))
  simp only [substitute]
  split
  · rename_i hj
    exact ⟨rfl, by simp [mint, hempty hj (.inl rfl)]⟩
  · rename_i hj
    exact ⟨rfl, by simp [mint, hempty hj (.inr rfl)]⟩
  · split
    · rename_i hused
      have hmem : j ∈ s.used := by simpa using hused
      exact ⟨rfl, by simp only [mint]; exact ⟨.inr, fun h => h.elim (fun hji => hji ▸ hmem) id⟩⟩
    · exact ⟨rfl, by simp only [List.mem_cons, eq_comm (a := i)]⟩

theorem consumes_substitute {atoms : List Atom} (hi : args[i]? = some atoms) (hne : atoms ≠ [])
    {ref : ArgumentRef} (hs : s.rest = t :: rest) (ht : t.token = .argument ref) :
    s.Consumes i (substitute args ref (s.withRest rest)).2 := by
  have hargument (j : Nat) (href : t.token.refersTo i = (j == i)) :
      s.Consumes i (substitute args (.index j) (s.withRest rest)).2 := by
    obtain ⟨hrest, hused⟩ := mem_used_substitute hi hne j (s.withRest rest)
    have hmeets : (substitute args (.index j) (s.withRest rest)).2.Meets i ↔ s.Meets i := by
      rw [Meets, Meets, hrest, hused, hs, refersTo_cons, href, beq_iff_eq]
      exact or_assoc.trans or_left_comm
    have hsuffix : (substitute args (.index j) (s.withRest rest)).2.rest <:+ rest :=
      hrest ▸ List.suffix_refl _
    exact ⟨⟨hs ▸ hsuffix.trans (List.suffix_cons t rest), hmeets.1, fun _ => hmeets.2⟩,
      hs ▸ hsuffix⟩
  cases ref with
  | index j => exact hargument j (by rw [ht]; rfl)
  | implicit => exact hargument 0 (by rw [ht]; rfl)
  | placeholder => exact ((Tracks.refl i _).mint _).consumes hs (by rw [ht]; rfl)

/-- Every reference in a token stream is in the name that the stream starts with, or behind it. -/
theorem refersTo_nameChars (h : refersTo i tokens = true) :
    refersTo i (tokens.takeWhile SpannedToken.continuesName) = true ∨
      refersTo i (nameChars tokens).2 = true := by
  induction tokens with
  | nil => cases h
  | cons t rest ih =>
      have hinside (ht : t.continuesName = true)
          (hrest : (nameChars (t :: rest)).2 = (nameChars rest).2) :
          refersTo i ((t :: rest).takeWhile SpannedToken.continuesName) = true ∨
            refersTo i (nameChars (t :: rest)).2 = true := by
        rw [List.takeWhile_cons_of_pos ht, hrest, refersTo_cons, or_assoc]
        exact (refersTo_cons.1 h).imp_right ih
      have hbehind (ht : t.token.refersTo i = false) (hrest : (nameChars (t :: rest)).2 = rest) :
          refersTo i (nameChars (t :: rest)).2 = true := by
        rw [hrest]
        exact (refersTo_cons.1 h).resolve_left (by rw [ht]; exact Bool.false_ne_true)
      cases htoken : t.token with
      | groupEnd | endOfInput =>
          exact .inr (hbehind (by rw [htoken]; rfl) (by simp only [nameChars, htoken]))
      | _ =>
          exact hinside (by simp [SpannedToken.continuesName, htoken])
            (by simp only [nameChars, htoken])

theorem consumes_environmentName (hs : s.rest = t :: rest) (ht : t.token.takesName = true) :
    s.Consumes i (environmentName (s.withRest rest)).2 := by
  have href : t.token.refersTo i = false := refersTo_of_takesName ht
  unfold environmentName
  split
  · rename_i hpeek
    cases rest with
    | nil => cases hpeek
    | cons opening name =>
        have hopening : opening.token = .groupBegin := hpeek
        have hsuffix : (nameChars name).2 <:+ opening :: name :=
          (nameChars_suffix name).trans (List.suffix_cons opening name)
        refine ⟨⟨hs ▸ hsuffix.trans (List.suffix_cons t _), fun hm => ?_, fun hh hm => ?_⟩,
          hs ▸ hsuffix⟩
        · exact hm.imp_right fun h => refersTo_of_suffix (hs ▸ hsuffix.trans (List.suffix_cons t _)) h
        · refine hm.imp_right fun h => ?_
          rw [hs] at hh h
          have hname : refersTo i (nameTokens (opening :: name)) = false := by
            have := (Bool.or_eq_false_iff.1 hh).1
            rwa [ht, Bool.true_and] at this
          rw [nameTokens, if_pos hopening] at hname
          rw [refersTo_cons, refersTo_cons, href, hopening] at h
          have hbehind : refersTo i name = true := by simpa [Token.refersTo] using h
          exact (refersTo_nameChars hbehind).resolve_left (by rw [hname]; exact Bool.false_ne_true)
  · exact (Tracks.refl i _).consumes hs href

end

/-- A problem that was reported before a name does not matter to it. -/
theorem environmentName_report (s : Reader) (span : Span) (problem : Problem) :
    (environmentName (s.report span problem)).2 = (environmentName s).2.report span problem := by
  unfold environmentName
  simp only [peek, report]
  split <;> rfl

/-! ## Every reading function -/

-- Only the case of a reference uses the hypotheses, and the others through the recursion.
set_option linter.unusedSectionVars false

section

variable {args : List (List Atom)} {atoms : List Atom} (hi : args[i]? = some atoms) (hne : atoms ≠ [])
include hi hne

mutual

theorem tracks_readItems (stop : Stop) (mode : ReadingMode) (done : List Atom) (s : Reader) :
    s.Tracks i (readItems args stop mode done s).2 := by
  unfold readItems
  split
  · exact .refl i s
  · rename_i t rest hrest
    split
    · exact .refl i s
    · have hitem := consumes_readItem mode done s
      have hlt := length_capped_lt hrest (readItem args mode done s).2
      have hprogress : (readItem args mode done s).2.rest <:+ rest := by
        simpa [hrest] using hitem.progress
      exact (hitem.toTracks.capped hprogress).trans (tracks_readItems stop mode _ _)
termination_by 4 * s.rest.length + 1
decreasing_by
  all_goals omega

theorem consumes_readItem (mode : ReadingMode) (done : List Atom) (s : Reader) :
    s.Consumes i (readItem args mode done s).2 := by
  unfold readItem
  split
  · rename_i hrest
    exact ⟨.refl i s, by rw [hrest]; exact List.suffix_refl _⟩
  · rename_i t rest hrest
    have hlt := length_rest_lt hrest
    have hafter : (s.withRest rest).Tracks i (s.withRest rest) := .refl i _
    have hnext {s' : Reader} {token : Token} (htoken : t.token = token)
        (href : token.refersTo i = false) (h : (s.withRest rest).Tracks i s') : s.Consumes i s' :=
      h.consumes hrest (htoken ▸ href)
    simp only
    split
    · exact hnext ‹_› rfl hafter
    · exact hnext ‹_› rfl (tracks_readScript .superscript mode done t.span (s.withRest rest))
    · exact hnext ‹_› rfl (tracks_readScript .subscript mode done t.span (s.withRest rest))
    · split
      · split
        · exact hnext ‹_› rfl (tracks_attachPrime hafter done t.span)
        · exact hnext ‹_› rfl (tracks_push hafter done _)
      · exact hnext ‹_› rfl (tracks_push hafter done _)
    · exact hnext ‹_› rfl (tracks_push (tracks_readGroup mode (s.withRest rest)) done _)
    · exact hnext ‹_› rfl (hafter.report t.span _)
    · exact hnext ‹_› rfl (tracks_push (hafter.report t.span _) done _)
    · exact consumes_substitute hi hne hrest ‹_›
    · exact consumes_readCommand hrest ‹_› t.span mode done
termination_by 4 * s.rest.length
decreasing_by
  all_goals omega

theorem tracks_readGroup (mode : ReadingMode) (s : Reader) :
    s.Tracks i (readGroup args mode s).2 := by
  have hitems := tracks_readItems .group mode [] s
  unfold readGroup
  simp only
  split
  · rename_i hpeek
    exact hitems.skip (by rw [hpeek]; rfl)
  · exact hitems
termination_by 4 * s.rest.length + 2

theorem consumes_readArgument (mode : ReadingMode) (s : Reader) :
    s.Tracks i (readArgument args mode s).2 ∧
      ((readArgument args mode s).1.isSome = true →
        (readArgument args mode s).2.rest <:+ s.rest.tail) := by
  unfold readArgument
  split
  · exact ⟨.refl i s, fun h => by cases h⟩
  · rename_i t rest hrest
    have hlt := length_rest_lt hrest
    split
    · rename_i htoken
      have hgroup := (tracks_readGroup mode (s.withRest rest)).consumes hrest (by rw [htoken]; rfl)
      exact ⟨hgroup.toTracks, fun _ => hgroup.progress⟩
    · split
      · exact ⟨.refl i s, fun h => by cases h⟩
      · have hitem := consumes_readItem mode [] s
        exact ⟨hitem.toTracks, fun _ => hitem.progress⟩
termination_by 4 * s.rest.length + 1
decreasing_by
  all_goals omega

theorem tracks_readScript (slot : Slot) (mode : ReadingMode) (done : List Atom) (span : Span)
    (s : Reader) : s.Tracks i (readScript args slot mode done span s).2 := by
  have hargument := (consumes_readArgument mode s).1
  unfold readScript
  simp only
  split
  · exact tracks_attachScript hargument _ _ _ span
  · exact tracks_attachScript ((hargument.report span _).mint _) _ _ _ span
termination_by 4 * s.rest.length + 2

theorem tracks_readArguments (mode : ReadingMode) (count : Nat) (s : Reader) :
    s.Tracks i (readArguments args mode count s).2 := by
  cases count with
  | zero =>
      rw [readArguments]
      exact .refl i s
  | succ count =>
      rw [readArguments]
      split
      · exact .refl i s
      · rename_i t rest hrest
        obtain ⟨hfirst, hprogress⟩ := consumes_readArgument mode s
        simp only
        split
        · exact hfirst
        · rename_i content hcontent
          have hlt := length_capped_lt hrest (readArgument args mode s).2
          have hshorter : (readArgument args mode s).2.rest <:+ rest := by
            simpa [hrest] using hprogress (by rw [hcontent]; rfl)
          have hothers := (hfirst.capped hshorter).trans (tracks_readArguments mode count _)
          split
          · exact hothers
          · exact hothers
termination_by 4 * s.rest.length + 2
decreasing_by
  all_goals omega

theorem tracks_readIndex (s : Reader) : s.Tracks i (readIndex args s).2 := by
  unfold readIndex
  split
  · exact .refl i s
  · rename_i t rest hrest
    have hlt := length_rest_lt hrest
    split
    · rename_i htoken
      have hitems := ((tracks_readItems .bracket .math [] (s.withRest rest)).consumes hrest
        (by rw [htoken]; rfl)).toTracks
      simp only
      split
      · rename_i hpeek
        exact hitems.skip (by rw [hpeek]; rfl)
      · exact hitems
    · exact .refl i s
termination_by 4 * s.rest.length + 2
decreasing_by
  all_goals omega

theorem tracks_readRows (name : String) (span : Span) (cells : List (List Atom))
    (rows : List (List (List Atom))) (s : Reader) :
    s.Tracks i (readRows args name span cells rows s).2 := by
  have hitems := tracks_readItems .cell .math [] s
  have hcap := hitems.capped hitems.rest
  have hle := length_capped (readItems args .cell .math [] s).2 s.rest.length
  unfold readRows
  simp only
  split
  · exact hcap.report span _
  · rename_i t rest hrest
    have hlt := Nat.lt_of_lt_of_le (length_rest_lt hrest) hle
    split
    · rename_i htoken
      have hnext := Tracks.next hrest (i := i) (by rw [htoken]; rfl)
      exact (hcap.trans hnext).trans (tracks_readRows name span _ rows _)
    · rename_i command htoken
      have hnext := Tracks.next hrest (i := i) (by rw [htoken]; rfl)
      split
      · exact (hcap.trans hnext).trans (tracks_readRows name span [] _ _)
      · split
        · rename_i hend
          have hended := hcap.trans
            (consumes_environmentName (i := i) hrest (by rw [htoken, hend]; rfl)).toTracks
          split
          · exact hended
          · exact hended.report t.span _
        · exact hcap.report span _
    · exact hcap.report span _
termination_by 4 * s.rest.length + 2
decreasing_by
  all_goals omega

theorem consumes_readCommand {s : Reader} {t : SpannedToken} {rest : List SpannedToken}
    (hs : s.rest = t :: rest) {name : String} (ht : t.token = .control name) (span : Span)
    (mode : ReadingMode) (done : List Atom) :
    s.Consumes i (readCommand args name span mode done (s.withRest rest)).2 := by
  have href : t.token.refersTo i = false := by
    rw [ht]
    rfl
  have hafter : (s.withRest rest).Tracks i (s.withRest rest) := .refl i _
  unfold readCommand
  simp only
  split
  · exact (tracks_pushUnknown hafter done _ _ span).consumes hs href
  · rename_i meaning hfilter
    obtain ⟨hfind, -⟩ := Option.filter_eq_some_iff.1 hfilter
    split
    · exact (tracks_push hafter done _).consumes hs href
    · exact (tracks_push hafter done _).consumes hs href
    · exact (tracks_push hafter done _).consumes hs href
    · split
      · rename_i hpeek
        have hskip := (hafter.skip (by rw [hpeek.1]; rfl)).skip (by rw [hpeek.2]; rfl)
        exact (tracks_push hskip done _).consumes hs href
      · exact (tracks_push hafter done _).consumes hs href
    · exact hafter.consumes hs href
    · rename_i haction
      rw [environmentName_report]
      exact (consumes_environmentName hs (ht ▸ takesName_of_action hfind (.inr haction))).followed
        ((Tracks.refl i _).report span _)
    · rename_i haction
      have hname := ht ▸ takesName_of_action hfind (.inl haction)
      split
      · exact (tracks_pushUnknown hafter done _ _ span).consumes hs href
      · rename_i environment henvironment
        have hnamed := consumes_environmentName (i := i) hs hname
        have hshorter : (environmentName (s.withRest rest)).2.rest <:+ (s.withRest rest).rest := by
          have hprogress := hnamed.progress
          rwa [hs] at hprogress
        split
        · have hle := length_capped (environmentName (s.withRest rest)).2 (s.withRest rest).rest.length
          exact (hnamed.followed ((Tracks.refl i _).capped hshorter)).followed
            (tracks_push (tracks_readRows environment span [] [] _) done _)
        · have hle := length_capped ((environmentName (s.withRest rest)).2.report span
            (.unknownEnvironment environment)) (s.withRest rest).rest.length
          exact (hnamed.followed (((Tracks.refl i _).report span _).capped hshorter)).followed
            (tracks_push (tracks_readRows environment span [] [] _) done _)
    · have hindex : (s.withRest rest).Tracks i
          (if meaning.action = .radical then readIndex args (s.withRest rest)
            else (none, s.withRest rest)).2 := by
        split
        · exact tracks_readIndex (s.withRest rest)
        · exact hafter
      generalize (if meaning.action = .radical then readIndex args (s.withRest rest)
        else (none, s.withRest rest)) = index at hindex ⊢
      have hle := length_capped index.2 (s.withRest rest).rest.length
      have harguments := (hindex.capped hindex.rest).trans
        (tracks_readArguments (if meaning.action = .text then .text else .math) meaning.arity _)
      split
      · exact (tracks_push harguments done _).consumes hs href
      · exact (tracks_pushUnknown (hafter.rewind _) done _ _ span).consumes hs href
termination_by 4 * (s.withRest rest).rest.length + 3

end

end

/-- Reading a sequence stops at the end of the tokens or before a token that ends the sequence. -/
theorem endsAt_readItems (args : List (List Atom)) (stop : Stop) (mode : ReadingMode)
    (done : List Atom) (s : Reader) {t : SpannedToken} {rest : List SpannedToken}
    (h : (readItems args stop mode done s).2.rest = t :: rest) : stop.endsAt t.token = true := by
  unfold readItems at h
  split at h
  · rename_i hs
    rw [hs] at h
    cases h
  · rename_i t' rest' hs
    have hlt := length_capped_lt hs (readItem args mode done s).2
    split at h
    · rename_i hend
      rw [hs] at h
      cases h
      exact hend
    · exact endsAt_readItems args stop mode _ _ h
termination_by s.rest.length
decreasing_by
  omega

end Reader

open Reader

theorem eq_endOfInput_of_endsAt {token : Token} (h : Stop.endsAt .endOfInput token = true) :
    token = .endOfInput := by
  cases token <;> first | rfl | cases h

/-- Nothing is left before an end of input that no other comes before. -/
theorem rest_readAll_suffix (args : List (List Atom)) (mode : ReadingMode) (n : Nat)
    {last : SpannedToken} (ht : ∀ t ∈ tokens, t.token ≠ .endOfInput)
    (hs : (readAll args mode (start (tokens ++ [last]) n)).2.rest <:+ tokens ++ [last]) :
    (readAll args mode (start (tokens ++ [last]) n)).2.rest <:+ [last] := by
  cases hrest : (readAll args mode (start (tokens ++ [last]) n)).2.rest with
  | nil => exact List.nil_suffix
  | cons t rest =>
      have hend : t.token = .endOfInput :=
        eq_endOfInput_of_endsAt (endsAt_readItems args .endOfInput mode [] _ hrest)
      obtain ⟨front, hfront⟩ := hs
      rw [hrest] at hfront
      rcases List.eq_nil_or_concat rest with rfl | ⟨others, last', rfl⟩
      · obtain rfl : t = last := (List.cons.inj (List.append_inj' hfront rfl).2).1
        exact List.suffix_refl _
      · rw [List.concat_eq_append, ← List.cons_append, ← List.append_assoc] at hfront
        have hinside := (List.append_inj' hfront rfl).1
        exact absurd hend (ht t (hinside ▸ by simp))

/-- After a whole source was read, no reference is left. -/
theorem refersTo_rest_readAll (args : List (List Atom)) (source : String) (mode : ReadingMode)
    (n : Nat) (hs : (readAll args mode (start (tokenize source).tokens n)).2.rest <:+
      (tokenize source).tokens) :
    refersTo i (readAll args mode (start (tokenize source).tokens n)).2.rest = false := by
  obtain ⟨init, htokens, hinit⟩ := (closesGroups_tokenize source).ends
  rw [htokens] at hs ⊢
  have hsuffix := rest_readAll_suffix args mode n hinit hs
  exact Bool.eq_false_iff.2 fun href =>
    absurd (refersTo_of_suffix hsuffix href) Bool.false_ne_true

/-- An argument counts as used only if there is a reference to it among the tokens, and always if there
is one and none is in the name of an environment. -/
theorem mem_used_readAll {args : List (List Atom)} {atoms : List Atom} (hi : args[i]? = some atoms)
    (hne : atoms ≠ []) (source : String) (mode : ReadingMode) (n : Nat) :
    (i ∈ (readAll args mode (start (tokenize source).tokens n)).2.used →
      refersTo i (tokenize source).tokens = true) ∧
    (refersTo i (tokenize source).tokens = true → hidesReference i (tokenize source).tokens = false →
      i ∈ (readAll args mode (start (tokenize source).tokens n)).2.used) := by
  have htracks : (start (tokenize source).tokens n).Tracks i
      (readAll args mode (start (tokenize source).tokens n)).2 :=
    tracks_readItems hi hne .endOfInput mode [] _
  have hrest := refersTo_rest_readAll (i := i) args source mode n htracks.rest
  refine ⟨fun hused => ?_, fun href hhidden => ?_⟩
  · exact (htracks.of_meets (.inl hused)).resolve_left List.not_mem_nil
  · exact (htracks.meets hhidden (.inr href)).resolve_right (by rw [hrest]; exact Bool.false_ne_true)

end FormulaEditor.Latex

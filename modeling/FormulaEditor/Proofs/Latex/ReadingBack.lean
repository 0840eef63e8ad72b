import FormulaEditor.Proofs.Latex.Legible

/-!
# Reading back what is written

The reader, before the tokens of a legible atom, makes an atom that is alike and stops right behind
these tokens. Each reading function has one lemma for the tokens that are written for it.
-/

namespace FormulaEditor.Latex

namespace Reader

variable {args : List (List Atom)} {strict : Prop} {stop : Stop} {mode : ReadingMode}
  {done : List Atom} {s s' s'' : Reader} {t : Token} {k ts : List Token}

/-- The tokens that are left, without their spans. -/
def ahead (s : Reader) : List Token :=
  s.rest.map SpannedToken.token

theorem length_ahead (s : Reader) : s.ahead.length = s.rest.length :=
  List.length_map _

theorem ahead_skip (h : s.ahead = t :: ts) : s.skip.ahead = ts := by
  obtain ⟨u, rest, hrest, -, hts⟩ := List.map_eq_cons_iff.1 h
  simp [ahead, skip, withRest, hrest, hts]

theorem peek_of_ahead (h : s.ahead = t :: ts) : s.peek = t := by
  obtain ⟨u, rest, hrest, hu, -⟩ := List.map_eq_cons_iff.1 h
  simp [peek, hrest, hu]

/-! ## One item -/

theorem readItem_char {c : Char} (h : s.ahead = .char c :: ts) (hc : c ≠ Text.Quoted.singleQuote) :
    readItem args .math done s = push done (newMathChar c) s.skip := by
  obtain ⟨rest, used, problems, supply⟩ := s
  obtain ⟨u, rest, rfl, hu, -⟩ := List.map_eq_cons_iff.1 h
  rw [readItem.eq_def]
  simp only [hu, hc, if_false]
  rfl

theorem readItem_textChar {c : Char} (h : s.ahead = .char c :: ts) :
    readItem args .text done s = push done (Atom.newChar .ordinary c) s.skip := by
  obtain ⟨rest, used, problems, supply⟩ := s
  obtain ⟨u, rest, rfl, hu, -⟩ := List.map_eq_cons_iff.1 h
  rw [readItem.eq_def]
  simp only [hu]
  rfl

theorem readItem_groupBegin (h : s.ahead = .groupBegin :: ts) :
    readItem args mode done s =
      push done (Atom.newWrapper .group none (readGroup args mode s.skip).1)
        (readGroup args mode s.skip).2 := by
  obtain ⟨rest, used, problems, supply⟩ := s
  obtain ⟨u, rest, rfl, hu, -⟩ := List.map_eq_cons_iff.1 h
  rw [readItem.eq_def]
  simp only [hu]
  rfl

theorem readItem_script {slot : Slot} (hs : slot.isScript = true)
    (h : s.ahead = scriptToken slot :: ts) :
    ∃ span, readItem args mode done s = readScript args slot mode done span s.skip := by
  obtain ⟨rest, used, problems, supply⟩ := s
  obtain ⟨u, rest, rfl, hu, -⟩ := List.map_eq_cons_iff.1 h
  refine ⟨u.span, ?_⟩
  rw [readItem.eq_def]
  cases slot with
  | superscript | subscript =>
      simp only [hu, scriptToken]
      rfl
  | _ => cases hs

theorem readItem_control {name : String} (h : s.ahead = .control name :: ts) :
    ∃ span, readItem args mode done s = readCommand args name span mode done s.skip := by
  obtain ⟨rest, used, problems, supply⟩ := s
  obtain ⟨u, rest, rfl, hu, -⟩ := List.map_eq_cons_iff.1 h
  refine ⟨u.span, ?_⟩
  rw [readItem.eq_def]
  simp only [hu]
  rfl

/-! ## Sequences -/

theorem readItems_stop (h : s.ahead = t :: ts) (hstop : stop.endsAt t = true) :
    readItems args stop mode done s = (done.reverse, s) := by
  obtain ⟨rest, used, problems, supply⟩ := s
  obtain ⟨u, rest, rfl, hu, -⟩ := List.map_eq_cons_iff.1 h
  rw [readItems.eq_def]
  simp only [hu, hstop, if_true]

/-- Reading goes on behind an item that left fewer tokens than there were. -/
theorem readItems_step {r : List Atom × Reader} (h : s.ahead = t :: ts)
    (hstop : stop.endsAt t = false) (hr : readItem args mode done s = r)
    (hle : r.2.ahead.length ≤ ts.length) :
    readItems args stop mode done s = readItems args stop mode r.1 r.2 := by
  obtain ⟨rest, used, problems, supply⟩ := s
  obtain ⟨u, rest, rfl, hu, hts⟩ := List.map_eq_cons_iff.1 h
  have hlength : r.2.rest.length ≤ rest.length := by
    rw [← hts, List.length_map, length_ahead] at hle
    exact hle
  rw [readItems.eq_def]
  simp only [hu, hstop, Bool.false_eq_true, if_false, hr, capped_of_le hlength]

/-- A later state before the tokens `k`. In a strict sense, nothing was reported on the way. -/
structure Passes (strict : Prop) (k : List Token) (s s' : Reader) : Prop where
  ahead : s'.ahead = k
  problems : strict → s'.problems = s.problems

namespace Passes

theorem skip (h : s.ahead = t :: ts) : Passes strict ts s s.skip :=
  ⟨ahead_skip h, fun _ => rfl⟩

theorem trans {k' : List Token} (h : Passes strict k s s') (h' : Passes strict k' s' s'') :
    Passes strict k' s s'' :=
  ⟨h'.ahead, fun hs => (h'.problems hs).trans (h.problems hs)⟩

theorem mint (h : Passes strict k s s') {α : Type} (m : Minting α) :
    Passes strict k s (s'.mint m).2 :=
  ⟨h.ahead, h.problems⟩

end Passes

/-- A sequence does not end before the tokens of an atom. -/
def Continues (stop : Stop) (a : Atom) : Prop :=
  ∃ t ts, tokensOf a = t :: ts ∧ stop.endsAt t = false

/-- Before the tokens of an atom, of which `k` follow, the reader makes an atom that is alike. -/
def ReadsBack (strict : Prop) (mode : ReadingMode) (k : List Token) (a : Atom) : Prop :=
  ∀ (stop : Stop) (done : List Atom) (s : Reader), Continues stop a → s.ahead = tokensOf a ++ k →
    ∃ a' s', readItems [] stop mode done s = readItems [] stop mode (a' :: done) s' ∧
      a'.bare = a.bare ∧ Passes strict k s s'

/-- A sequence that ends before the tokens `k` and whose atoms are read back. -/
structure SequenceReadsBack (strict : Prop) (stop : Stop) (mode : ReadingMode) (k : List Token)
    (atoms : List Atom) : Prop where
  inPlace : InPlace (ReadsBack strict mode) k atoms
  continues : ∀ a ∈ atoms, Continues stop a
  ends : ∃ t ts, k = t :: ts ∧ stop.endsAt t = true

theorem InPlace.tail {R : List Token → Atom → Prop} {a : Atom} {atoms : List Atom}
    (h : InPlace R k (a :: atoms)) : InPlace R k atoms := by
  intro before b after heq
  exact h (a :: before) b after (by rw [heq]; rfl)

/-- A sequence is read back atom by atom. -/
theorem readItems_back {atoms : List Atom} (h : SequenceReadsBack strict stop mode k atoms)
    (done : List Atom) (hs : s.ahead = tokensOfList atoms ++ k) :
    ∃ atoms' s', readItems [] stop mode done s = (done.reverse ++ atoms', s') ∧
      atoms'.map Atom.bare = atoms.map Atom.bare ∧ Passes strict k s s' := by
  obtain ⟨hall, hcontinues, hends⟩ := h
  induction atoms generalizing done s with
  | nil =>
      obtain ⟨t, ts, hk, hstop⟩ := hends
      rw [tokensOfList_nil, List.nil_append] at hs
      refine ⟨[], s, ?_, rfl, hs, fun _ => rfl⟩
      rw [readItems_stop (hs.trans hk) hstop, List.append_nil]
  | cons a atoms ih =>
      rw [tokensOfList_cons, List.append_assoc] at hs
      obtain ⟨a', s₁, hread, hbare, hpass⟩ :=
        hall [] a atoms rfl stop done s (hcontinues a List.mem_cons_self) hs
      obtain ⟨atoms', s', hrest, hbares, hpass'⟩ := ih (a' :: done) hpass.ahead
        (InPlace.tail hall) fun b hb => hcontinues b (List.mem_cons_of_mem _ hb)
      refine ⟨a' :: atoms', s', ?_, ?_, hpass.trans hpass'⟩
      · rw [hread, hrest]
        simp
      · simp [hbare, hbares]

/-- A group is what comes up to its end. -/
theorem readGroup_eq {atoms : List Atom} (h : readItems args .group mode [] s = (atoms, s'))
    (hend : s'.ahead = .groupEnd :: ts) : readGroup args mode s = (atoms, s'.skip) := by
  rw [readGroup.eq_def, h]
  simp only [peek_of_ahead hend]

/-- An argument in braces is a group. -/
theorem readArgument_groupBegin {atoms : List Atom} (h : s.ahead = .groupBegin :: ts)
    (hgroup : readGroup args mode s.skip = (atoms, s')) :
    readArgument args mode s = (some atoms, s') := by
  obtain ⟨rest, used, problems, supply⟩ := s
  obtain ⟨u, rest, rfl, hu, -⟩ := List.map_eq_cons_iff.1 h
  rw [readArgument.eq_def]
  simp only [hu, if_true]
  exact congrArg (fun r : List Atom × Reader => (some r.1, r.2)) hgroup

/-- Arguments are read one after the other. -/
theorem readArguments_succ {content : List Atom} {contents : List (List Atom)} {n : Nat}
    (hread : readArgument args mode s = (some content, s'))
    (hlt : s'.ahead.length < s.ahead.length)
    (hreads : readArguments args mode n s' = (.ok contents, s'')) :
    readArguments args mode (n + 1) s = (.ok (content :: contents), s'') := by
  rw [length_ahead, length_ahead] at hlt
  obtain ⟨rest, used, problems, supply⟩ := s
  cases rest with
  | nil => exact absurd hlt (Nat.not_lt_zero _)
  | cons u rest =>
      rw [readArguments.eq_def]
      simp only [hread]
      rw [capped_of_le (Nat.le_of_lt_succ hlt), hreads]

theorem readGroup_back {atoms : List Atom}
    (h : SequenceReadsBack strict .group mode (.groupEnd :: k) atoms)
    (hs : s.ahead = tokensOfList atoms ++ .groupEnd :: k) :
    ∃ atoms' s', readGroup [] mode s = (atoms', s') ∧
      atoms'.map Atom.bare = atoms.map Atom.bare ∧ Passes strict k s s' := by
  obtain ⟨atoms', s', hread, hbare, hpass⟩ := readItems_back h [] hs
  rw [List.reverse_nil, List.nil_append] at hread
  exact ⟨atoms', s'.skip, readGroup_eq hread hpass.ahead, hbare,
    hpass.trans (Passes.skip hpass.ahead)⟩

theorem readArgument_back {content : List Atom}
    (h : SequenceReadsBack strict .group mode (.groupEnd :: k) content)
    (hs : s.ahead = bracedTokens content ++ k) :
    ∃ content' s', readArgument [] mode s = (some content', s') ∧
      content'.map Atom.bare = content.map Atom.bare ∧ Passes strict k s s' := by
  have hs' : s.ahead = .groupBegin :: (tokensOfList content ++ .groupEnd :: k) := by
    rw [hs]
    simp [bracedTokens]
  obtain ⟨content', s', hread, hbare, hpass⟩ := readGroup_back h (ahead_skip hs')
  exact ⟨content', s', readArgument_groupBegin hs' hread, hbare, (Passes.skip hs').trans hpass⟩

/-- The script of an atom that has none in the slot is attached to it. -/
theorem readScript_back {slot : Slot} {a a' : Atom} {atoms : List Atom} (hslot : slot.isScript = true)
    (hk : a.kind.allowsScripts = true) (hnone : a.branch slot = none) (hne : atoms ≠ [])
    (ha : a'.bare = a.bare) (h : SequenceReadsBack strict .group mode (.groupEnd :: k) atoms)
    (hs : s.ahead = bracedTokens atoms ++ k) (span : Span) :
    ∃ b s', readScript [] slot mode (a' :: done) span s = (b :: done, s') ∧
      b.bare = (a.putBranch slot (some atoms)).bare ∧ Passes strict k s s' := by
  obtain ⟨atoms', s', hread, hbare, hpass⟩ := readArgument_back h hs
  have hk' : a'.kind.allowsScripts = true := by rw [Atom.kind_of_bare_eq ha, hk]
  have hnone' : a'.branch slot = none := by
    have hbranch := Atom.branch_of_bare_eq ha slot
    rw [hnone] at hbranch
    simpa using hbranch
  have hne' : atoms' ≠ [] := fun hnil => hne ((Atom.nil_of_map_bare_eq hbare).1 hnil)
  refine ⟨(withBranch a' slot atoms' s'.supply).1, (s'.mint (withBranch a' slot atoms')).2,
    ?_, ?_, hpass.mint _⟩
  · rw [readScript.eq_def, hread]
    simp only [attachScript, hk', if_true, hnone', Option.isNone_none]
    rfl
  · rw [withBranch_apply hk' hslot hnone', if_neg hne', Atom.bare_putBranch, Atom.bare_putBranch, ha,
      Option.map_some, Option.map_some, hbare]

theorem readArguments_back {contents : List (List Atom)}
    (h : ∀ before content after, contents = before ++ content :: after →
      SequenceReadsBack strict .group mode (.groupEnd :: argumentTokens after ++ k) content)
    (hs : s.ahead = argumentTokens contents ++ k) :
    ∃ contents' s', readArguments [] mode contents.length s = (.ok contents', s') ∧
      contents'.map (List.map Atom.bare) = contents.map (List.map Atom.bare) ∧
        Passes strict k s s' := by
  induction contents generalizing s with
  | nil =>
      refine ⟨[], s, ?_, rfl, hs, fun _ => rfl⟩
      rw [List.length_nil, readArguments.eq_def]
  | cons content contents ih =>
      have hs' : s.ahead = bracedTokens content ++ (argumentTokens contents ++ k) := by
        rw [hs]
        simp [argumentTokens]
      obtain ⟨content', s₁, hread, hbare, hpass⟩ := readArgument_back (h [] content contents rfl) hs'
      obtain ⟨contents', s', hrest, hbares, hpass'⟩ := ih
        (fun before c after heq => h (content :: before) c after (by rw [heq]; rfl)) hpass.ahead
      refine ⟨content' :: contents', s', readArguments_succ hread ?_ hrest, ?_, hpass.trans hpass'⟩
      · rw [hpass.ahead, hs']
        simp [bracedTokens]
        omega
      · simp [hbare, hbares]

/-! ## Indices and arrays -/

theorem unprotected_of_needsBraces {atoms atoms' : List Atom} (h : Writer.needsBraces atoms = false)
    (hbare : atoms'.map Atom.bare = atoms.map Atom.bare) : unprotected atoms' = atoms' := by
  unfold unprotected
  split
  · rename_i a'
    cases atoms with
    | nil => simp at hbare
    | cons a rest =>
        cases rest with
        | cons b rest => simp at hbare
        | nil =>
            have hbare : a'.bare = a.bare := by simpa using hbare
            have hgroup : a.isBareGroup = false := by simp_all [Writer.needsBraces]
            rw [Atom.isBareGroup_of_bare_eq hbare, hgroup]
            rfl
  · rfl

theorem readIndex_back {index : Option (List Atom)}
    (h : ∀ atoms, index = some atoms →
      SequenceReadsBack strict (if Writer.needsBraces atoms then .group else .bracket) .math
        (indexEnd atoms ++ k) atoms)
    (hk : k = .groupBegin :: ts) (hs : s.ahead = indexTokens index ++ k) :
    ∃ index' s', readIndex [] s = (index', s') ∧
      index'.map (List.map Atom.bare) = index.map (List.map Atom.bare) ∧ Passes strict k s s' := by
  cases index with
  | none =>
      have hs' : s.ahead = .groupBegin :: ts := hs.trans hk
      refine ⟨none, s, ?_, rfl, hs, fun _ => rfl⟩
      obtain ⟨rest, used, problems, supply⟩ := s
      obtain ⟨u, rest, rfl, hu, -⟩ := List.map_eq_cons_iff.1 hs'
      rw [readIndex.eq_def]
      simp [hu]
  | some atoms =>
      have hatoms := h atoms rfl
      suffices hitems : ∃ atoms' s', readItems [] .bracket .math [] s.skip = (atoms', s') ∧
          (unprotected atoms').map Atom.bare = atoms.map Atom.bare ∧
            Passes strict (.char ']' :: k) s s' by
        obtain ⟨atoms', s', hread, hbare, hpass⟩ := hitems
        refine ⟨some (unprotected atoms'), s'.skip, ?_, by simp [hbare],
          hpass.trans (Passes.skip hpass.ahead)⟩
        obtain ⟨rest, used, problems, supply⟩ := s
        obtain ⟨u, rest, rfl, hu, -⟩ := List.map_eq_cons_iff.1 hs
        rw [readIndex.eq_def]
        simp only [hu, if_true]
        rw [show withRest ⟨u :: rest, used, problems, supply⟩ rest =
          skip ⟨u :: rest, used, problems, supply⟩ from rfl, hread]
        simp only [peek_of_ahead hpass.ahead, if_true]
      cases hb : Writer.needsBraces atoms with
      | false =>
          have hs' : s.ahead = .char '[' :: (tokensOfList atoms ++ .char ']' :: k) := by
            rw [hs]
            simp [indexTokens, indexEnd, hb]
          have hseq : SequenceReadsBack strict .bracket .math (.char ']' :: k) atoms := by
            simpa [hb, indexEnd] using hatoms
          obtain ⟨atoms', s', hread, hbare, hpass⟩ := readItems_back hseq [] (ahead_skip hs')
          exact ⟨atoms', s', hread, by rw [unprotected_of_needsBraces hb hbare, hbare],
            (Passes.skip hs').trans hpass⟩
      | true =>
          have hs' : s.ahead =
              .char '[' :: .groupBegin :: (tokensOfList atoms ++ .groupEnd :: .char ']' :: k) := by
            rw [hs]
            simp [indexTokens, indexEnd, hb]
          have hseq : SequenceReadsBack strict .group .math (.groupEnd :: .char ']' :: k) atoms := by
            simpa [hb, indexEnd] using hatoms
          have hbegin := ahead_skip hs'
          obtain ⟨atoms', s', hread, hbare, hpass⟩ := readGroup_back hseq (ahead_skip hbegin)
          have hitem : readItem [] .math [] s.skip = _ := readItem_groupBegin hbegin
          rw [hread] at hitem
          have hpassed : Passes strict (.char ']' :: k) s
              (s'.mint (Atom.newWrapper .group none atoms')).2 :=
            (((Passes.skip hs').trans (Passes.skip hbegin)).trans hpass).mint _
          refine ⟨[(s'.mint (Atom.newWrapper .group none atoms')).1], _, ?_, ?_, hpassed⟩
          · have hle : ((s'.mint (Atom.newWrapper .group none atoms')).2).ahead.length ≤
                (tokensOfList atoms ++ .groupEnd :: .char ']' :: k).length := by
              rw [hpassed.ahead]
              simp
              omega
            rw [readItems_step hbegin rfl hitem hle]
            exact readItems_stop hpassed.ahead rfl
          · exact hbare

theorem nameChars_back {name : List Char} {rest : List SpannedToken}
    (h : rest.map SpannedToken.token = name.map .char ++ .groupEnd :: k) :
    (nameChars rest).1 = name ∧ (nameChars rest).2.map SpannedToken.token = k := by
  induction name generalizing rest with
  | nil =>
      obtain ⟨u, rest, rfl, hu, hrest⟩ := List.map_eq_cons_iff.1 h
      simp [nameChars, hu, hrest]
  | cons c name ih =>
      obtain ⟨u, rest, rfl, hu, hrest⟩ := List.map_eq_cons_iff.1 h
      obtain ⟨hname, hk⟩ := ih hrest
      simp [nameChars, hu, hname, hk]

theorem environmentName_back {name : String}
    (hs : s.ahead = .groupBegin :: name.toList.map .char ++ .groupEnd :: k) :
    ∃ s', environmentName s = (some name, s') ∧ Passes strict k s s' := by
  obtain ⟨hname, hk⟩ := nameChars_back (ahead_skip hs)
  refine ⟨s.withRest (nameChars s.rest.tail).2, ?_, hk, fun _ => rfl⟩
  have hname' : (nameChars s.rest.tail).1 = name.toList := hname
  unfold environmentName
  rw [peek_of_ahead hs]
  simp only [hname', String.ofList_toList]

theorem withoutEmptyLast_of_ne {rows : List (List (List Atom))} {cells : List (List Atom)}
    (h : cells ≠ [[]]) : withoutEmptyLast (rows ++ [cells]) = rows ++ [cells] := by
  unfold withoutEmptyLast
  split
  · rename_i row before hrev
    simp only [List.reverse_append, List.reverse_cons, List.reverse_nil, List.nil_append,
      List.singleton_append, List.cons.injEq] at hrev
    exact absurd hrev.1 h
  · rfl

section

variable {name : String} {span : Span} {cells : List (List Atom)} {rows : List (List (List Atom))}
  {content : List Atom}

theorem readRows_alignment (hread : readItems [] .cell .math [] s = (content, s'))
    (hle : s'.ahead.length ≤ s.ahead.length) (h : s'.ahead = .alignment :: ts) :
    readRows [] name span cells rows s = readRows [] name span (content :: cells) rows s'.skip := by
  rw [length_ahead, length_ahead] at hle
  rw [readRows.eq_def, hread]
  dsimp only
  rw [capped_of_le hle]
  obtain ⟨rest, used, problems, supply⟩ := s'
  obtain ⟨u, rest, rfl, hu, -⟩ := List.map_eq_cons_iff.1 h
  simp only [hu]
  rfl

theorem readRows_newRow (hread : readItems [] .cell .math [] s = (content, s'))
    (hle : s'.ahead.length ≤ s.ahead.length) (h : s'.ahead = .control "\\" :: ts) :
    readRows [] name span cells rows s =
      readRows [] name span [] ((content :: cells).reverse :: rows) s'.skip := by
  rw [length_ahead, length_ahead] at hle
  rw [readRows.eq_def, hread]
  dsimp only
  rw [capped_of_le hle]
  obtain ⟨rest, used, problems, supply⟩ := s'
  obtain ⟨u, rest, rfl, hu, -⟩ := List.map_eq_cons_iff.1 h
  simp only [hu, if_true]
  rfl

theorem readRows_end (hread : readItems [] .cell .math [] s = (content, s'))
    (hle : s'.ahead.length ≤ s.ahead.length) (h : s'.ahead = environmentEnd name k) :
    ∃ s'', readRows [] name span cells rows s =
      (withoutEmptyLast ((content :: cells).reverse :: rows).reverse, s'') ∧
        Passes strict k s' s'' := by
  have hend : s'.ahead = .control "end" :: (.groupBegin :: name.toList.map .char ++ .groupEnd :: k) := by
    rw [h]
    simp [environmentEnd, Writer.environmentTokens]
  obtain ⟨s'', hname, hpass⟩ := environmentName_back (ahead_skip hend)
  refine ⟨s'', ?_, (Passes.skip hend).trans hpass⟩
  rw [length_ahead, length_ahead] at hle
  rw [readRows.eq_def, hread]
  dsimp only
  rw [capped_of_le hle]
  obtain ⟨rest, used, problems, supply⟩ := s'
  obtain ⟨u, rest, rfl, hu, -⟩ := List.map_eq_cons_iff.1 hend
  rw [show skip ⟨u :: rest, used, problems, supply⟩ =
    withRest ⟨u :: rest, used, problems, supply⟩ rest from rfl] at hname
  simp [hu, hname]

/-- The rest of an environment is read up to its end: the cell that comes next, the cells after it
in its row, and the rows below. -/
theorem readRows_back {s : Reader} {content : List Atom} {after : List (List Atom)}
    {below : List (List (List Atom))}
    (hg : ∀ cells ∈ (content :: after) :: below, cells ≠ [] ∧ ∀ content ∈ cells, content ≠ [])
    (hrow : ∀ before c after', content :: after = before ++ c :: after' →
      SequenceReadsBack strict .cell .math
        (cellsTokens after' ++ rowsTokens below ++ environmentEnd name k) c)
    (hbelow : ∀ above cells below', below = above ++ cells :: below' →
      ∀ before c after', cells = before ++ c :: after' →
        SequenceReadsBack strict .cell .math
          (cellsTokens after' ++ rowsTokens below' ++ environmentEnd name k) c)
    (hs : s.ahead = tokensOfList content ++
      (cellsTokens after ++ rowsTokens below ++ environmentEnd name k))
    (span : Span) (cells : List (List Atom)) (rows : List (List (List Atom))) :
    ∃ row below' s', readRows [] name span cells rows s =
        (rows.reverse ++ (cells.reverse ++ row) :: below', s') ∧
      row.map (List.map Atom.bare) = (content :: after).map (List.map Atom.bare) ∧
      below'.map (List.map (List.map Atom.bare)) = below.map (List.map (List.map Atom.bare)) ∧
      Passes strict k s s' := by
  obtain ⟨content', s₁, hread, hbare, hpass⟩ := readItems_back (hrow [] content after rfl) [] hs
  rw [List.reverse_nil, List.nil_append] at hread
  have hle : s₁.ahead.length ≤ s.ahead.length := by
    rw [hpass.ahead, hs]
    simp
  match after, below with
  | next :: after, below =>
      have hnext : s₁.ahead = .alignment :: (tokensOfList next ++
          (cellsTokens after ++ rowsTokens below ++ environmentEnd name k)) := by
        rw [hpass.ahead]
        simp [cellsTokens]
      have hg' : ∀ cells ∈ (next :: after) :: below,
          cells ≠ [] ∧ ∀ content ∈ cells, content ≠ [] := by
        intro cells hmem
        rcases List.mem_cons.1 hmem with rfl | hmem
        · have hall := (hg _ List.mem_cons_self).2
          exact ⟨by simp, fun c hc => hall c (List.mem_cons_of_mem _ hc)⟩
        · exact hg cells (List.mem_cons_of_mem _ hmem)
      obtain ⟨row, below', s', hrest, hrow', hbelow', hpass'⟩ := readRows_back hg'
        (fun before c after' heq => hrow (content :: before) c after' (by rw [heq]; rfl)) hbelow
        (ahead_skip hnext) span (content' :: cells) rows
      refine ⟨content' :: row, below', s', ?_, ?_, hbelow',
        (hpass.trans (Passes.skip hnext)).trans hpass'⟩
      · rw [readRows_alignment hread hle hnext, hrest]
        simp
      · simpa [hbare] using hrow'
  | [], (next :: after) :: below =>
      have hnext : s₁.ahead = .control "\\" :: (tokensOfList next ++
          (cellsTokens after ++ rowsTokens below ++ environmentEnd name k)) := by
        rw [hpass.ahead]
        simp [cellsTokens, rowsTokens, rowTokens]
      obtain ⟨row, below', s', hrest, hrow', hbelow', hpass'⟩ := readRows_back
        (fun cells hmem => hg cells (List.mem_cons_of_mem _ hmem))
        (hbelow [] (next :: after) below rfl)
        (fun above cells below' heq => hbelow ((next :: after) :: above) cells below' (by rw [heq]; rfl))
        (ahead_skip hnext) span [] ((content' :: cells).reverse :: rows)
      refine ⟨[content'], row :: below', s', ?_, by simp [hbare], ?_,
        (hpass.trans (Passes.skip hnext)).trans hpass'⟩
      · rw [readRows_newRow hread hle hnext, hrest]
        simp
      · simp [hrow', hbelow']
  | [], [] :: below =>
      exact absurd rfl (hg [] (by simp)).1
  | [], [] =>
      have hend : s₁.ahead = environmentEnd name k := by
        rw [hpass.ahead]
        simp [cellsTokens, rowsTokens]
      obtain ⟨s', hrest, hpass'⟩ := readRows_end hread hle hend
      have hne : content' ≠ [] := by
        intro hnil
        exact (hg [content] (by simp)).2 content (by simp) ((Atom.nil_of_map_bare_eq hbare).1 hnil)
      have hlast : cells.reverse ++ [content'] ≠ [[]] := by
        intro heq
        cases hcells : cells.reverse with
        | nil => simp_all
        | cons c cs => simp [hcells] at heq
      refine ⟨[content'], [], s', ?_, by simp [hbare], rfl, hpass.trans hpass'⟩
      rw [hrest, List.reverse_cons, List.reverse_cons, withoutEmptyLast_of_ne hlast]
termination_by (below.length, after.length)

end

/-! ## Commands -/

section

variable {name : String} {m : Meaning} {span : Span}

theorem filter_find? (hf : Vocabulary.find? name = some m)
    (hm : mode = .math ∨ m.action.allowedInText = true) :
    (Vocabulary.find? name).filter (fun m => mode == .math || m.action.allowedInText) = some m := by
  rw [hf, Option.filter_some, if_pos]
  rcases hm with rfl | hm
  · rfl
  · simp [hm]

theorem readCommand_symbol {kind : Kind} {glyph : Char} (hf : Vocabulary.find? name = some m)
    (ha : m.action = .symbol kind glyph) :
    readCommand args name span mode done s =
      push done (Atom.newLeaf kind (some (Vocabulary.command name)) (some glyph)) s := by
  rw [readCommand.eq_def]
  simp only [filter_find? hf (.inr (by rw [ha]; rfl)), ha]

theorem readCommand_function (hf : Vocabulary.find? name = some m) (ha : m.action = .function) :
    readCommand args name span .math done s =
      push done (Atom.newLeaf .operator (some (Vocabulary.command name)) none) s := by
  rw [readCommand.eq_def]
  simp only [filter_find? hf (.inl rfl), ha]

theorem readCommand_space (hf : Vocabulary.find? name = some m) (ha : m.action = .space) :
    readCommand args name span mode done s =
      push done (Atom.newLeaf .space (some (Vocabulary.command name)) none) s := by
  rw [readCommand.eq_def]
  simp only [filter_find? hf (.inr (by rw [ha]; rfl)), ha]

theorem readCommand_placeholder (hs : s.ahead = .groupBegin :: .groupEnd :: k) :
    readCommand args "placeholder" span .math done s = push done Atom.newPlaceholder s.skip.skip := by
  rw [readCommand.eq_def]
  simp only [filter_find? Vocabulary.find?_placeholder (.inl rfl), peek_of_ahead hs, peek_of_ahead (ahead_skip hs), and_self,
    if_true]

theorem readCommand_begin {environment : String}
    (hn : environmentName s = (some environment, s'))
    (hknown : Vocabulary.isArrayEnvironment environment = true)
    (hle : s'.rest.length ≤ s.rest.length) :
    readCommand args "begin" span .math done s =
      push done (newArray environment (readRows args environment span [] [] s').1)
        (readRows args environment span [] [] s').2 := by
  rw [readCommand.eq_def]
  simp only [filter_find? Vocabulary.find?_begin (.inl rfl), hn, hknown, if_true, capped_of_le hle]

theorem readCommand_withArguments {index : Option (List Atom)} {contents : List (List Atom)}
    (hf : Vocabulary.find? name = some m) (ht : m.action.takesArguments = true)
    (hi : (if m.action = .radical then readIndex args s else (none, s)) = (index, s'))
    (hle : s'.rest.length ≤ s.rest.length)
    (hc : readArguments args m.action.argumentMode m.arity s' = (.ok contents, s'')) :
    readCommand args name span .math done s =
      push done (newWithArguments m.action (Vocabulary.command name) contents index) s'' := by
  unfold Action.argumentMode at hc
  rw [readCommand.eq_def]
  simp only [filter_find? hf (.inl rfl)]
  split <;> rename_i ha
  case h_8 => simp only [hi, capped_of_le hle, hc]
  all_goals
    rw [ha] at ht
    cases ht

end

end Reader

/-! ## Atoms -/

section

open Reader

variable {textless strict : Prop} {stop : Stop} {mode : ReadingMode} {done : List Atom}
  {s s' : Reader}
  {t : Token} {k ts : List Token} {a : Atom}

theorem Stop.endsAt_of_opens (h : t.opens mode = true) (hmode : mode = .text → stop = .group)
    (hb : stop = .bracket → t ≠ .char ']') : stop.endsAt t = false := by
  cases mode with
  | text =>
      obtain rfl := hmode rfl
      cases t <;> first | rfl | cases h
  | math =>
      cases t with
      | char c =>
          cases stop with
          | bracket => exact beq_eq_false_iff_ne.2 fun hc => hb rfl (congrArg Token.char hc)
          | endOfInput | group | cell => rfl
      | control name =>
          have hname : ¬name = "\\" ∧ ¬name = "end" := by simpa [Token.opens] using h
          cases stop with
          | cell =>
              show (name == "\\" || name == "end") = false
              simp [hname.1, hname.2]
          | endOfInput | group | bracket => rfl
      | groupBegin => cases stop <;> rfl
      | _ => cases h

theorem Legible.continues (h : Legible textless strict mode k a)
    (hmode : mode = .text → stop = .group) (hb : stop = .bracket → a.value ≠ some "]") :
    Continues stop a := by
  obtain ⟨t, ts, htokens, hopens, hvalue⟩ := h.tokensOf_eq_cons
  exact ⟨t, ts, htokens, Stop.endsAt_of_opens hopens hmode fun hstop ht => hb hstop (hvalue ht)⟩

/-- An item that appends one atom is read back. -/
theorem readItems_push {m : Minting Atom} (hs : s.ahead = t :: ts)
    (hstop : stop.endsAt t = false) (hitem : readItem [] mode done s = push done m s')
    (hbare : (m s'.supply).1.bare = a.bare) (hpass : Passes strict k s s')
    (hle : k.length ≤ ts.length) :
    ∃ a' s'', readItems [] stop mode done s = readItems [] stop mode (a' :: done) s'' ∧
      a'.bare = a.bare ∧ Passes strict k s s'' := by
  refine ⟨(m s'.supply).1, (s'.mint m).2, ?_, hbare, hpass.mint m⟩
  refine readItems_step hs hstop hitem ?_
  rw [show (push done m s').2 = (s'.mint m).2 from rfl, (hpass.mint m).ahead]
  exact hle

theorem InPlace.sequenceReadsBack {atoms : List Atom} (hl : InPlace (Legible textless strict mode) k atoms)
    (hr : InPlace (ReadsBack strict mode) k atoms) (hmode : mode = .text → stop = .group)
    (hb : stop = .bracket → ∀ a ∈ atoms, a.value ≠ some "]")
    (hk : k = t :: ts) (hstop : stop.endsAt t = true) :
    SequenceReadsBack strict stop mode k atoms :=
  ⟨hr, forall_mem_of_append fun before a after heq => (hl before a after heq).continues hmode
    fun hs => hb hs a (by rw [heq]; simp), t, ts, hk, hstop⟩

/-- Before the tokens that follow a cell in its array, the cell ends. -/
theorem endsAt_cell (after : List (List Atom)) (below : List (List (List Atom))) (name : String)
    (k : List Token) : ∃ t ts, cellsTokens after ++ rowsTokens below ++ environmentEnd name k = t :: ts ∧
      Stop.cell.endsAt t = true := by
  cases after with
  | cons content after => exact ⟨_, _, rfl, rfl⟩
  | nil =>
      cases below with
      | cons cells below => exact ⟨_, _, rfl, rfl⟩
      | nil => exact ⟨_, _, rfl, rfl⟩

/-! ## Reading back each kind of atom -/

/-- A command without arguments appends its atom. -/
theorem readsBack_command {name : String} {m : Minting Atom} (htokens : tokensOf a = [.control name])
    (hread : ∀ (done : List Atom) (span : Span) (s : Reader),
      readCommand [] name span mode done s = push done m s)
    (hbare : ∀ n, (m n).1.bare = a.bare) : ReadsBack strict mode k a := by
  rintro stop done s ⟨t, ts, hcons, hstop⟩ hs
  rw [htokens] at hs hcons
  cases hcons
  obtain ⟨span, hitem⟩ := readItem_control hs
  rw [hread] at hitem
  exact readItems_push hs hstop hitem (hbare _) (Passes.skip hs) (Nat.le_refl _)

theorem readsBack_placeholder (hb : a.bare = (Atom.placeholder 0).bare) :
    ReadsBack strict .math k a := by
  rintro stop done s ⟨t, ts, htokens, hstop⟩ hs
  rw [tokensOf_of_bare_eq hb, tokensOf_placeholder] at hs htokens
  cases htokens
  obtain ⟨span, hitem⟩ := readItem_control hs
  have hbegin := ahead_skip hs
  have hend := ahead_skip hbegin
  rw [readCommand_placeholder hbegin] at hitem
  refine readItems_push hs hstop hitem hb.symm
    (((Passes.skip hs).trans (Passes.skip hbegin)).trans (Passes.skip hend)) (by simp; omega)

theorem readsBack_group {atoms : List Atom}
    (h : SequenceReadsBack strict .group mode (.groupEnd :: k) atoms)
    (hb : a.bare = (Atom.newWrapper .group none atoms 0).1.bare) : ReadsBack strict mode k a := by
  rintro stop done s ⟨t, ts, htokens, hstop⟩ hs
  rw [tokensOf_of_bare_eq hb, tokensOf_group] at hs htokens
  cases htokens
  have hs' : s.ahead = .groupBegin :: (tokensOfList atoms ++ .groupEnd :: k) := by
    rw [hs]
    simp [bracedTokens]
  obtain ⟨atoms', s', hread, hbare, hpass⟩ := readGroup_back h (ahead_skip hs')
  have hitem : readItem [] mode done s = _ := readItem_groupBegin hs'
  rw [hread] at hitem
  refine readItems_push hs' hstop hitem ((Atom.bare_newGroup hbare _ _).trans hb.symm)
    ((Passes.skip hs').trans hpass) (by simp; omega)

section

variable {name : String} {m : Meaning} {contents : List (List Atom)} {index : Option (List Atom)}

/-- Only a root has an index, and what is written of it is read back before the radicand. -/
theorem indexOption_back (hi : IsApplication name m contents index)
    (hx : ∀ atoms, index = some atoms →
      SequenceReadsBack strict (if Writer.needsBraces atoms then .group else .bracket) .math
        (indexEnd atoms ++ (argumentTokens contents ++ k)) atoms)
    (hs : s.ahead = indexTokens index ++ (argumentTokens contents ++ k)) :
    ∃ index' s', (if m.action = .radical then readIndex [] s else (none, s)) = (index', s') ∧
      index'.map (List.map Atom.bare) = index.map (List.map Atom.bare) ∧
        Passes strict (argumentTokens contents ++ k) s s' := by
  by_cases hr : m.action = .radical
  · rw [if_pos hr]
    obtain ⟨content, rfl⟩ : ∃ content, contents = [content] := by
      rcases hi.contents_eq with ⟨hf, -⟩ | ⟨-, hone⟩
      · rw [hr] at hf
        cases hf
      · exact hone
    exact readIndex_back hx rfl hs
  · obtain rfl := hi.index_eq_none hr
    exact ⟨none, s, by rw [if_neg hr], rfl, hs, fun _ => rfl⟩

theorem readsBack_withArguments (hi : IsApplication name m contents index)
    (hc : ∀ before content after, contents = before ++ content :: after →
      SequenceReadsBack strict .group m.action.argumentMode
        (.groupEnd :: argumentTokens after ++ k) content)
    (hx : ∀ atoms, index = some atoms →
      SequenceReadsBack strict (if Writer.needsBraces atoms then .group else .bracket) .math
        (indexEnd atoms ++ (argumentTokens contents ++ k)) atoms)
    (hb : a.bare = (newWithArguments m.action (Vocabulary.command name) contents index 0).1.bare) :
    ReadsBack strict .math k a := by
  rintro stop done s ⟨t, ts, htokens, hstop⟩ hs
  rw [tokensOf_of_bare_eq hb, tokensOf_newWithArguments hi] at hs htokens
  cases htokens
  have hs' : s.skip.ahead = indexTokens index ++ (argumentTokens contents ++ k) := by
    rw [ahead_skip hs]
    simp
  obtain ⟨index', s₁, hindex, hbare, hpass⟩ := indexOption_back hi hx hs'
  obtain ⟨contents', s₂, hcontents, hbares, hpass'⟩ := readArguments_back hc hpass.ahead
  rw [hi.length] at hcontents
  obtain ⟨span, hitem⟩ := readItem_control hs
  have hle : s₁.rest.length ≤ s.skip.rest.length := by
    rw [← length_ahead, ← length_ahead, hpass.ahead, hs']
    simp
  rw [readCommand_withArguments hi.find hi.takesArguments hindex hle hcontents] at hitem
  exact readItems_push hs hstop hitem
    ((bare_newWithArguments_of_bare hi.takesArguments _ hbares hbare _ _).trans hb.symm)
    (((Passes.skip hs).trans hpass).trans hpass') (by simp; omega)

end

theorem readsBack_array {name : String} {rows : List (List (List Atom))}
    (hn : Vocabulary.isArrayEnvironment name = true) (hg : IsGrid rows)
    (hc : ∀ above cells below, rows = above ++ cells :: below →
      ∀ before content after, cells = before ++ content :: after →
        SequenceReadsBack strict .cell .math
          (cellsTokens after ++ rowsTokens below ++ environmentEnd name k) content)
    (hb : a.bare = (newArray name rows 0).1.bare) : ReadsBack strict .math k a := by
  rintro stop done s ⟨t, ts, htokens, hstop⟩ hs
  rw [tokensOf_of_bare_eq hb, tokensOf_newArray hg hn] at hs htokens
  cases htokens
  rcases rows with _ | ⟨_ | ⟨content, after⟩, below⟩
  · exact absurd rfl hg.ne_nil
  · exact absurd rfl (hg.filled [] List.mem_cons_self).1
  · have hs' : s.ahead = .control "begin" :: (.groupBegin :: name.toList.map .char ++ .groupEnd ::
        (tokensOfList content ++ (cellsTokens after ++ rowsTokens below ++ environmentEnd name k))) := by
      rw [hs]
      simp [Writer.environmentTokens, gridTokens, rowTokens, environmentEnd]
    obtain ⟨s₁, hname, hpass⟩ : ∃ s₁, environmentName s.skip = (some name, s₁) ∧
      Passes strict _ s.skip s₁ := environmentName_back (ahead_skip hs')
    obtain ⟨span, hitem⟩ := readItem_control hs'
    obtain ⟨row, below', s₂, hread, hrow, hbelow, hpass'⟩ := readRows_back hg.filled
      (hc [] (content :: after) below rfl)
      (fun above cells below' heq =>
        hc ((content :: after) :: above) cells below' (by rw [heq]; rfl))
      hpass.ahead span [] []
    have hle : s₁.rest.length ≤ s.skip.rest.length := by
      rw [← length_ahead, ← length_ahead, hpass.ahead, ahead_skip hs']
      simp
      omega
    have hrows : ([] ++ ([] ++ row) :: below').map (List.map (List.map Atom.bare)) =
        ((content :: after) :: below).map (List.map (List.map Atom.bare)) := by
      simp [hrow, hbelow]
    rw [readCommand_begin hname hn hle, hread] at hitem
    exact readItems_push hs' hstop hitem ((bare_newArray_of_bare name hrows _ _).trans hb.symm)
      (((Passes.skip hs').trans hpass).trans hpass') (by simp [environmentEnd]; omega)

theorem endsAt_scriptToken (stop : Stop) (slot : Slot) : stop.endsAt (scriptToken slot) = false := by
  unfold scriptToken
  split <;> cases stop <;> rfl

/-- A script is read after the atom that has it, and attached to that atom. -/
theorem readsBack_script {b : Atom} {slot : Slot} {atoms : List Atom}
    (ha : ReadsBack strict mode (scriptTokens slot atoms ++ k) a) (hcons : ∃ t ts, tokensOf a = t :: ts)
    (hslot : slot.isScript = true) (hk : a.kind.allowsScripts = true) (hnone : a.branch slot = none)
    (hsup : a.branch .superscript = none) (hne : atoms ≠ [])
    (h : SequenceReadsBack strict .group mode (.groupEnd :: k) atoms)
    (hb : b.bare = (a.putBranch slot (some atoms)).bare) : ReadsBack strict mode k b := by
  rintro stop done s ⟨t, ts, htokens, hstop⟩ hs
  obtain ⟨t', ts', htokens'⟩ := hcons
  rw [tokensOf_of_bare_eq hb, tokensOf_putBranch hslot hnone hsup] at hs htokens
  rw [htokens', List.cons_append, List.cons.injEq] at htokens
  rw [List.append_assoc] at hs
  obtain ⟨a', s₁, hread, hbare, hpass⟩ := ha stop done s ⟨t', ts', htokens', htokens.1 ▸ hstop⟩ hs
  have hs₁ : s₁.ahead = scriptToken slot :: (bracedTokens atoms ++ k) := hpass.ahead
  obtain ⟨span, hitem⟩ := readItem_script hslot hs₁
  obtain ⟨b', s', hscript, hbare', hpass'⟩ :=
    readScript_back hslot hk hnone hne hbare h (ahead_skip hs₁) span
  rw [hscript] at hitem
  refine ⟨b', s', ?_, hbare'.trans hb.symm, (hpass.trans (Passes.skip hs₁)).trans hpass'⟩
  rw [hread, readItems_step hs₁ (endsAt_scriptToken stop slot) hitem (by rw [hpass'.ahead]; simp)]

/-- An index that is written without braces has no bracket that ends it. -/
theorem InPlace.sequenceReadsBack_index {atoms : List Atom}
    (hl : InPlace (Legible textless strict .math) (indexEnd atoms ++ k) atoms)
    (hr : InPlace (ReadsBack strict .math) (indexEnd atoms ++ k) atoms) :
    SequenceReadsBack strict (if Writer.needsBraces atoms then .group else .bracket) .math
      (indexEnd atoms ++ k) atoms := by
  cases hbraces : Writer.needsBraces atoms with
  | true =>
      rw [indexEnd, hbraces] at hl hr ⊢
      exact InPlace.sequenceReadsBack hl hr ReadingMode.noConfusion Stop.noConfusion rfl rfl
  | false =>
      have hvalue : ∀ a ∈ atoms, a.value ≠ some "]" := by
        simp_all [Writer.needsBraces]
      rw [indexEnd, hbraces] at hl hr ⊢
      exact InPlace.sequenceReadsBack hl hr ReadingMode.noConfusion (fun _ => hvalue) rfl rfl

/-- Legible atoms are read back. -/
theorem Legible.readsBack (h : Legible textless strict mode k a) : ReadsBack strict mode k a := by
  induction h with
  | char hstrict hc hprime hb =>
      rintro stop done s ⟨t, ts, htokens, hstop⟩ hs
      rw [tokensOf_of_bare_eq hb, tokensOf_newMathChar hc hprime] at hs htokens
      cases htokens
      exact readItems_push hs hstop (readItem_char hs hprime)
        ((bare_newMathChar _ _ _).trans hb.symm) (Passes.skip hs) (Nat.le_refl _)
  | textChar hc hb =>
      rintro stop done s ⟨t, ts, htokens, hstop⟩ hs
      rw [tokensOf_of_bare_eq hb, tokensOf_newChar hc] at hs htokens
      cases htokens
      exact readItems_push hs hstop (readItem_textChar hs) hb.symm (Passes.skip hs) (Nat.le_refl _)
  | symbol hf ha hb =>
      have htokens := (tokensOf_of_bare_eq hb).trans (tokensOf_command
        (Vocabulary.isSpelled_of_symbol hf ha).1 (Vocabulary.isProperName_of_find? hf) 0)
      exact readsBack_command htokens (fun _ _ _ => readCommand_symbol hf ha) fun _ => hb.symm
  | function hf ha hb =>
      have htokens := (tokensOf_of_bare_eq hb).trans
        (tokensOf_command rfl (Vocabulary.isProperName_of_find? hf) 0)
      exact readsBack_command htokens (fun _ _ _ => readCommand_function hf ha) fun _ => hb.symm
  | space hf ha hb =>
      have htokens := (tokensOf_of_bare_eq hb).trans
        (tokensOf_command rfl (Vocabulary.isProperName_of_find? hf) 0)
      exact readsBack_command htokens (fun _ _ _ => readCommand_space hf ha) fun _ => hb.symm
  | unknown hstrict hfind hn hname hk hb =>
      rintro stop done s ⟨t, ts, htokens, hstop⟩ hs
      rw [tokensOf_of_bare_eq hb, tokensOf_command rfl hn] at hs htokens
      cases htokens
      obtain ⟨span, hitem⟩ := readItem_control hs
      obtain ⟨hrest, n, hread⟩ := hk span done s.skip (ahead_skip hs)
      have hahead := congrArg (List.map SpannedToken.token) hrest
      replace hahead := hahead.trans (ahead_skip hs)
      have hstep := readItems_step hs hstop hitem (Nat.le_of_eq (congrArg List.length hahead))
      rw [hread] at hstep
      exact ⟨_, _, hstep, hb.symm, hahead, fun h => absurd h hstrict⟩
  | placeholder hb => exact readsBack_placeholder hb
  | group hc hb ih =>
      exact readsBack_group
        (InPlace.sequenceReadsBack hc ih (fun _ => rfl) Stop.noConfusion rfl rfl) hb
  | withArguments hstrict hi hc hx hb ihc ihx =>
      refine readsBack_withArguments hi (fun before content after heq => ?_)
        (fun atoms hatoms => ?_) hb
      · exact InPlace.sequenceReadsBack (hc before content after heq) (ihc before content after heq)
          (fun _ => rfl) Stop.noConfusion rfl rfl
      · have hl := hx atoms hatoms
        have hr := ihx atoms hatoms
        rw [List.append_assoc] at hl hr
        exact InPlace.sequenceReadsBack_index hl hr
  | @array k a name rows hn hg hc hb ih =>
      refine readsBack_array hn hg
        (fun above cells below hrows before content after hcells => ?_) hb
      obtain ⟨t, ts, hk, hends⟩ := endsAt_cell after below name k
      exact InPlace.sequenceReadsBack (hc above cells below hrows before content after hcells)
        (ih above cells below hrows before content after hcells)
        ReadingMode.noConfusion Stop.noConfusion hk hends
  | script ha hslot hk hnone hsup hne hc hb ih ihc =>
      obtain ⟨t, ts, htokens, -⟩ := ha.tokensOf_eq_cons
      exact readsBack_script ih ⟨t, ts, htokens⟩ hslot hk hnone hsup hne
        (InPlace.sequenceReadsBack hc ihc (fun _ => rfl) Stop.noConfusion rfl rfl) hb

/-! ## Formulas -/

/-- Tokens of a legible formula are read as a formula that is alike. -/
theorem parse_back {atoms : List Atom} (h : LegibleList textless strict .math [.endOfInput] atoms)
    {tokens : List SpannedToken}
    (ht : tokens.map SpannedToken.token = tokensOfList atoms ++ [.endOfInput]) (supply : Nat) :
    (parse tokens .math [] supply).1.atoms.map Atom.bare = atoms.map Atom.bare ∧
      (strict → (parse tokens .math [] supply).1.diagnostics = []) := by
  have hseq : SequenceReadsBack strict .endOfInput .math [.endOfInput] atoms :=
    InPlace.sequenceReadsBack h (fun before a after heq => (h before a after heq).readsBack)
      nofun nofun rfl rfl
  have hahead : (Reader.start tokens supply).ahead = tokensOfList atoms ++ [.endOfInput] := ht
  obtain ⟨atoms', s', hread, hbare, hpass⟩ := readItems_back hseq [] hahead
  rw [List.reverse_nil, List.nil_append] at hread
  refine ⟨?_, fun hs => ?_⟩
  · simp only [parse, readAll, hread, hbare]
  · simp only [parse, readAll, hread, hpass.problems hs]
    rfl

end

end FormulaEditor.Latex

import FormulaEditor.Proofs.Latex.Legible

/-!
# Reading does not depend on identities

Two readings of one token stream that start with different supplies of identities, or with arguments
that differ in identities, go the same way: they make alike atoms, leave the same tokens and report
the same problems. So what a source stands for is a formula up to identities, whenever it is read.
-/

namespace FormulaEditor.Latex

/-- The sequence without identities and marks. -/
abbrev bares (atoms : List Atom) : List Atom :=
  atoms.map Atom.bare

/-- Two lists of arguments that stand for alike atoms. A missing argument stands for as much as an
empty one. -/
def SameArguments (args args' : List (List Atom)) : Prop :=
  ∀ i : Nat, bares (args[i]?.getD []) = bares (args'[i]?.getD [])

namespace Reader

/-- Two states that differ in the supply of identities only. -/
structure Twin (s s' : Reader) : Prop where
  rest : s.rest = s'.rest
  used : s.used = s'.used
  problems : s.problems = s'.problems

/-- Two results that show the same and leave twin states. -/
structure Twins {α β : Type} (shown : α → β) (r r' : α × Reader) : Prop where
  made : shown r.1 = shown r'.1
  state : Twin r.2 r'.2

namespace Twin

variable {s s' : Reader}

theorem withRest (h : Twin s s') (rest : List SpannedToken) :
    Twin (s.withRest rest) (s'.withRest rest) :=
  ⟨rfl, h.used, h.problems⟩

theorem skip (h : Twin s s') : Twin s.skip s'.skip :=
  ⟨congrArg List.tail h.rest, h.used, h.problems⟩

theorem report (h : Twin s s') (span : Span) (problem : Problem) :
    Twin (s.report span problem) (s'.report span problem) :=
  ⟨h.rest, h.used, by simp only [Reader.report, h.problems]⟩

theorem mint (h : Twin s s') {α : Type} (m m' : Minting α) : Twin (s.mint m).2 (s'.mint m').2 :=
  ⟨h.rest, h.used, h.problems⟩

theorem capped (h : Twin s s') (n : Nat) : Twin (s.capped n) (s'.capped n) :=
  ⟨by simp only [Reader.capped, Reader.withRest, h.rest], h.used, h.problems⟩

theorem rewind (h : Twin s s') (s₁ s₁' : Reader) : Twin (s.rewind s₁) (s'.rewind s₁') :=
  ⟨h.rest, h.used, h.problems⟩

theorem peek (h : Twin s s') : s.peek = s'.peek := by
  simp only [Reader.peek, h.rest]

end Twin

variable {args args' : List (List Atom)} {mode : ReadingMode} {done done' : List Atom}
  {s s' : Reader}

theorem twins_push (hd : bares done = bares done') (h : Twin s s') {m m' : Minting Atom}
    (hm : ∀ n n', (m n).1.bare = (m' n').1.bare) : Twins bares (push done m s) (push done' m' s') :=
  ⟨List.cons_eq_cons.2 ⟨hm _ _, hd⟩, h.mint m m'⟩

theorem twins_pushUnknown (hd : bares done = bares done') (h : Twin s s') (command : String)
    (problem : Problem) (span : Span) :
    Twins bares (pushUnknown done command problem span s)
      (pushUnknown done' command problem span s') :=
  twins_push hd (h.report span problem) fun _ _ => rfl

theorem isEmpty_of_bares_eq {as bs : List Atom} (h : bares as = bares bs) :
    as.isEmpty = bs.isEmpty := by
  cases as <;> cases bs <;> simp_all [bares]

theorem bare_withBranch {a a' : Atom} (ha : a.bare = a'.bare) {content content' : List Atom}
    (hc : bares content = bares content') (slot : Slot) (n n' : Nat) :
    (withBranch a slot content n).1.bare = (withBranch a' slot content' n').1.bare := by
  have hkind := Atom.kind_of_bare_eq ha
  have hsome := Atom.isSome_branch_of_bare_eq ha slot
  have hempty := isEmpty_of_bares_eq hc
  have hrequires : a.requiresContent slot = a'.requiresContent slot := by
    cases slot <;> simp only [Atom.requiresContent, hkind]
  have hput (allowed : Bool) :
      ((if allowed then
        some (a.putBranch slot (some (if content'.isEmpty && a'.requiresContent slot then
          [Atom.placeholder n] else content))) else none).getD a).bare =
      ((if allowed then
        some (a'.putBranch slot (some (if content'.isEmpty && a'.requiresContent slot then
          [Atom.placeholder n'] else content'))) else none).getD a').bare := by
    split
    · simp only [Option.getD_some, Atom.bare_putBranch, ha, Option.map_some]
      split
      · rfl
      · rw [show content.map Atom.bare = content'.map Atom.bare from hc]
    · exact ha
  simp only [withBranch, Minting.bind_apply, newIdentity_apply, Minting.pure_apply, Atom.setBranch,
    hkind, hsome, hempty, hrequires]
  split
  · simp only [Option.getD_some, Atom.bare_putBranch, ha, Option.map_none]
  · exact hput _

theorem twins_attachScript (slot : Slot) {content content' : List Atom}
    (hc : bares content = bares content') (hd : bares done = bares done') (h : Twin s s')
    (span : Span) :
    Twins bares (attachScript slot content done span s)
      (attachScript slot content' done' span s') := by
  have hplaceholder (n n' : Nat) : (Atom.placeholder n).bare = (Atom.placeholder n').bare := rfl
  unfold attachScript
  cases done with
  | nil =>
      obtain rfl := List.map_eq_nil_iff.1 hd.symm
      exact twins_push rfl h fun n n' => bare_withBranch (hplaceholder n n') hc slot _ _
  | cons last before =>
      cases done' with
      | nil => cases hd
      | cons last' before' =>
          obtain ⟨hlast, hbefore⟩ := List.cons_eq_cons.1 hd
          have hsome := Atom.isSome_branch_of_bare_eq hlast slot
          simp only [Atom.kind_of_bare_eq hlast, ← Option.not_isSome, hsome]
          split
          · split
            · exact twins_push hbefore h fun n n' => bare_withBranch hlast hc slot _ _
            · refine twins_push hd (h.report span .duplicateScript) fun n n' => ?_
              refine bare_withBranch ?_ hc slot _ _
              rfl
          · exact twins_push hd h fun n n' => bare_withBranch (hplaceholder n n') hc slot _ _

theorem all_isPrime_of_bares_eq {as bs : List Atom} (h : bares as = bares bs) :
    as.all (fun a => a.value == some primeCommand) =
      bs.all fun a => a.value == some primeCommand := by
  induction as generalizing bs with
  | nil =>
      obtain rfl := List.map_eq_nil_iff.1 h.symm
      rfl
  | cons a as ih =>
      cases bs with
      | nil => cases h
      | cons b bs =>
          obtain ⟨ha, hrest⟩ := List.cons_eq_cons.1 h
          simp only [List.all_cons, Atom.value_of_bare_eq ha, ih hrest]

theorem twins_attachPrime (hd : bares done = bares done') (h : Twin s s') (span : Span) :
    Twins bares (attachPrime done span s) (attachPrime done' span s') := by
  have hprime : bares [(s.mint newPrime).1] = bares [(s'.mint newPrime).1] := rfl
  have hattach := twins_attachScript .superscript hprime hd (h.mint newPrime newPrime) span
  unfold attachPrime
  cases done with
  | nil =>
      obtain rfl := List.map_eq_nil_iff.1 hd.symm
      exact hattach
  | cons last before =>
      cases done' with
      | nil => cases hd
      | cons last' before' =>
          obtain ⟨hlast, hbefore⟩ := List.cons_eq_cons.1 hd
          have hbranch := Atom.branch_of_bare_eq hlast .superscript
          simp only
          cases hsup : last.branch .superscript with
          | none =>
              rw [hsup, Option.map_none] at hbranch
              rw [Option.map_eq_none_iff.1 hbranch.symm]
              exact hattach
          | some sup =>
              rw [hsup, Option.map_some] at hbranch
              obtain ⟨sup', hsup', heq⟩ := Option.map_eq_some_iff.1 hbranch.symm
              simp only [hsup', Atom.kind_of_bare_eq hlast,
                all_isPrime_of_bares_eq (heq : bares sup' = bares sup)]
              split
              · refine ⟨List.cons_eq_cons.2 ⟨?_, hbefore⟩, h.mint newPrime newPrime⟩
                rw [Atom.bare_putBranch, Atom.bare_putBranch, hlast, Option.map_some,
                  Option.map_some, List.map_append, List.map_append, heq]
                rfl
              · exact hattach

theorem substitute_index (args : List (List Atom)) (i : Nat) (s : Reader) :
    substitute args (.index i) s =
      if args[i]?.getD [] = [] then s.mint (Atom.filled [])
      else if s.used.contains i then s.mint (Atom.relabelList (args[i]?.getD []))
      else (args[i]?.getD [], { s with used := i :: s.used }) := by
  unfold substitute
  simp only
  split
  · rename_i hnone
    simp [hnone]
  · rename_i hnil
    simp [hnil]
  · rename_i atoms hne hsome
    have hne' : atoms ≠ [] := hne
    simp [hsome, hne']

theorem bares_relabelList (atoms : List Atom) (n : Nat) :
    bares (Atom.relabelList atoms n).1 = bares atoms := by
  have hbare := Atom.bare_relabelList atoms n
  rwa [Atom.mapLabelsOfList_eq_map, Atom.mapLabelsOfList_eq_map] at hbare

theorem twins_substitute (ha : SameArguments args args') (h : Twin s s') (ref : ArgumentRef) :
    Twins bares (substitute args ref s) (substitute args' ref s') := by
  have hfilled : Twins bares (s.mint (Atom.filled [])) (s'.mint (Atom.filled [])) :=
    ⟨rfl, h.mint _ _⟩
  have hindex (i : Nat) :
      Twins bares (substitute args (.index i) s) (substitute args' (.index i) s') := by
    have hargs := ha i
    rw [substitute_index, substitute_index]
    simp only [Atom.nil_of_map_bare_eq hargs, h.used]
    split
    · exact hfilled
    · split
      · refine ⟨?_, h.mint _ _⟩
        exact (bares_relabelList _ _).trans (hargs.trans (bares_relabelList _ _).symm)
      · exact ⟨hargs, h.rest, rfl, h.problems⟩
  cases ref with
  | index i => exact hindex i
  | implicit => exact hindex 0
  | placeholder => exact hfilled

theorem twins_environmentName (h : Twin s s') :
    Twins id (environmentName s) (environmentName s') := by
  unfold environmentName
  rw [h.peek]
  split
  · rw [h.rest]
    exact ⟨rfl, h.withRest _⟩
  · exact ⟨rfl, h⟩

theorem bares_unprotected {as bs : List Atom} (h : bares as = bares bs) :
    bares (unprotected as) = bares (unprotected bs) := by
  unfold unprotected
  match as, bs with
  | [], [] => rfl
  | [a], [b] =>
      have hab : a.bare = b.bare := (List.cons_eq_cons.1 h).1
      simp only [Atom.isBareGroup_of_bare_eq hab]
      split
      · exact Atom.body_of_bare_eq hab
      · exact h
  | _ :: _ :: _, _ :: _ :: _ => exact h
  | [], _ :: _ => cases h
  | _ :: _, [] => cases h
  | [_], _ :: _ :: _ => simp [bares] at h
  | _ :: _ :: _, [_] => simp [bares] at h

theorem bares_reverse {as bs : List Atom} (h : bares as = bares bs) :
    bares as.reverse = bares bs.reverse := by
  rw [bares, bares, List.map_reverse, List.map_reverse]
  exact congrArg List.reverse h

theorem bares_append {as bs cs ds : List Atom} (h : bares as = bares bs) (h' : bares cs = bares ds) :
    bares (as ++ cs) = bares (bs ++ ds) := by
  rw [bares, bares, List.map_append, List.map_append]
  exact congr (congrArg HAppend.hAppend h) h'

theorem map_reverse_eq {α β : Type} {f : α → β} {as bs : List α} (h : as.map f = bs.map f) :
    as.reverse.map f = bs.reverse.map f := by
  rw [List.map_reverse, List.map_reverse, h]

theorem map_bares_flatten {rows rows' : List (List (List Atom))}
    (h : rows.map (List.map bares) = rows'.map (List.map bares)) :
    rows.flatten.map bares = rows'.flatten.map bares := by
  rw [List.map_flatten, List.map_flatten, h]

theorem bares_flatten {ass bss : List (List Atom)} (h : ass.map bares = bss.map bares) :
    bares ass.flatten = bares bss.flatten := by
  rw [bares, bares, List.map_flatten, List.map_flatten]
  exact congrArg List.flatten h

/-- An empty row at the end is found in alike rows, too. -/
theorem exists_emptyLast {rows rows' : List (List (List Atom))}
    (h : rows.map (List.map bares) = rows'.map (List.map bares)) {row : List (List Atom)}
    {before : List (List (List Atom))} (hrev : rows.reverse = [[]] :: row :: before) :
    ∃ row' before', rows'.reverse = [[]] :: row' :: before' ∧
      (row :: before).map (List.map bares) = (row' :: before').map (List.map bares) := by
  have hmap := map_reverse_eq h
  rw [hrev] at hmap
  obtain ⟨last, below, hrev', hlast, hbelow⟩ := List.map_eq_cons_iff.1 hmap.symm
  obtain ⟨row', before', rfl, -, -⟩ := List.map_eq_cons_iff.1 hbelow
  obtain ⟨cell, none, rfl, hcell, hnone⟩ := List.map_eq_cons_iff.1 hlast
  obtain rfl := List.map_eq_nil_iff.1 hcell
  obtain rfl := List.map_eq_nil_iff.1 hnone
  exact ⟨row', before', hrev', hbelow.symm⟩

theorem map_bares_withoutEmptyLast {rows rows' : List (List (List Atom))}
    (h : rows.map (List.map bares) = rows'.map (List.map bares)) :
    (withoutEmptyLast rows).map (List.map bares) = (withoutEmptyLast rows').map (List.map bares) := by
  unfold withoutEmptyLast
  split
  · rename_i row before hrev
    obtain ⟨row', before', hrev', hmap⟩ := exists_emptyLast h hrev
    simp only [hrev']
    exact map_reverse_eq hmap
  · rename_i hother
    split
    · rename_i row' before' hrev'
      obtain ⟨row, before, hrev, -⟩ := exists_emptyLast h.symm hrev'
      exact (hother row before hrev).elim
    · exact h

/-! ## Every reading function -/

theorem length_capped_lt_cons (s : Reader) (t : SpannedToken) (rest : List SpannedToken) :
    (s.capped rest.length).rest.length < (t :: rest).length := by
  have hle := length_capped s rest.length
  rw [List.length_cons]
  omega

theorem length_withRest_lt (s : Reader) (t : SpannedToken) (rest : List SpannedToken) :
    (s.withRest rest).rest.length < (t :: rest).length :=
  Nat.lt_succ_self _

mutual

theorem twins_readItems (ha : SameArguments args args') (stop : Stop) (mode : ReadingMode)
    {done done' : List Atom} (hd : bares done = bares done') : (s : Reader) → {s' : Reader} →
    Twin s s' →
    Twins bares (readItems args stop mode done s) (readItems args' stop mode done' s')
  | ⟨[], used, problems, n⟩, ⟨_, _, _, n'⟩, ⟨rfl, rfl, rfl⟩ => by
      rw [readItems.eq_def, readItems.eq_def args']
      exact ⟨bares_reverse hd, rfl, rfl, rfl⟩
  | ⟨t :: rest, used, problems, n⟩, ⟨_, _, _, n'⟩, ⟨rfl, rfl, rfl⟩ => by
      have htwin : Twin ⟨t :: rest, used, problems, n⟩ ⟨t :: rest, used, problems, n'⟩ :=
        ⟨rfl, rfl, rfl⟩
      have hitem := twins_readItem ha mode hd ⟨t :: rest, used, problems, n⟩ htwin
      have hlt := length_capped_lt_cons (readItem args mode done ⟨t :: rest, used, problems, n⟩).2
        t rest
      rw [readItems.eq_def, readItems.eq_def args']
      simp only
      split
      · exact ⟨bares_reverse hd, rfl, rfl, rfl⟩
      · exact twins_readItems ha stop mode hitem.made _ (hitem.state.capped rest.length)
termination_by s => 4 * s.rest.length + 1
decreasing_by
  all_goals omega

theorem twins_readItem (ha : SameArguments args args') (mode : ReadingMode)
    {done done' : List Atom} (hd : bares done = bares done') : (s : Reader) → {s' : Reader} →
    Twin s s' → Twins bares (readItem args mode done s) (readItem args' mode done' s')
  | ⟨[], used, problems, n⟩, ⟨_, _, _, n'⟩, ⟨rfl, rfl, rfl⟩ => by
      rw [readItem.eq_def, readItem.eq_def args']
      exact ⟨hd, rfl, rfl, rfl⟩
  | ⟨t :: rest, used, problems, n⟩, ⟨_, _, _, n'⟩, ⟨rfl, rfl, rfl⟩ => by
      have hafter : Twin (withRest ⟨t :: rest, used, problems, n⟩ rest)
          (withRest ⟨t :: rest, used, problems, n'⟩ rest) := ⟨rfl, rfl, rfl⟩
      have hlt := length_withRest_lt ⟨t :: rest, used, problems, n⟩ t rest
      rw [readItem.eq_def, readItem.eq_def args']
      simp only
      split
      · exact ⟨hd, hafter⟩
      · exact twins_readScript ha .superscript mode hd t.span _ hafter
      · exact twins_readScript ha .subscript mode hd t.span _ hafter
      · split
        · split
          · exact twins_attachPrime hd hafter t.span
          · exact twins_push hd hafter fun _ _ => bare_newMathChar _ _ _
        · exact twins_push hd hafter fun _ _ => rfl
      · have hgroup := twins_readGroup ha mode _ hafter
        exact twins_push hd hgroup.state fun _ _ => Atom.bare_newGroup hgroup.made _ _
      · exact ⟨hd, hafter.report t.span .unmatchedClose⟩
      · exact twins_push hd (hafter.report t.span (.disallowedChar '&')) fun _ _ => rfl
      · rename_i ref _
        have hsub := twins_substitute ha hafter ref
        exact ⟨bares_append (bares_reverse hsub.made) hd, hsub.state⟩
      · exact twins_readCommand ha _ t.span mode hd _ hafter
termination_by s => 4 * s.rest.length
decreasing_by
  all_goals omega

theorem twins_readGroup (ha : SameArguments args args') (mode : ReadingMode) (s : Reader)
    {s' : Reader} (h : Twin s s') :
    Twins bares (readGroup args mode s) (readGroup args' mode s') := by
  have hitems := twins_readItems ha .group mode (rfl : bares [] = bares []) s h
  rw [readGroup.eq_def, readGroup.eq_def args']
  simp only [hitems.state.peek]
  split
  · exact ⟨hitems.made, hitems.state.skip⟩
  · exact hitems
termination_by 4 * s.rest.length + 2

theorem twins_readArgument (ha : SameArguments args args') (mode : ReadingMode) :
    (s : Reader) → {s' : Reader} → Twin s s' →
    Twins (Option.map bares) (readArgument args mode s) (readArgument args' mode s')
  | ⟨[], used, problems, n⟩, ⟨_, _, _, n'⟩, ⟨rfl, rfl, rfl⟩ => by
      rw [readArgument.eq_def, readArgument.eq_def args']
      exact ⟨rfl, rfl, rfl, rfl⟩
  | ⟨t :: rest, used, problems, n⟩, ⟨_, _, _, n'⟩, ⟨rfl, rfl, rfl⟩ => by
      have htwin : Twin ⟨t :: rest, used, problems, n⟩ ⟨t :: rest, used, problems, n'⟩ :=
        ⟨rfl, rfl, rfl⟩
      have hlt := length_withRest_lt ⟨t :: rest, used, problems, n⟩ t rest
      rw [readArgument.eq_def, readArgument.eq_def args']
      simp only
      split
      · have hgroup := twins_readGroup ha mode (withRest ⟨t :: rest, used, problems, n⟩ rest)
          (htwin.withRest rest)
        exact ⟨congrArg some hgroup.made, hgroup.state⟩
      · split
        · exact ⟨rfl, rfl, rfl, rfl⟩
        · have hitem := twins_readItem ha mode (rfl : bares [] = bares [])
            ⟨t :: rest, used, problems, n⟩ htwin
          exact ⟨congrArg some (bares_reverse hitem.made), hitem.state⟩
termination_by s => 4 * s.rest.length + 1
decreasing_by
  all_goals omega

theorem twins_readScript (ha : SameArguments args args') (slot : Slot) (mode : ReadingMode)
    {done done' : List Atom} (hd : bares done = bares done') (span : Span) (s : Reader)
    {s' : Reader} (h : Twin s s') :
    Twins bares (readScript args slot mode done span s)
      (readScript args' slot mode done' span s') := by
  have hargument := twins_readArgument ha mode s h
  have hmade := hargument.made
  rw [readScript.eq_def, readScript.eq_def args']
  simp only
  cases hcontent : (readArgument args mode s).1 with
  | none =>
      rw [hcontent] at hmade
      rw [Option.map_eq_none_iff.1 hmade.symm]
      refine twins_attachScript slot ?_ hd
        ((hargument.state.report span .missingArgument).mint (Atom.filled []) (Atom.filled [])) span
      rfl
  | some content =>
      rw [hcontent] at hmade
      obtain ⟨content', hcontent', hbares⟩ := Option.map_eq_some_iff.1 hmade.symm
      rw [hcontent']
      exact twins_attachScript slot hbares.symm hd hargument.state span
termination_by 4 * s.rest.length + 2

theorem twins_readArguments (ha : SameArguments args args') (mode : ReadingMode) : (count : Nat) →
    (s : Reader) → {s' : Reader} → Twin s s' →
    Twins (Except.map (List.map bares)) (readArguments args mode count s)
      (readArguments args' mode count s')
  | 0, s, s', h => by
      rw [readArguments.eq_def, readArguments.eq_def args']
      exact ⟨rfl, h⟩
  | count + 1, ⟨[], used, problems, n⟩, ⟨_, _, _, n'⟩, ⟨rfl, rfl, rfl⟩ => by
      rw [readArguments.eq_def, readArguments.eq_def args']
      exact ⟨rfl, rfl, rfl, rfl⟩
  | count + 1, ⟨t :: rest, used, problems, n⟩, ⟨_, _, _, n'⟩, ⟨rfl, rfl, rfl⟩ => by
      have htwin : Twin ⟨t :: rest, used, problems, n⟩ ⟨t :: rest, used, problems, n'⟩ :=
        ⟨rfl, rfl, rfl⟩
      have hfirst := twins_readArgument ha mode ⟨t :: rest, used, problems, n⟩ htwin
      have hmade := hfirst.made
      have hlt := length_capped_lt_cons (readArgument args mode ⟨t :: rest, used, problems, n⟩).2
        t rest
      rw [readArguments.eq_def, readArguments.eq_def args']
      simp only
      cases hcontent : (readArgument args mode ⟨t :: rest, used, problems, n⟩).1 with
      | none =>
          rw [hcontent] at hmade
          rw [Option.map_eq_none_iff.1 hmade.symm]
          exact ⟨rfl, hfirst.state⟩
      | some content =>
          rw [hcontent] at hmade
          obtain ⟨content', hcontent', hbares⟩ := Option.map_eq_some_iff.1 hmade.symm
          rw [hcontent']
          have hothers := twins_readArguments ha mode count _ (hfirst.state.capped rest.length)
          have hmades := hothers.made
          simp only
          cases hcontents : (readArguments args mode count
            ((readArgument args mode ⟨t :: rest, used, problems, n⟩).2.capped rest.length)).1 <;>
          cases hcontents' : (readArguments args' mode count
            ((readArgument args' mode ⟨t :: rest, used, problems, n'⟩).2.capped rest.length)).1 <;>
          rw [hcontents, hcontents'] at hmades
          · cases hmades
            exact ⟨rfl, hothers.state⟩
          · cases hmades
          · cases hmades
          · refine ⟨?_, hothers.state⟩
            simp only [Except.map, Except.ok.injEq, List.map_cons] at hmades ⊢
            rw [hmades, hbares]
termination_by _ s => 4 * s.rest.length + 2
decreasing_by
  all_goals omega

theorem twins_readIndex (ha : SameArguments args args') : (s : Reader) → {s' : Reader} →
    Twin s s' → Twins (Option.map bares) (readIndex args s) (readIndex args' s')
  | ⟨[], used, problems, n⟩, ⟨_, _, _, n'⟩, ⟨rfl, rfl, rfl⟩ => by
      rw [readIndex.eq_def, readIndex.eq_def args']
      exact ⟨rfl, rfl, rfl, rfl⟩
  | ⟨t :: rest, used, problems, n⟩, ⟨_, _, _, n'⟩, ⟨rfl, rfl, rfl⟩ => by
      have htwin : Twin ⟨t :: rest, used, problems, n⟩ ⟨t :: rest, used, problems, n'⟩ :=
        ⟨rfl, rfl, rfl⟩
      have hlt := length_withRest_lt ⟨t :: rest, used, problems, n⟩ t rest
      rw [readIndex.eq_def, readIndex.eq_def args']
      simp only
      split
      · have hitems := twins_readItems ha .bracket .math (rfl : bares [] = bares [])
          (withRest ⟨t :: rest, used, problems, n⟩ rest) (htwin.withRest rest)
        have hindex := congrArg some (bares_unprotected hitems.made)
        simp only [hitems.state.peek]
        split
        · exact ⟨hindex, hitems.state.skip⟩
        · exact ⟨hindex, hitems.state⟩
      · exact ⟨rfl, rfl, rfl, rfl⟩
termination_by s => 4 * s.rest.length + 2
decreasing_by
  all_goals omega

theorem twins_readRows (ha : SameArguments args args') (name : String) (span : Span)
    {cells cells' : List (List Atom)} (hc : cells.map bares = cells'.map bares)
    {rows rows' : List (List (List Atom))}
    (hr : rows.map (List.map bares) = rows'.map (List.map bares)) (s : Reader) {s' : Reader}
    (h : Twin s s') :
    Twins (List.map (List.map bares)) (readRows args name span cells rows s)
      (readRows args' name span cells' rows' s') := by
  have hitems := twins_readItems ha .cell .math (rfl : bares [] = bares []) s h
  have hafter := hitems.state.capped s.rest.length
  have hcells : ((readItems args .cell .math [] s).1 :: cells).map bares =
      ((readItems args' .cell .math [] s').1 :: cells').map bares :=
    List.cons_eq_cons.2 ⟨hitems.made, hc⟩
  have hrows : (((readItems args .cell .math [] s).1 :: cells).reverse :: rows).map (List.map bares) =
      (((readItems args' .cell .math [] s').1 :: cells').reverse :: rows').map (List.map bares) := by
    refine List.cons_eq_cons.2 ⟨?_, hr⟩
    rw [List.map_reverse, List.map_reverse, hcells]
  have hfinished := map_bares_withoutEmptyLast (map_reverse_eq hrows)
  have hle := length_capped (readItems args .cell .math [] s).2 s.rest.length
  rw [readRows.eq_def, readRows.eq_def args', ← h.rest]
  simp only
  generalize (readItems args .cell .math [] s).2.capped s.rest.length = after at hafter hle ⊢
  generalize (readItems args' .cell .math [] s').2.capped s.rest.length = after' at hafter ⊢
  obtain ⟨rest, used, problems, n⟩ := after
  obtain ⟨rest', used', problems', n'⟩ := after'
  obtain ⟨rfl, rfl, rfl⟩ := hafter
  cases rest with
  | nil => exact ⟨hfinished, rfl, rfl, rfl⟩
  | cons t rest =>
      have hrest : Twin (withRest ⟨t :: rest, used, problems, n⟩ rest)
          (withRest ⟨t :: rest, used, problems, n'⟩ rest) := ⟨rfl, rfl, rfl⟩
      have hlt := length_withRest_lt ⟨t :: rest, used, problems, n⟩ t rest
      have hopen : Twin (report ⟨t :: rest, used, problems, n⟩ span (.unclosedEnvironment name))
          (report ⟨t :: rest, used, problems, n'⟩ span (.unclosedEnvironment name)) :=
        ⟨rfl, rfl, rfl⟩
      simp only
      split
      · exact twins_readRows ha name span hcells hr _ hrest
      · split
        · exact twins_readRows ha name span rfl hrows _ hrest
        · split
          · have hended := twins_environmentName hrest
            have hname := hended.made
            simp only [id] at hname
            simp only [hname]
            split
            · exact ⟨hfinished, hended.state⟩
            · exact ⟨hfinished, hended.state.report t.span _⟩
          · exact ⟨hfinished, hopen⟩
      · exact ⟨hfinished, hopen⟩
termination_by 4 * s.rest.length + 2
decreasing_by
  all_goals
    simp only at *
    omega

theorem twins_readCommand (ha : SameArguments args args') (name : String) (span : Span)
    (mode : ReadingMode) {done done' : List Atom} (hd : bares done = bares done') (s : Reader)
    {s' : Reader} (h : Twin s s') :
    Twins bares (readCommand args name span mode done s)
      (readCommand args' name span mode done' s') := by
  rw [readCommand.eq_def, readCommand.eq_def args']
  simp only
  split
  · exact twins_pushUnknown hd h _ _ span
  · rename_i meaning hmeaning
    split
    · exact twins_push hd h fun _ _ => rfl
    · exact twins_push hd h fun _ _ => rfl
    · exact twins_push hd h fun _ _ => rfl
    · simp only [h.peek, h.skip.peek]
      split
      · exact twins_push hd h.skip.skip fun _ _ => rfl
      · exact twins_push hd h fun _ _ => rfl
    · exact ⟨hd, h⟩
    · exact ⟨hd, (twins_environmentName (h.report span .unmatchedClose)).state⟩
    · have hnamed := twins_environmentName h
      have hname := hnamed.made
      simp only [id] at hname
      rw [hname]
      split
      · exact twins_pushUnknown hd h _ _ span
      · rename_i environment _
        have hlength : s'.rest.length = s.rest.length := congrArg List.length h.rest.symm
        rw [hlength]
        split
        · have hle := length_capped (environmentName s).2 s.rest.length
          have hrows := twins_readRows ha environment span (rfl : [].map bares = [].map bares)
            (rfl : [].map (List.map bares) = [].map (List.map bares)) _
            (hnamed.state.capped s.rest.length)
          exact twins_push hd hrows.state fun _ _ => bare_newArray_of_bare _ hrows.made _ _
        · have hle := length_capped ((environmentName s).2.report span
            (.unknownEnvironment environment)) s.rest.length
          have hrows := twins_readRows ha environment span (rfl : [].map bares = [].map bares)
            (rfl : [].map (List.map bares) = [].map (List.map bares)) _
            ((hnamed.state.report span (.unknownEnvironment environment)).capped s.rest.length)
          refine twins_push hd hrows.state fun _ _ => Atom.bare_newGroup ?_ _ _
          exact bares_flatten (map_bares_flatten hrows.made)
    · rename_i hsymbol hfunction hspace hplaceholder hrow hend hbegin
      have htakes := Action.takesArguments_of_not hsymbol hfunction hspace hplaceholder hrow hend hbegin
      have hindex : Twins (Option.map bares)
          (if meaning.action = .radical then readIndex args s else (none, s))
          (if meaning.action = .radical then readIndex args' s' else (none, s')) := by
        split
        · exact twins_readIndex ha s h
        · exact ⟨rfl, h⟩
      generalize (if meaning.action = .radical then readIndex args s else (none, s)) = index
        at hindex ⊢
      generalize (if meaning.action = .radical then readIndex args' s' else (none, s')) = index'
        at hindex ⊢
      have hle := length_capped index.2 s.rest.length
      have hlength : s'.rest.length = s.rest.length := congrArg List.length h.rest.symm
      rw [hlength]
      have hcontents := twins_readArguments ha (if meaning.action = .text then .text else .math)
        meaning.arity _ (hindex.state.capped s.rest.length)
      have hmade := hcontents.made
      cases hl : (readArguments args (if meaning.action = .text then .text else .math)
        meaning.arity (index.2.capped s.rest.length)).1 <;>
      cases hr : (readArguments args' (if meaning.action = .text then .text else .math)
        meaning.arity (index'.2.capped s.rest.length)).1 <;>
      rw [hl, hr] at hmade
      · cases hmade
        exact twins_pushUnknown hd (h.rewind _ _) _ _ span
      · cases hmade
      · cases hmade
      · exact twins_push hd hcontents.state fun _ _ =>
          bare_newWithArguments_of_bare htakes _ (Except.ok.inj hmade) hindex.made _ _
termination_by 4 * s.rest.length + 3
decreasing_by
  all_goals omega

end

end Reader

variable {args args' : List (List Atom)}

/-- What a fragment stands for does not depend on the supply of identities, and neither does what has
to be repaired in it. -/
theorem bares_parseFragment (ha : SameArguments args args') (source : String) (mode : ReadingMode)
    (n n' : Nat) :
    bares (parseFragment source mode args n).1.atoms =
        bares (parseFragment source mode args' n').1.atoms ∧
      (parseFragment source mode args n).1.diagnostics =
        (parseFragment source mode args' n').1.diagnostics := by
  have htwin : Reader.Twin (Reader.start (tokenize source).tokens n)
      (Reader.start (tokenize source).tokens n') := ⟨rfl, rfl, rfl⟩
  have hread := Reader.twins_readItems ha .endOfInput mode (rfl : bares [] = bares []) _ htwin
  refine ⟨hread.made, ?_⟩
  simp only [parseFragment, parse, Reader.readAll, Minting.bind_apply, Minting.pure_apply,
    hread.state.problems]

/-- No argument is as good as empty ones. -/
theorem sameArguments_nil : SameArguments [[]] [] := by
  intro i
  cases i <;> rfl

end FormulaEditor.Latex

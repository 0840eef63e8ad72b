import FormulaEditor.Proofs.Latex.Weighing

/-!
# Every reading function pays for what it reads

The functions of the reader call each other, and a sequence, a group, an argument, an index or the
rows of an array are each paid for if their parts are. Where a command lacks an argument, what was
read for it is dropped, and nothing is lost by that but identities. From the functions the balance
of a whole reading follows.
-/

namespace FormulaEditor

open Atom Latex Latex.Reader

namespace Scale

variable {c : Scale} {args : List (List Atom)}

section

variable (hc : c.error = 0 ∨ args = [])
include hc

-- Only the cases of a reference use the hypothesis, and the others through the recursion.
set_option linter.unusedSectionVars false

mutual

theorem weighed_readItems (stop : Stop) (mode : ReadingMode) (done : List Atom) (s : Reader) :
    c.Weighed args done s (readItems args stop mode done s) := by
  have hend : c.Weighed args done s (done.reverse, s) := by
    refine ⟨?_, fun _ => isLight_reverse⟩
    rw [weight_reverse]
    exact Weighs.refl _ s
  unfold readItems
  split
  · exact hend
  · rename_i t rest hrest
    split
    · exact hend
    · have hitem := weighed_readItem mode done s
      have hlt := length_capped_lt hrest (readItem args mode done s).2
      have hitems := weighed_readItems stop mode (readItem args mode done s).1
        ((readItem args mode done s).2.capped rest.length)
      refine ⟨(hitem.weighs.withRest _).trans hitems.weighs, fun he hl => ?_⟩
      exact hitems.light (he.mono hitem.weighs.supply) (hitem.light he hl)
termination_by 4 * s.rest.length + 1
decreasing_by
  all_goals omega

theorem weighed_readItem (mode : ReadingMode) (done : List Atom) (s : Reader) :
    c.Weighed args done s (readItem args mode done s) := by
  unfold readItem
  split
  · exact Weighed.same (Weighs.refl 0 s)
  · rename_i t rest hrest
    have hafter : c.Weighs args 0 s 0 (s.withRest rest) := (Weighs.refl 0 s).withRest rest
    have hlt := length_rest_lt hrest
    simp only
    split
    · exact Weighed.same hafter
    · exact Weighed.of_weighs hafter
        (weighed_readScript rfl mode done t.span (s.withRest rest))
    · exact Weighed.of_weighs hafter
        (weighed_readScript rfl mode done t.span (s.withRest rest))
    · rename_i ch heq
      split
      · split
        · exact weighed_attachPrime hafter t.span
        · obtain ⟨kind, value, glyph, hkind, hchar⟩ := exists_newMathChar ch
          rw [hchar]
          exact weighed_pushLeaf hafter kind value glyph hkind
      · exact weighed_pushLeaf hafter .ordinary _ _ (by simp)
    · have hgroup := weighed_readGroup mode (s.withRest rest)
      exact weighed_pushGroup (hafter.trans hgroup.weighs)
    · exact Weighed.same (hafter.report_of_not_isShown t.span rfl)
    · have hreport := hafter.report t.span (rfl : Problem.isShown (.disallowedChar '&') = true)
      rw [Nat.zero_add] at hreport
      exact weighed_pushMarked hreport .ordinary _ _ (by simp)
    · rename_i ref heq
      obtain ⟨hweighs, hlight⟩ := weighs_substitute hc ref hafter
      refine ⟨?_, fun he hl => isLight_append (isLight_reverse (hlight he)) hl⟩
      rw [weight_append, weight_reverse]
      simpa using hweighs.add (weight c.label done)
    · rename_i name heq
      exact Weighed.of_weighs hafter
        (weighed_readCommand name t.span mode done (s.withRest rest))
termination_by 4 * s.rest.length
decreasing_by
  all_goals omega

theorem weighed_readGroup (mode : ReadingMode) (s : Reader) :
    c.Weighed args [] s (readGroup args mode s) := by
  have hitems := weighed_readItems .group mode [] s
  unfold readGroup
  simp only
  split
  · exact ⟨hitems.weighs.withRest _, hitems.light⟩
  · exact hitems
termination_by 4 * s.rest.length + 2

theorem weighs_readArgument (mode : ReadingMode) (s : Reader) :
    c.Weighs args 0 s (weight c.label ((readArgument args mode s).1.getD []))
      (readArgument args mode s).2 := by
  unfold readArgument
  split
  · exact Weighs.refl 0 s
  · rename_i t rest hrest
    have hlt := length_rest_lt hrest
    split
    · exact (weighed_readGroup mode (s.withRest rest)).weighs.of_withRest
    · split
      · exact Weighs.refl 0 s
      · have hitem := weighed_readItem mode [] s
        rw [Option.getD_some, weight_reverse]
        exact hitem.weighs
termination_by 4 * s.rest.length + 1
decreasing_by
  all_goals omega

theorem weighed_readScript {slot : Slot} (hslot : slot.isScript = true) (mode : ReadingMode)
    (done : List Atom) (span : Span) (s : Reader) :
    c.Weighed args done s (readScript args slot mode done span s) := by
  have hargument := weighs_readArgument mode s
  unfold readScript
  simp only
  split
  · rename_i content hcontent
    rw [hcontent, Option.getD_some] at hargument
    exact weighed_attachScript hslot hargument span
  · rename_i hnone
    rw [hnone, Option.getD_none, weight_nil] at hargument
    have hreport :=
      hargument.report_of_not_isShown span (rfl : Problem.isShown .missingArgument = _)
    exact weighed_attachScript hslot (hreport.mint (makes_filled c [] _)) span
termination_by 4 * s.rest.length + 2

theorem weighs_readArguments (mode : ReadingMode) (count : Nat) (s : Reader) :
    s.supply ≤ (readArguments args mode count s).2.supply ∧
      ∀ contents, (readArguments args mode count s).1 = .ok contents →
        contents.length = count ∧
          c.Weighs args 0 s (contents.map (weight c.label)).sum
            (readArguments args mode count s).2 := by
  cases count with
  | zero =>
      rw [readArguments]
      refine ⟨Nat.le_refl _, fun contents h => ?_⟩
      cases h
      exact ⟨rfl, Weighs.refl 0 s⟩
  | succ count =>
      rw [readArguments]
      split
      · exact ⟨Nat.le_refl _, fun contents h => by cases h⟩
      · rename_i t rest hrest
        have hfirst := weighs_readArgument mode s
        simp only
        split
        · exact ⟨hfirst.supply, fun contents h => by cases h⟩
        · rename_i content hcontent
          have hlt := length_capped_lt hrest (readArgument args mode s).2
          have hothers := weighs_readArguments mode count
            ((readArgument args mode s).2.capped rest.length)
          have hle := Nat.le_trans hfirst.supply hothers.1
          split
          · rename_i contents hcontents
            refine ⟨hle, fun all h => ?_⟩
            cases h
            obtain ⟨hlength, hweighs⟩ := hothers.2 contents hcontents
            rw [hcontent, Option.getD_some] at hfirst
            rw [List.length_cons, hlength, List.map_cons, List.sum_cons]
            exact ⟨rfl, (hfirst.withRest _).both hweighs⟩
          · exact ⟨hle, fun contents h => by cases h⟩
termination_by 4 * s.rest.length + 2
decreasing_by
  all_goals omega

theorem weighs_readIndex (s : Reader) :
    c.Weighs args 0 s (weight c.label ((readIndex args s).1.getD [])) (readIndex args s).2 := by
  unfold readIndex
  split
  · exact Weighs.refl 0 s
  · rename_i t rest hrest
    have hlt := length_rest_lt hrest
    split
    · have hitems := weighed_readItems .bracket .math [] (s.withRest rest)
      have hle := weight_unprotected_le c (readItems args .bracket .math [] (s.withRest rest)).1
      have hweighs : c.Weighs args 0 s
          (weight c.label (unprotected (readItems args .bracket .math [] (s.withRest rest)).1))
          (readItems args .bracket .math [] (s.withRest rest)).2 := by
        refine ⟨hitems.weighs.supply, ?_, fun he => ?_⟩
        · exact Nat.le_trans (Nat.add_le_add_right hle _) hitems.weighs.le
        · rw [hitems.light he isLight_nil]
          exact hitems.weighs.ge he
      simp only [Option.getD_some]
      split
      · exact hweighs.withRest _
      · exact hweighs
    · exact Weighs.refl 0 s
termination_by 4 * s.rest.length + 2
decreasing_by
  all_goals omega

theorem weighs_readRows (name : String) (span : Span) (cells : List (List Atom))
    (rows : List (List (List Atom))) (s : Reader) :
    c.Weighs args (weight c.label cells.flatten + weight c.label rows.flatten.flatten) s
      (weight c.label (readRows args name span cells rows s).1.flatten.flatten)
      (readRows args name span cells rows s).2 := by
  have hcell := weighed_readItems .cell .math [] s
  unfold readRows
  simp only
  generalize readItems args .cell .math [] s = cell at hcell ⊢
  have hcap := (hcell.addCell cells rows).capped s.rest.length
  have hfinish {s'' : Reader} (h : c.Weighs args
      (weight c.label cells.flatten + weight c.label rows.flatten.flatten) s
      (weight c.label (cell.1 :: cells).flatten + weight c.label rows.flatten.flatten) s'') :
      c.Weighs args (weight c.label cells.flatten + weight c.label rows.flatten.flatten) s
        (weight c.label
          (withoutEmptyLast ((cell.1 :: cells).reverse :: rows).reverse).flatten.flatten) s'' := by
    rwa [weight_finishedRows]
  split
  · exact hfinish (hcap.report_of_not_isShown span rfl)
  · rename_i t rest hrest
    have hafter := hcap.withRest rest
    have hlt : ((cell.2.capped s.rest.length).withRest rest).rest.length < s.rest.length :=
      Nat.lt_of_lt_of_le (length_rest_lt hrest) (length_capped _ _)
    split
    · exact hafter.trans (weighs_readRows name span (cell.1 :: cells) rows
        ((cell.2.capped s.rest.length).withRest rest))
    · split
      · have hrow := weighs_readRows name span [] ((cell.1 :: cells).reverse :: rows)
          ((cell.2.capped s.rest.length).withRest rest)
        rw [List.flatten_nil, weight_nil, Nat.zero_add, weight_rows_cons] at hrow
        exact hafter.trans hrow
      · split
        · have hended := weighs_environmentName hafter
          split
          · exact hfinish hended
          · exact hfinish (hended.report_of_not_isShown t.span rfl)
        · exact hfinish (hcap.report_of_not_isShown span rfl)
    · exact hfinish (hcap.report_of_not_isShown span rfl)
termination_by 4 * s.rest.length + 2
decreasing_by
  all_goals omega

theorem weighed_readCommand (name : String) (span : Span) (mode : ReadingMode)
    (done : List Atom) (s : Reader) :
    c.Weighed args done s (readCommand args name span mode done s) := by
  have hrefl : c.Weighs args 0 s 0 s := Weighs.refl 0 s
  unfold readCommand
  simp only
  split
  · exact weighed_pushUnknown hrefl _ rfl span
  · rename_i meaning hfilter
    obtain ⟨hfind, hallowed⟩ := Option.filter_eq_some_iff.1 hfilter
    split
    · rename_i kind glyph haction
      refine weighed_pushLeaf hrefl kind _ _ fun hgroup => ?_
      have hleaf := Vocabulary.shape_of_symbol hfind haction
      rw [hgroup] at hleaf
      cases hleaf
    · exact weighed_pushLeaf hrefl .operator _ _ (by simp)
    · exact weighed_pushLeaf hrefl .space _ _ (by simp)
    · split
      · exact weighed_pushLeaf (hrefl.withRest _) .placeholder none none (by simp)
      · exact weighed_pushLeaf hrefl .placeholder none none (by simp)
    · exact Weighed.same hrefl
    · exact Weighed.same (weighs_environmentName (hrefl.report_of_not_isShown span rfl))
    · split
      · exact weighed_pushUnknown hrefl _ rfl span
      · rename_i environment henvironment
        have hnamed := weighs_environmentName hrefl
        split
        · have hlt := length_capped (environmentName s).2 s.rest.length
          have hrows := weighs_readRows environment span [] []
            ((environmentName s).2.capped s.rest.length)
          exact weighed_pushArray ((hnamed.capped s.rest.length).trans hrows) environment
        · have hlt := length_capped ((environmentName s).2.report span
            (.unknownEnvironment environment)) s.rest.length
          have hrows := weighs_readRows environment span [] []
            (((environmentName s).2.report span
              (.unknownEnvironment environment)).capped s.rest.length)
          have hreport := hnamed.report_of_not_isShown span
            (rfl : Problem.isShown (.unknownEnvironment environment) = false)
          exact weighed_pushGroup ((hreport.capped s.rest.length).trans hrows)
    · rename_i hsymbol hfunction hspace hplaceholder hrow hend hbegin
      have htakes :=
        Action.takesArguments_of_not hsymbol hfunction hspace hplaceholder hrow hend hbegin
      have hindex : c.Weighs args 0 s
          (weight c.label
            ((if meaning.action = .radical then readIndex args s else (none, s)).1.getD []))
          (if meaning.action = .radical then readIndex args s else (none, s)).2 ∧
          (meaning.action ≠ .radical →
            (if meaning.action = .radical then readIndex args s else (none, s)).1 = none) := by
        split
        · rename_i hradical
          exact ⟨weighs_readIndex s, fun h => absurd hradical h⟩
        · exact ⟨hrefl, fun _ => rfl⟩
      generalize (if meaning.action = .radical then readIndex args s else (none, s)) = index
        at hindex ⊢
      have hlt := length_capped index.2 s.rest.length
      have harguments := weighs_readArguments meaning.action.argumentMode meaning.arity
        (index.2.capped s.rest.length)
      unfold Action.argumentMode at harguments
      split
      · rename_i contents hcontents
        obtain ⟨hlength, hweighs⟩ := harguments.2 contents hcontents
        have hread := (hindex.1.capped s.rest.length).both hweighs
        rw [Nat.add_zero, Nat.add_comm] at hread
        exact weighed_pushWithArguments hfind htakes hlength hindex.2 hread _
      · exact weighed_pushUnknown
          (weighs_rewind (Nat.le_trans hindex.1.supply harguments.1)) _ rfl span
termination_by 4 * s.rest.length + 3

end

end

/-- A whole reading starts with nothing but the identities that were given out before it. -/
theorem weighs_readAll (hc : c.error = 0 ∨ args = []) (mode : ReadingMode)
    (tokens : List SpannedToken) (n : Nat) :
    n ≤ (readAll args mode (start tokens n)).2.supply ∧
    weight c.label (readAll args mode (start tokens n)).1 + c.given n ≤
      c.stock args (readAll args mode (start tokens n)).2 ∧
    (c.IsExact args n → weight c.label (readAll args mode (start tokens n)).1 + c.given n =
      c.stock args (readAll args mode (start tokens n)).2) := by
  have hread := (weighed_readItems hc .endOfInput mode [] (start tokens n)).weighs
  have hstart : c.stock args (start tokens n) = c.given n := rfl
  have hle := hread.le
  rw [hstart, weight_nil, Nat.zero_add] at hle
  refine ⟨hread.supply, hle, fun he => Nat.le_antisymm hle ?_⟩
  have hge := hread.ge he
  rw [hstart, weight_nil, Nat.zero_add] at hge
  exact hge

/-- What a fragment is read as weighs no more than its arguments and the identities that were given
out, where marks have no weight. -/
theorem weight_parseFragment_le (hc : c.error = 0) (source : String) (mode : ReadingMode)
    (args : List (List Atom)) (n : Nat) :
    n ≤ (parseFragment source mode args n).2 ∧
    weight c.label (parseFragment source mode args n).1.atoms + c.given n ≤
      weight c.label args.flatten + c.given (parseFragment source mode args n).2 := by
  obtain ⟨hsupply, hle, -⟩ := weighs_readAll (.inl hc) mode (tokenize source).tokens n
  have hspent := substituted_le c args
    (readAll args mode (start (tokenize source).tokens n)).2.used
  rw [stock, hc, Nat.zero_mul] at hle
  refine ⟨hsupply, ?_⟩
  change weight c.label (readAll args mode (start (tokenize source).tokens n)).1 + c.given n ≤
    weight c.label args.flatten +
      c.given (readAll args mode (start (tokenize source).tokens n)).2.supply
  omega

end Scale

end FormulaEditor

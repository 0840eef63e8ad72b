import FormulaEditor.Proofs.Latex.Using
import FormulaEditor.Proofs.Latex.ReadingBack

/-!
# Reading goes on

No reading function gives back a token that it was not given, and an item takes at least one token. So
nothing has to bound the tokens that are left: without a bound the same functions come to an end on
every token stream, with the same results, and their calls nest no deeper than four levels for each
token. A command that lacks an argument goes back to where the command ended and no further.
-/

namespace FormulaEditor.Latex.Reader

section

variable (args : List (List Atom)) (mode : ReadingMode) (done : List Atom) (s : Reader)

/-! ## Progress -/

theorem leadsTo_readItems (stop : Stop) : s.LeadsTo (readItems args stop mode done s).2 :=
  (reads_readItems (readingClosed_true args) stop mode done s fun _ _ => trivial).leadsTo

theorem leadsTo_readGroup : s.LeadsTo (readGroup args mode s).2 :=
  (reads_readGroup (readingClosed_true args) mode s fun _ _ => trivial).leadsTo

theorem leadsTo_readArgument : s.LeadsTo (readArgument args mode s).2 :=
  (reads_readArgument (readingClosed_true args) mode s fun _ _ => trivial).1

theorem leadsTo_attachScript {s s' : Reader} (h : s.LeadsTo s') (slot : Slot) (content : List Atom)
    (span : Span) : s.LeadsTo (attachScript slot content done span s').2 := by
  have hpush {s'' : Reader} (h : s.LeadsTo s'') (before : List Atom) (m : Minting Atom) :
      s.LeadsTo (push before m s'').2 := h.mint m
  unfold attachScript
  cases done with
  | nil => exact hpush h [] _
  | cons last before =>
      simp only
      split
      · split
        · exact hpush h before _
        · exact hpush (h.report span .duplicateScript) _ _
      · exact hpush h _ _

theorem leadsTo_readScript (slot : Slot) (span : Span) :
    s.LeadsTo (readScript args slot mode done span s).2 := by
  have hargument := leadsTo_readArgument args mode s
  rw [readScript.eq_def]
  simp only
  split
  · exact leadsTo_attachScript done hargument slot _ span
  · exact leadsTo_attachScript done ((hargument.report span .missingArgument).mint _) slot _ span

theorem leadsTo_readArguments (count : Nat) : s.LeadsTo (readArguments args mode count s).2 :=
  (reads_readArguments (readingClosed_true args) mode count s fun _ _ => trivial).1

theorem leadsTo_readIndex : s.LeadsTo (readIndex args s).2 :=
  (reads_readIndex (readingClosed_true args) s fun _ _ => trivial).1

theorem leadsTo_readRows (name : String) (span : Span) (cells : List (List Atom))
    (rows : List (List (List Atom))) : s.LeadsTo (readRows args name span cells rows s).2 :=
  (reads_readRows (readingClosed_true args) name span cells rows s fun _ _ => trivial).1

variable {s}

/-- An item takes the next token and goes on after it. -/
theorem leadsTo_readItem {t : SpannedToken} {rest : List SpannedToken} (h : s.rest = t :: rest) :
    (s.withRest rest).LeadsTo (readItem args mode done s).2 := by
  have hclosed := readingClosed_true args
  have hafter := LeadsTo.refl (s.withRest rest)
  have hmint {s' : Reader} (hs : (s.withRest rest).LeadsTo s') (m : Minting Atom) :
      (s.withRest rest).LeadsTo (push done m s').2 := hs.mint m
  unfold readItem
  split
  · rename_i hnil
    rw [h] at hnil
    cases hnil
  · rename_i t' rest' hrest
    obtain ⟨rfl, rfl⟩ := List.cons.inj (h.symm.trans hrest)
    simp only
    split
    · exact hafter
    · exact leadsTo_readScript args mode done _ _ t.span
    · exact leadsTo_readScript args mode done _ _ t.span
    · split
      · split
        · exact (@reads_attachPrime _ _ _ _ .math _ _ _ hclosed t.span hafter).leadsTo
        · exact hmint hafter _
      · exact hmint hafter _
    · exact hmint (leadsTo_readGroup args mode _) _
    · exact hafter.report t.span _
    · exact hmint (hafter.report t.span _) _
    · exact (reads_substitute hclosed mode _ hafter).1
    · exact leadsTo_readCommand args _ t.span mode done _

theorem length_readItem_le {t : SpannedToken} {rest : List SpannedToken} (h : s.rest = t :: rest) :
    (readItem args mode done s).2.rest.length ≤ rest.length :=
  (leadsTo_readItem args mode done h).rest.length_le

/-- An argument takes the next token, if there is an argument. -/
theorem length_readArgument_le {t : SpannedToken} {rest : List SpannedToken} (h : s.rest = t :: rest)
    (hsome : (readArgument args mode s).1.isSome = true) :
    (readArgument args mode s).2.rest.length ≤ rest.length := by
  unfold readArgument at hsome ⊢
  split
  · rename_i hnil
    rw [h] at hnil
    cases hnil
  · rename_i t' rest' hrest
    obtain ⟨rfl, rfl⟩ := List.cons.inj (h.symm.trans hrest)
    split
    · exact (leadsTo_readGroup args mode (s.withRest rest)).rest.length_le
    · rename_i hbegin
      split
      · rename_i hends
        split at hsome
        · simp_all
        · simp_all
      · exact length_readItem_le args mode [] h

end

/-! ## Reading without a bound

The reading functions once more, as they stand but for the bound on the tokens that lets them be seen
to end. Only the depth is bounded to which their calls may nest, and `none` stands for a run that goes
deeper.
-/

section

variable (args : List (List Atom))

mutual

/-- Reads items up to the end of the sequence. -/
def readItems? (depth : Nat) (stop : Stop) (mode : ReadingMode) (done : List Atom) (s : Reader) :
    Option (List Atom × Reader) :=
  match depth with
  | 0 => none
  | depth + 1 =>
      match s.rest with
      | [] => some (done.reverse, s)
      | t :: _ =>
          if stop.endsAt t.token then some (done.reverse, s)
          else do
            let item ← readItem? depth mode done s
            readItems? depth stop mode item.1 item.2

/-- Reads one item and appends its atoms. -/
def readItem? (depth : Nat) (mode : ReadingMode) (done : List Atom) (s : Reader) :
    Option (List Atom × Reader) :=
  match depth with
  | 0 => none
  | depth + 1 =>
      match s.rest with
      | [] => some (done, s)
      | t :: rest =>
          let after := s.withRest rest
          match t.token with
          | .endOfInput => some (done, after)
          | .superscript => readScript? depth .superscript mode done t.span after
          | .subscript => readScript? depth .subscript mode done t.span after
          | .char c =>
              some <| match mode with
              | .math =>
                  if c = Text.Quoted.singleQuote then attachPrime done t.span after
                  else push done (newMathChar c) after
              | .text => push done (Atom.newChar .ordinary c) after
          | .groupBegin => do
              let content ← readGroup? depth mode after
              return push done (Atom.newWrapper .group none content.1) content.2
          | .groupEnd => some (done, after.report t.span .unmatchedClose)
          | .alignment =>
              some <| push done (do return (← Atom.newChar .ordinary '&').markError)
                (after.report t.span (.disallowedChar '&'))
          | .argument ref =>
              let atoms := substitute args ref after
              some (atoms.1.reverse ++ done, atoms.2)
          | .control name => readCommand? depth name t.span mode done after

/-- Reads the rest of a group whose opening brace was read. -/
def readGroup? (depth : Nat) (mode : ReadingMode) (s : Reader) : Option (List Atom × Reader) :=
  match depth with
  | 0 => none
  | depth + 1 => do
      let content ← readItems? depth .group mode [] s
      match content.2.peek with
      | .groupEnd => return (content.1, content.2.skip)
      | _ => return content

/-- Reads an argument, if one begins there. -/
def readArgument? (depth : Nat) (mode : ReadingMode) (s : Reader) :
    Option (Option (List Atom) × Reader) :=
  match depth with
  | 0 => none
  | depth + 1 =>
      match s.rest with
      | [] => some (none, s)
      | t :: rest =>
          if t.token = .groupBegin then do
            let content ← readGroup? depth mode (s.withRest rest)
            return (some content.1, content.2)
          else if t.token.endsArgument then some (none, s)
          else do
            let item ← readItem? depth mode [] s
            return (some item.1.reverse, item.2)

/-- Reads the content of a script and attaches it to the latest atom. -/
def readScript? (depth : Nat) (slot : Slot) (mode : ReadingMode) (done : List Atom) (span : Span)
    (s : Reader) : Option (List Atom × Reader) :=
  match depth with
  | 0 => none
  | depth + 1 => do
      let argument ← readArgument? depth mode s
      match argument.1 with
      | some content => return attachScript slot content done span argument.2
      | none =>
          let content := (argument.2.report span .missingArgument).mint (Atom.filled [])
          return attachScript slot content.1 done span content.2

/-- Reads `count` arguments, or tells how many were found before the first one that is missing. -/
def readArguments? (depth : Nat) (mode : ReadingMode) (count : Nat) (s : Reader) :
    Option (Except Nat (List (List Atom)) × Reader) :=
  match depth with
  | 0 => none
  | depth + 1 =>
      match count with
      | 0 => some (.ok [], s)
      | count + 1 => do
          let first ← readArgument? depth mode s
          match first.1 with
          | none => return (.error 0, first.2)
          | some content =>
              let others ← readArguments? depth mode count first.2
              match others.1 with
              | .ok contents => return (.ok (content :: contents), others.2)
              | .error found => return (.error (found + 1), others.2)

/-- Reads the index of a radical in brackets, if there is one. -/
def readIndex? (depth : Nat) (s : Reader) : Option (Option (List Atom) × Reader) :=
  match depth with
  | 0 => none
  | depth + 1 =>
      match s.rest with
      | [] => some (none, s)
      | t :: rest =>
          if t.token = .char '[' then do
            let content ← readItems? depth .bracket .math [] (s.withRest rest)
            let after := if content.2.peek = .char ']' then content.2.skip else content.2
            return (some (unprotected content.1), after)
          else some (none, s)

/-- Reads the rows of an environment up to its end. -/
def readRows? (depth : Nat) (name : String) (span : Span) (cells : List (List Atom))
    (rows : List (List (List Atom))) (s : Reader) : Option (List (List (List Atom)) × Reader) :=
  match depth with
  | 0 => none
  | depth + 1 => do
      let content ← readItems? depth .cell .math [] s
      let cells := content.1 :: cells
      let finished := withoutEmptyLast (cells.reverse :: rows).reverse
      let after := content.2
      match after.rest with
      | [] => return (finished, after.report span (.unclosedEnvironment name))
      | t :: rest =>
          match t.token with
          | .alignment => readRows? depth name span cells rows (after.withRest rest)
          | .control command =>
              if command = "\\" then
                readRows? depth name span [] (cells.reverse :: rows) (after.withRest rest)
              else if command = "end" then
                let ended := environmentName (after.withRest rest)
                let found := ended.1.getD ""
                if found = name then return (finished, ended.2)
                else return (finished, ended.2.report t.span (.mismatchedEnvironment name found))
              else return (finished, after.report span (.unclosedEnvironment name))
          | _ => return (finished, after.report span (.unclosedEnvironment name))

/-- Reads what follows a command and appends its atom. -/
def readCommand? (depth : Nat) (name : String) (span : Span) (mode : ReadingMode) (done : List Atom)
    (s : Reader) : Option (List Atom × Reader) :=
  match depth with
  | 0 => none
  | depth + 1 =>
      let command := Vocabulary.command name
      match (Vocabulary.find? name).filter fun m => mode == .math || m.action.allowedInText with
      | none => some (pushUnknown done command (.unknownCommand command) span s)
      | some meaning =>
          match meaning.action with
          | .symbol kind glyph => some (push done (Atom.newLeaf kind (some command) (some glyph)) s)
          | .function => some (push done (Atom.newLeaf .operator (some command) none) s)
          | .space => some (push done (Atom.newLeaf .space (some command) none) s)
          | .placeholder =>
              if s.peek = .groupBegin ∧ s.skip.peek = .groupEnd then
                some (push done Atom.newPlaceholder s.skip.skip)
              else some (push done Atom.newPlaceholder s)
          | .newRow => some (done, s)
          | .endEnvironment => some (done, (environmentName (s.report span .unmatchedClose)).2)
          | .beginEnvironment =>
              let named := environmentName s
              match named.1 with
              | none =>
                  some (pushUnknown done command (.argumentCount command meaning.arity 0) span s)
              | some environment => do
                  let known := Vocabulary.isArrayEnvironment environment
                  let start :=
                    if known then named.2 else named.2.report span (.unknownEnvironment environment)
                  let rows ← readRows? depth environment span [] [] start
                  if known then return push done (newArray environment rows.1) rows.2
                  else return push done (Atom.newWrapper .group none rows.1.flatten.flatten) rows.2
          | action => do
              let index ← if action = .radical then readIndex? depth s else some (none, s)
              let argumentMode := if action = .text then .text else .math
              let contents ← readArguments? depth argumentMode meaning.arity index.2
              match contents.1 with
              | .ok contents' =>
                  return push done (newWithArguments action command contents' index.1) contents.2
              | .error found =>
                  return pushUnknown done command (.argumentCount command meaning.arity found) span
                    (rewind s contents.2)

end

end

/-! ## Both readers agree

The calls of a function leave fewer tokens than it found, or go to a function with less to do, so that
four levels for each token are enough. A run of a depth is built from runs of the depth below it.
-/

section

variable {args}

theorem readItems_nil (stop : Stop) (mode : ReadingMode) (done : List Atom) {s : Reader}
    (h : s.rest = []) : readItems args stop mode done s = (done.reverse, s) := by
  rw [readItems.eq_def]
  split
  · rfl
  · rename_i hrest
    rw [h] at hrest
    cases hrest

/-- The reader drops no token after an item. -/
theorem readItems_cons (stop : Stop) (mode : ReadingMode) (done : List Atom) {s : Reader}
    {t : SpannedToken} {rest : List SpannedToken} (h : s.rest = t :: rest) :
    readItems args stop mode done s =
      if stop.endsAt t.token then (done.reverse, s)
      else readItems args stop mode (readItem args mode done s).1 (readItem args mode done s).2 := by
  have hcapped := capped_of_le (length_readItem_le args mode done h)
  rw [readItems.eq_def]
  split
  · rename_i hnil
    rw [h] at hnil
    cases hnil
  · rename_i t' rest' hrest
    obtain ⟨rfl, rfl⟩ := List.cons.inj (h.symm.trans hrest)
    simp only [hcapped]

theorem readItem_nil (mode : ReadingMode) (done : List Atom) {s : Reader} (h : s.rest = []) :
    readItem args mode done s = (done, s) := by
  rw [readItem.eq_def]
  split
  · rfl
  · rename_i hrest
    rw [h] at hrest
    cases hrest

theorem readArgument_nil (mode : ReadingMode) {s : Reader} (h : s.rest = []) :
    readArgument args mode s = (none, s) := by
  rw [readArgument.eq_def]
  split
  · rfl
  · rename_i hrest
    rw [h] at hrest
    cases hrest

/-- So an argument leaves fewer tokens than there were. -/
theorem length_readArgument_lt (mode : ReadingMode) {s : Reader}
    (hsome : (readArgument args mode s).1.isSome = true) :
    (readArgument args mode s).2.rest.length < s.rest.length := by
  cases hs : s.rest with
  | nil =>
      rw [readArgument_nil mode hs] at hsome
      cases hsome
  | cons t rest => exact Nat.lt_succ_of_le (length_readArgument_le args mode hs hsome)

/-- The reader drops no token after an argument. -/
theorem readArguments_succ_eq (mode : ReadingMode) (count : Nat) (s : Reader) :
    readArguments args mode (count + 1) s =
      match (readArgument args mode s).1 with
      | none => (.error 0, (readArgument args mode s).2)
      | some content =>
          match (readArguments args mode count (readArgument args mode s).2).1 with
          | .ok contents =>
              (.ok (content :: contents), (readArguments args mode count (readArgument args mode s).2).2)
          | .error found =>
              (.error (found + 1), (readArguments args mode count (readArgument args mode s).2).2) := by
  rw [readArguments.eq_def]
  simp only
  split
  · rename_i hs
    rw [readArgument_nil mode hs]
  · rename_i t rest hs
    cases hfirst : (readArgument args mode s).1 with
    | none => rfl
    | some content =>
        have hcapped := capped_of_le (length_readArgument_le args mode hs (by rw [hfirst]; rfl))
        simp only [hcapped] <;> rfl

/-- Runs of a depth come to an end, with the results of the bounded functions, on token streams that are
short enough for it. -/
structure EndsWithin (args : List (List Atom)) (depth : Nat) : Prop where
  items (stop mode done s) : 4 * s.rest.length + 1 < depth →
    readItems? args depth stop mode done s = some (readItems args stop mode done s)
  item (mode done s) : 4 * s.rest.length < depth →
    readItem? args depth mode done s = some (readItem args mode done s)
  group (mode s) : 4 * s.rest.length + 2 < depth →
    readGroup? args depth mode s = some (readGroup args mode s)
  argument (mode s) : 4 * s.rest.length + 1 < depth →
    readArgument? args depth mode s = some (readArgument args mode s)
  script (slot mode done span s) : 4 * s.rest.length + 2 < depth →
    readScript? args depth slot mode done span s = some (readScript args slot mode done span s)
  arguments (mode count s) : 4 * s.rest.length + 2 < depth →
    readArguments? args depth mode count s = some (readArguments args mode count s)
  index (s) : 4 * s.rest.length + 2 < depth → readIndex? args depth s = some (readIndex args s)
  rows (name span cells rows s) : 4 * s.rest.length + 2 < depth →
    readRows? args depth name span cells rows s = some (readRows args name span cells rows s)
  command (name span mode done s) : 4 * s.rest.length + 3 < depth →
    readCommand? args depth name span mode done s = some (readCommand args name span mode done s)

section

variable {depth : Nat} (ih : EndsWithin args depth)
include ih

theorem EndsWithin.items_succ (stop : Stop) (mode : ReadingMode) (done : List Atom) (s : Reader)
    (h : 4 * s.rest.length + 1 < depth + 1) :
    readItems? args (depth + 1) stop mode done s = some (readItems args stop mode done s) := by
  cases hs : s.rest with
  | nil => rw [readItems?.eq_def, readItems_nil stop mode done hs, hs]
  | cons t rest =>
      have hle := length_readItem_le args mode done hs
      have hlength : s.rest.length = rest.length + 1 := congrArg List.length hs
      rw [readItems?.eq_def, readItems_cons stop mode done hs, hs]
      simp only
      split
      · rfl
      · rw [ih.item mode done s (by omega)]
        exact ih.items stop mode _ _ (by omega)

theorem EndsWithin.item_succ (mode : ReadingMode) (done : List Atom) (s : Reader)
    (h : 4 * s.rest.length < depth + 1) :
    readItem? args (depth + 1) mode done s = some (readItem args mode done s) := by
  rw [readItem?.eq_def, readItem.eq_def]
  cases hs : s.rest with
  | nil => rfl
  | cons t rest =>
      have hlt := length_rest_lt hs
      simp only
      cases t.token with
      | superscript => exact ih.script .superscript mode done t.span _ (by omega)
      | subscript => exact ih.script .subscript mode done t.span _ (by omega)
      | groupBegin =>
          simp only
          rw [ih.group mode (s.withRest rest) (by omega)]
          rfl
      | control name => exact ih.command name t.span mode done _ (by omega)
      | char c => cases mode <;> rfl
      | _ => rfl

theorem EndsWithin.group_succ (mode : ReadingMode) (s : Reader)
    (h : 4 * s.rest.length + 2 < depth + 1) :
    readGroup? args (depth + 1) mode s = some (readGroup args mode s) := by
  rw [readGroup?.eq_def, readGroup.eq_def]
  simp only
  rw [ih.items .group mode [] s (by omega), Option.bind_eq_bind, Option.bind_some]
  cases (readItems args .group mode [] s).2.peek <;> rfl

theorem EndsWithin.argument_succ (mode : ReadingMode) (s : Reader)
    (h : 4 * s.rest.length + 1 < depth + 1) :
    readArgument? args (depth + 1) mode s = some (readArgument args mode s) := by
  rw [readArgument?.eq_def, readArgument.eq_def]
  cases hs : s.rest with
  | nil => rfl
  | cons t rest =>
      have hlt := length_rest_lt hs
      simp only
      split
      · rw [ih.group mode (s.withRest rest) (by omega)]
        rfl
      · split
        · rfl
        · rw [ih.item mode [] s (by omega)]
          rfl

theorem EndsWithin.script_succ (slot : Slot) (mode : ReadingMode) (done : List Atom) (span : Span)
    (s : Reader) (h : 4 * s.rest.length + 2 < depth + 1) :
    readScript? args (depth + 1) slot mode done span s =
      some (readScript args slot mode done span s) := by
  rw [readScript?.eq_def, readScript.eq_def]
  simp only
  rw [ih.argument mode s (by omega), Option.bind_eq_bind, Option.bind_some]
  cases (readArgument args mode s).1 <;> rfl

theorem EndsWithin.arguments_succ (mode : ReadingMode) (count : Nat) (s : Reader)
    (h : 4 * s.rest.length + 2 < depth + 1) :
    readArguments? args (depth + 1) mode count s = some (readArguments args mode count s) := by
  cases count with
  | zero => rw [readArguments?.eq_def, readArguments.eq_def]
  | succ count =>
      rw [readArguments?.eq_def, readArguments_succ_eq]
      simp only
      rw [ih.argument mode s (by omega), Option.bind_eq_bind, Option.bind_some]
      cases hfirst : (readArgument args mode s).1 with
      | none => rfl
      | some content =>
          have hlt := length_readArgument_lt mode (by rw [hfirst]; rfl)
          simp only
          rw [ih.arguments mode count _ (by omega), Option.bind_eq_bind, Option.bind_some]
          cases (readArguments args mode count (readArgument args mode s).2).1 <;> rfl

theorem EndsWithin.index_succ (s : Reader) (h : 4 * s.rest.length + 2 < depth + 1) :
    readIndex? args (depth + 1) s = some (readIndex args s) := by
  rw [readIndex?.eq_def, readIndex.eq_def]
  cases hs : s.rest with
  | nil => rfl
  | cons t rest =>
      have hlt := length_rest_lt hs
      simp only
      split
      · rw [ih.items .bracket .math [] (s.withRest rest) (by omega)]
        rfl
      · rfl

theorem EndsWithin.rows_succ (name : String) (span : Span) (cells : List (List Atom))
    (rows : List (List (List Atom))) (s : Reader) (h : 4 * s.rest.length + 2 < depth + 1) :
    readRows? args (depth + 1) name span cells rows s =
      some (readRows args name span cells rows s) := by
  have hle := (leadsTo_readItems args .math [] s .cell).rest.length_le
  have hcapped := capped_of_le hle
  rw [readRows?.eq_def, readRows.eq_def]
  simp only
  rw [ih.items .cell .math [] s (by omega), Option.bind_eq_bind, Option.bind_some]
  generalize readItems args .cell .math [] s = content at hle hcapped ⊢
  generalize content.2.capped s.rest.length = after at hcapped ⊢
  subst hcapped
  cases hrest : content.2.rest with
  | nil => rfl
  | cons t rest =>
      have hlt := length_rest_lt hrest
      simp only
      cases t.token with
      | alignment => exact ih.rows name span _ rows _ (by omega)
      | control command =>
          simp only
          split
          · exact ih.rows name span [] _ _ (by omega)
          · split
            · split <;> rfl
            · rfl
      | _ => rfl

theorem EndsWithin.command_succ (name : String) (span : Span) (mode : ReadingMode)
    (done : List Atom) (s : Reader) (h : 4 * s.rest.length + 3 < depth + 1) :
    readCommand? args (depth + 1) name span mode done s =
      some (readCommand args name span mode done s) := by
  rw [readCommand?.eq_def, readCommand.eq_def]
  simp only
  cases (Vocabulary.find? name).filter fun m => mode == .math || m.action.allowedInText with
  | none => rfl
  | some meaning =>
      have hcapped := capped_of_le (Nat.le_refl s.rest.length)
      cases haction : meaning.action with
      | symbol | function | space | newRow | endEnvironment => simp only [haction]
      | placeholder =>
          simp only [haction]
          split <;> rfl
      | beginEnvironment =>
          simp only [haction]
          cases (environmentName s).1 with
          | none => rfl
          | some environment =>
              have hle := (leadsTo_environmentName (LeadsTo.refl s)).rest.length_le
              simp only
              generalize hstart : (if Vocabulary.isArrayEnvironment environment then
                (environmentName s).2 else _) = start
              have hstartRest : start.rest.length ≤ s.rest.length := by
                rw [← hstart]
                split
                · exact hle
                · exact hle
              rw [capped_of_le hstartRest, ih.rows environment span [] [] start (by omega),
                Option.bind_eq_bind, Option.bind_some]
              split <;> rfl
      | radical =>
          have hindex := (leadsTo_readIndex args s).rest.length_le
          simp only [haction, reduceCtorEq, if_true, if_false]
          rw [capped_of_le hindex, ih.index s (by omega), Option.bind_eq_bind, Option.bind_some]
          rw [ih.arguments .math meaning.arity _ (by omega), Option.bind_eq_bind, Option.bind_some]
          cases (readArguments args .math meaning.arity (readIndex args s).2).1 <;> rfl
      | fraction | accent | font | text =>
          simp only [haction, reduceCtorEq, if_true, if_false]
          rw [hcapped, Option.bind_eq_bind, Option.bind_some]
          simp only
          rw [ih.arguments _ meaning.arity s (by omega), Option.bind_eq_bind, Option.bind_some]
          cases (readArguments args _ meaning.arity s).1 <;> rfl

end

/-- Every run comes to an end: no calls nest deeper than four levels for each token that is left. -/
theorem endsWithin (args : List (List Atom)) (depth : Nat) : EndsWithin args depth := by
  induction depth with
  | zero => constructor <;> intros <;> omega
  | succ depth ih =>
      exact ⟨ih.items_succ, ih.item_succ, ih.group_succ, ih.argument_succ, ih.script_succ,
        ih.arguments_succ, ih.index_succ, ih.rows_succ, ih.command_succ⟩

end

/-! ## Going back -/

/-- What a command leaves that is kept as it is written: a problem is reported, and every token after
the command is still to be read. -/
structure KeepsCommand (span : Span) (s s' : Reader) : Prop where
  rest : s'.rest = s.rest
  used : s'.used = s.used
  problem : ∃ problem, s'.problems = ⟨span, problem⟩ :: s.problems

section

variable {args : List (List Atom)} {name : String} {meaning : Meaning} {span : Span}
  {mode : ReadingMode} {done : List Atom} {s : Reader}

/-- A command stands for itself only where nothing after it was taken. -/
theorem keepsCommand_readCommand {a : Atom}
    (h : (readCommand args name span mode done s).1 = a :: done) (ha : a.kind = .unknownCommand) :
    KeepsCommand span s (readCommand args name span mode done s).2 := by
  have hmade {m : Minting Atom} {s' : Reader} (hpush : (push done m s').1 = a :: done)
      (hkind : ∀ n, (m n).1.kind ≠ .unknownCommand) : False := by
    have hhead : (m s'.supply).1 = a := (List.cons.inj hpush).1
    exact hkind s'.supply (hhead ▸ ha)
  have hnone (hdone : done = a :: done) : False := List.cons_ne_self a done hdone.symm
  rw [readCommand.eq_def] at h ⊢
  simp only at h ⊢
  cases hmeaning : (Vocabulary.find? name).filter fun m => mode == .math || m.action.allowedInText with
  | none => exact ⟨rfl, rfl, _, rfl⟩
  | some meaning =>
      obtain ⟨hfind, -⟩ := Option.filter_eq_some_iff.1 hmeaning
      rw [hmeaning] at h
      cases haction : meaning.action with
      | symbol kind glyph =>
          simp only [haction] at h
          exact (hmade h fun _ => (Vocabulary.isSpelled_of_symbol hfind haction).2).elim
      | function =>
          simp only [haction] at h
          exact (hmade h fun _ => Kind.noConfusion).elim
      | space =>
          simp only [haction] at h
          exact (hmade h fun _ => Kind.noConfusion).elim
      | placeholder =>
          simp only [haction] at h
          split at h
          · exact (hmade h fun _ => Kind.noConfusion).elim
          · exact (hmade h fun _ => Kind.noConfusion).elim
      | newRow =>
          simp only [haction] at h
          exact (hnone h).elim
      | endEnvironment =>
          simp only [haction] at h
          exact (hnone h).elim
      | beginEnvironment =>
          simp only [haction] at h ⊢
          cases hnamed : (environmentName s).1 with
          | none => exact ⟨rfl, rfl, _, rfl⟩
          | some environment =>
              simp only [hnamed] at h
              split at h
              · exact (hmade h fun _ => Kind.noConfusion).elim
              · exact (hmade h fun _ => Kind.noConfusion).elim
      | fraction | radical | accent | font | text =>
          revert h
          simp only [haction]
          split
          · intro h
            exact (hmade h fun n => ne_of_mem_of_not_mem (kind_newWithArguments rfl _ _ _ n)
              (by decide)).elim
          · intro _
            exact ⟨rfl, rfl, _, rfl⟩

/-- A command that lacks an argument is kept, and reading goes on after it. -/
theorem readCommand_of_lacking {found : Nat} (hf : Vocabulary.find? name = some meaning)
    (ht : meaning.action.takesArguments = true)
    (h : (readArguments args meaning.action.argumentMode meaning.arity
      (if meaning.action = .radical then readIndex args s else (none, s)).2).1 = .error found) :
    ∃ s', readCommand args name span .math done s =
      pushUnknown done (Vocabulary.command name)
        (.argumentCount (Vocabulary.command name) meaning.arity found) span (s.rewind s') := by
  have hle : (if meaning.action = .radical then readIndex args s else (none, s)).2.rest.length ≤
      s.rest.length := by
    split
    · exact (leadsTo_readIndex args s).rest.length_le
    · exact Nat.le_refl _
  unfold Action.argumentMode at h
  rw [readCommand.eq_def]
  simp only [filter_find? hf (.inl rfl)]
  split
  case h_8 =>
    rw [capped_of_le hle]
    split
    · rename_i hok
      rw [hok] at h
      cases h
    · rename_i hfound
      rw [hfound] at h
      cases h
      exact ⟨_, rfl⟩
  all_goals
    rename_i haction
    rw [haction] at ht
    cases ht

/-- So is the beginning of an environment that lacks its name. -/
theorem readCommand_of_nameless (hf : Vocabulary.find? name = some meaning)
    (ha : meaning.action = .beginEnvironment) (h : (environmentName s).1 = none) :
    readCommand args name span .math done s =
      pushUnknown done (Vocabulary.command name)
        (.argumentCount (Vocabulary.command name) meaning.arity 0) span s := by
  rw [readCommand.eq_def]
  simp only [filter_find? hf (.inl rfl), ha, h]

end

/-! ## All functions together -/

/-- No reading function goes back before where it started, and an item takes a token. -/
structure GoesOn (args : List (List Atom)) : Prop where
  items (stop mode done s) : (readItems args stop mode done s).2.rest <:+ s.rest
  item (mode done s) : (readItem args mode done s).2.rest <:+ s.rest.tail
  group (mode s) : (readGroup args mode s).2.rest <:+ s.rest
  argument (mode s) : (readArgument args mode s).2.rest <:+ s.rest
  script (slot mode done span s) : (readScript args slot mode done span s).2.rest <:+ s.rest
  arguments (mode count s) : (readArguments args mode count s).2.rest <:+ s.rest
  index (s) : (readIndex args s).2.rest <:+ s.rest
  rows (name span cells rows s) : (readRows args name span cells rows s).2.rest <:+ s.rest
  command (name span mode done s) : (readCommand args name span mode done s).2.rest <:+ s.rest
  name (s : Reader) : (environmentName s).2.rest <:+ s.rest

/-- A command that lacks its arguments, or an environment its name, is kept, and a command is kept
only by going on right after it. -/
structure GoesBack (args : List (List Atom)) : Prop where
  lacking {name meaning found} (span done s) : Vocabulary.find? name = some meaning →
    meaning.action.takesArguments = true →
    (readArguments args meaning.action.argumentMode meaning.arity
      (if meaning.action = .radical then readIndex args s else (none, s)).2).1 = .error found →
    ∃ s', readCommand args name span .math done s =
      pushUnknown done (Vocabulary.command name)
        (.argumentCount (Vocabulary.command name) meaning.arity found) span (s.rewind s')
  nameless {name meaning} (span done s) : Vocabulary.find? name = some meaning →
    meaning.action = .beginEnvironment → (environmentName s).1 = none →
    readCommand args name span .math done s =
      pushUnknown done (Vocabulary.command name)
        (.argumentCount (Vocabulary.command name) meaning.arity 0) span s
  kept {a : Atom} (name span mode done s) : (readCommand args name span mode done s).1 = a :: done →
    a.kind = .unknownCommand → KeepsCommand span s (readCommand args name span mode done s).2

/-- A token stream whose only end of input comes last is read up to there. -/
def ReadsAll (args : List (List Atom)) : Prop :=
  ∀ (tokens : List SpannedToken) (span : Span) (mode : ReadingMode) (supply : Nat),
    (∀ t ∈ tokens, t.token ≠ .endOfInput) →
      (readAll args mode (start (tokens ++ [⟨.endOfInput, span⟩]) supply)).2.rest <:+
        [⟨.endOfInput, span⟩]

section

variable (args : List (List Atom))

theorem goesOn : GoesOn args where
  items stop mode done s := (leadsTo_readItems args mode done s stop).rest
  item mode done s := by
    cases hs : s.rest with
    | nil =>
        rw [readItem_nil mode done hs, hs]
        exact List.suffix_refl _
    | cons t rest => exact (leadsTo_readItem args mode done hs).rest
  group mode s := (leadsTo_readGroup args mode s).rest
  argument mode s := (leadsTo_readArgument args mode s).rest
  script slot mode done span s := (leadsTo_readScript args mode done s slot span).rest
  arguments mode count s := (leadsTo_readArguments args mode s count).rest
  index s := (leadsTo_readIndex args s).rest
  rows name span cells rows s := (leadsTo_readRows args s name span cells rows).rest
  command name span mode done s := (leadsTo_readCommand args name span mode done s).rest
  name s := (leadsTo_environmentName (LeadsTo.refl s)).rest

theorem goesBack : GoesBack args where
  lacking _ _ _ := readCommand_of_lacking
  nameless _ _ _ := readCommand_of_nameless
  kept _ _ _ _ _ := keepsCommand_readCommand

theorem readsAll : ReadsAll args := by
  intro tokens span mode supply htokens
  have hsuffix := (leadsTo_readItems args mode []
    (start (tokens ++ [⟨.endOfInput, span⟩]) supply) .endOfInput).rest
  exact rest_readAll_suffix args mode supply htokens hsuffix

/-- Reading ends whatever the tokens are: no function goes back before where it started, a command
that lacks an argument goes back to where the command ended, and nothing is left before the end of
input. -/
theorem reading_goes_on :
    (∀ depth, EndsWithin args depth) ∧ GoesOn args ∧ GoesBack args ∧ ReadsAll args :=
  ⟨endsWithin args, goesOn args, goesBack args, readsAll args⟩

end

end FormulaEditor.Latex.Reader

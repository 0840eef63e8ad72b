import FormulaEditor.Proofs.Latex.Cutting

/-!
# The groups of a token stream

Every source is read as a balanced token stream with one end of input, its last token. A group that
has no closing brace ends at the end of the source, and is reported where it begins.
-/

namespace FormulaEditor.Latex

open Lexer (nestingAfter StandsAt Cuts)

/-- The number of open groups after some tokens, unless one of them ends a group that is not open. -/
def openGroups? (opened : Nat) : List Token → Option Nat
  | [] => some opened
  | t :: rest =>
      if t = .groupEnd ∧ opened = 0 then none else openGroups? (nestingAfter opened t) rest

/-- Whether the groups that begin among some tokens are those that end there. -/
def IsBalanced (ts : List Token) : Prop :=
  openGroups? 0 ts = some 0

/-- Whether a token ends a group without being read from a brace. -/
def SpannedToken.isImplicitEnd (t : SpannedToken) : Bool :=
  t.token == .groupEnd && t.span.start == t.span.stop

/-- Whether some tokens, before which `depth` groups are open besides another one, end that other group
without a brace. -/
def EndsImplicitly (depth : Nat) (ts : List SpannedToken) : Prop :=
  ∃ inner stop after, ts = inner ++ ⟨.groupEnd, Span.at stop⟩ :: after ∧
    openGroups? depth (inner.map SpannedToken.token) = some 0

/-- Whether a diagnostic reports a group that is never closed. -/
def Diagnostic.isUnclosedGroup (d : Diagnostic) : Bool :=
  d.problem == .unclosedGroup

/-- The tokens of a stream without their places. -/
def Tokens.kinds (s : Tokens) : List Token :=
  s.tokens.map SpannedToken.token

/-! ## Counting -/

theorem openGroups?_cons {n : Nat} {t : Token} (h : t = .groupEnd → n ≠ 0) (ts : List Token) :
    openGroups? n (t :: ts) = openGroups? (nestingAfter n t) ts :=
  if_neg fun hc => h hc.1 hc.2

theorem nestingAfter_add_count {n : Nat} {t : Token} (h : t = .groupEnd → n ≠ 0) :
    nestingAfter n t + [t].count .groupEnd = n + [t].count .groupBegin := by
  cases t with
  | groupEnd =>
      have hn := h rfl
      show n - 1 + 1 = n
      omega
  | _ => rfl

/-- The groups that are open in the end are those that were open before or begin, without those that
end. -/
theorem add_count_of_openGroups? {n m : Nat} {ts : List Token} (h : openGroups? n ts = some m) :
    m + ts.count .groupEnd = n + ts.count .groupBegin := by
  induction ts generalizing n with
  | nil =>
      cases h
      rfl
  | cons t ts ih =>
      obtain ⟨hend, hts⟩ := Option.ite_none_left_eq_some.1 h
      have hstep := nestingAfter_add_count fun ht hn => hend ⟨ht, hn⟩
      have hrest := ih hts
      rw [← List.singleton_append, List.count_append, List.count_append]
      omega

theorem exists_openGroups?_take {n m : Nat} {ts : List Token} (h : openGroups? n ts = some m)
    (k : Nat) : ∃ i, openGroups? n (ts.take k) = some i := by
  induction ts generalizing n k with
  | nil => exact ⟨n, by rw [List.take_nil]; rfl⟩
  | cons t ts ih =>
      cases k with
      | zero => exact ⟨n, rfl⟩
      | succ k =>
          obtain ⟨hend, hts⟩ := Option.ite_none_left_eq_some.1 h
          rw [List.take_succ_cons, openGroups?, if_neg hend]
          exact ih hts k

/-- No prefix of balanced tokens ends more groups than it begins. -/
theorem IsBalanced.count_take_le {ts : List Token} (h : IsBalanced ts) (k : Nat) :
    (ts.take k).count .groupEnd ≤ (ts.take k).count .groupBegin := by
  obtain ⟨i, hi⟩ := exists_openGroups?_take h k
  have hcount := add_count_of_openGroups? hi
  omega

theorem IsBalanced.count_eq {ts : List Token} (h : IsBalanced ts) :
    ts.count .groupEnd = ts.count .groupBegin := by
  simpa using add_count_of_openGroups? h

theorem openGroups?_replicate (n m : Nat) :
    openGroups? (n + m) (List.replicate n .groupEnd) = some m := by
  induction n with
  | zero => exact congrArg some (Nat.zero_add m)
  | succ n ih =>
      rw [List.replicate_succ, openGroups?_cons fun _ => by omega]
      have hnesting : nestingAfter (n + 1 + m) .groupEnd = n + m := by
        simp only [nestingAfter]
        omega
      rw [hnesting]
      exact ih

theorem openGroups?_append (n : Nat) (ts us : List Token) :
    openGroups? n (ts ++ us) = (openGroups? n ts).bind fun m => openGroups? m us := by
  induction ts generalizing n with
  | nil => rfl
  | cons t ts ih =>
      simp only [List.cons_append, openGroups?]
      split
      · rfl
      · exact ih _

theorem EndsImplicitly.cons {n : Nat} {t : SpannedToken} {ts : List SpannedToken}
    (ht : t.token = .groupEnd → n ≠ 0) (h : EndsImplicitly (nestingAfter n t.token) ts) :
    EndsImplicitly n (t :: ts) := by
  obtain ⟨inner, stop, after, rfl, hinner⟩ := h
  exact ⟨t :: inner, stop, after, rfl, (openGroups?_cons ht _).trans hinner⟩

namespace Lexer

/-- At the end of a source, every open group is ended. -/
theorem endsImplicitly_finish (offset : Nat) {opened : List Nat} {k : Nat} (hk : k < opened.length) :
    EndsImplicitly k (finish offset opened).tokens := by
  have hsplit : opened.length = k + (1 + (opened.length - k - 1)) := by omega
  refine ⟨List.replicate k ⟨.groupEnd, Span.at offset⟩, offset,
    List.replicate (opened.length - k - 1) ⟨.groupEnd, Span.at offset⟩ ++
      [⟨.endOfInput, Span.at offset⟩], ?_, ?_⟩
  · simp only [finish, List.map_const']
    rw [hsplit, ← List.replicate_append_replicate, ← List.replicate_append_replicate,
      List.append_assoc, List.append_assoc]
    simp
  · rw [List.map_replicate]
    exact openGroups?_replicate k 0

variable {offset : Nat} {mode : Mode} {opened : List Nat} {text : List Char} {s : Tokens}

theorem Spells.ne_endOfInput {inText : Bool} {t : Token} {spelling : List Char}
    (h : Spells inText t spelling) : t ≠ .endOfInput := by
  cases h <;> exact Token.noConfusion

theorem kinds_finish (offset : Nat) (opened : List Nat) :
    (finish offset opened).kinds = List.replicate opened.length .groupEnd ++ [.endOfInput] := by
  simp [Tokens.kinds, finish, List.map_const']

/-- What is cut ends the groups that were open before it or begin in it, and no others. -/
theorem Cuts.openGroups?_kinds (h : Cuts offset mode opened text s) :
    openGroups? opened.length s.kinds = some 0 := by
  induction h with
  | @done offset mode opened =>
      have hclosed := openGroups?_replicate opened.length 0
      rw [Nat.add_zero] at hclosed
      rw [kinds_finish, openGroups?_append, hclosed]
      rfl
  | @token offset mode opened t spelling blank rest s hspells hend hblank hcut ih =>
      have hstep : t = .groupEnd → opened.length ≠ 0 := fun ht hn =>
        hend ht (List.eq_nil_of_length_eq_zero hn)
      rw [length_openedAfter] at ih
      exact (openGroups?_cons hstep _).trans ih
  | blank hmode hblank hcut ih => exact ih
  | comment hcomment hcut ih => exact ih
  | dropped hdrops hcut ih => exact ih

/-- The end of input is the last token, and no other. -/
theorem Cuts.exists_tokens_eq (h : Cuts offset mode opened text s) :
    ∃ init, s.tokens = init ++ [⟨.endOfInput, Span.at (offset + byteLength text)⟩] ∧
      ∀ t ∈ init, t.token ≠ .endOfInput := by
  induction h with
  | @done offset mode opened =>
      refine ⟨opened.map fun _ => ⟨.groupEnd, Span.at offset⟩, rfl, fun t ht => ?_⟩
      obtain ⟨-, -, rfl⟩ := List.mem_map.1 ht
      exact Token.noConfusion
  | @token offset mode opened t spelling blank rest s hspells hend hblank hcut ih =>
      obtain ⟨init, hinit, hne⟩ := ih
      refine ⟨⟨t, ⟨offset, offset + byteLength spelling⟩⟩ :: init, ?_,
        List.forall_mem_cons.2 ⟨hspells.ne_endOfInput, hne⟩⟩
      simp only [Tokens.cons, hinit, byteLength_append, Nat.add_assoc, List.cons_append]
  | blank hmode hblank hcut ih =>
      simpa only [byteLength_append, Nat.add_assoc] using ih
  | comment hcomment hcut ih =>
      simpa only [byteLength_append, Nat.add_assoc] using ih
  | dropped hdrops hcut ih =>
      rw [byteLength_cons, ← Nat.add_assoc]
      exact ih

/-- There are as many ends of groups without a brace as groups that are reported. -/
theorem Cuts.countP_isImplicitEnd (h : Cuts offset mode opened text s) :
    s.tokens.countP SpannedToken.isImplicitEnd = s.diagnostics.countP Diagnostic.isUnclosedGroup := by
  induction h with
  | @done offset mode opened =>
      have hends : opened.countP (fun _ => SpannedToken.isImplicitEnd ⟨.groupEnd, Span.at offset⟩) =
          opened.length := List.countP_eq_length.2 fun _ _ => by simp [SpannedToken.isImplicitEnd, Span.at]
      have hreports : opened.countP
          (fun start => Diagnostic.isUnclosedGroup ⟨⟨start, start + 1⟩, .unclosedGroup⟩) =
            opened.length := List.countP_eq_length.2 fun _ _ => rfl
      simp only [finish, List.countP_append, List.countP_map, Function.comp_def, hends, hreports]
      rfl
  | @token offset mode opened t spelling blank rest s hspells hend hblank hcut ih =>
      have hpos := byteLength_pos hspells.ne_nil
      have hspelled : SpannedToken.isImplicitEnd ⟨t, ⟨offset, offset + byteLength spelling⟩⟩ = false := by
        rw [SpannedToken.isImplicitEnd, Bool.and_eq_false_iff]
        exact .inr (beq_eq_false_iff_ne.2 (by simp only; omega))
      simpa only [Tokens.cons, List.countP_cons, hspelled, Bool.false_eq_true, if_false,
        Nat.add_zero] using ih
  | blank hmode hblank hcut ih => exact ih
  | comment hcomment hcut ih => exact ih
  | @dropped offset mode opened c problem rest s hdrops hcut ih =>
      have hother : Diagnostic.isUnclosedGroup ⟨⟨offset, offset + c.utf8Size⟩, problem⟩ = false := by
        cases hdrops <;> rfl
      simpa only [Tokens.report, List.countP_cons, hother, Bool.false_eq_true, if_false,
        Nat.add_zero] using ih

/-- A group that is reported is one of those that were open before, or begins at a token of its own;
no brace ends it. -/
theorem Cuts.unclosedGroup (h : Cuts offset mode opened text s) {d : Diagnostic}
    (hd : d ∈ s.diagnostics) (hp : d.problem = .unclosedGroup) :
    (∃ k start, opened[k]? = some start ∧ d.span = ⟨start, start + 1⟩ ∧ EndsImplicitly k s.tokens) ∨
      ∃ before after, s.tokens = before ++ ⟨.groupBegin, d.span⟩ :: after ∧ EndsImplicitly 0 after := by
  induction h with
  | @done offset mode opened =>
      obtain ⟨start, hstart, rfl⟩ := List.mem_map.1 hd
      obtain ⟨k, hk⟩ := List.mem_iff_getElem?.1 hstart
      exact .inl ⟨k, start, hk, rfl, endsImplicitly_finish offset (List.getElem?_eq_some_iff.1 hk).1⟩
  | @token offset mode opened t spelling blank rest s hspells hend hblank hcut ih =>
      rcases ih hd with ⟨k, start, hk, hspan, hends⟩ | ⟨before, after, heq, hends⟩
      · cases t with
        | groupBegin =>
            cases k with
            | zero =>
                cases hk
                cases hspells
                refine .inr ⟨[], s.tokens, ?_, hends⟩
                rw [hspan]
                rfl
            | succ k => exact .inl ⟨k, start, hk, hspan, hends.cons nofun⟩
        | groupEnd =>
            rw [openedAfter, List.getElem?_tail] at hk
            exact .inl ⟨k + 1, start, hk, hspan, hends.cons fun _ => Nat.succ_ne_zero k⟩
        | _ => exact .inl ⟨k, start, hk, hspan, hends.cons nofun⟩
      · exact .inr ⟨_ :: before, after, congrArg _ heq, hends⟩
  | blank hmode hblank hcut ih => exact ih hd
  | comment hcomment hcut ih => exact ih hd
  | dropped hdrops hcut ih =>
      rcases List.mem_cons.1 hd with rfl | hd
      · cases hp
        cases hdrops
      · exact ih hd

end Lexer

/-! ## Every source -/

/-- What holds of the groups of a stream, however the braces of its source match. -/
structure ClosesGroups (source : String) (s : Tokens) : Prop where
  /-- The last token is the end of input, and no other. -/
  ends : ∃ init, s.tokens = init ++ [⟨.endOfInput, Span.at source.utf8ByteSize⟩] ∧
    ∀ t ∈ init, t.token ≠ .endOfInput
  /-- No group ends before it begins. -/
  count_take_le (k : Nat) : (s.kinds.take k).count .groupEnd ≤ (s.kinds.take k).count .groupBegin
  /-- Every group that begins ends. -/
  count_eq : s.kinds.count .groupEnd = s.kinds.count .groupBegin
  /-- Every end without a brace is reported. -/
  countP_isImplicitEnd :
    s.tokens.countP SpannedToken.isImplicitEnd = s.diagnostics.countP Diagnostic.isUnclosedGroup
  /-- What is reported is the brace where a group begins that ends without one. -/
  unclosed (d : Diagnostic) : d ∈ s.diagnostics → d.problem = .unclosedGroup →
    StandsAt ['{'] 0 source.toList d.span ∧
      ∃ before after, s.tokens = before ++ ⟨.groupBegin, d.span⟩ :: after ∧ EndsImplicitly 0 after

theorem closesGroups_tokenize (source : String) : ClosesGroups source (tokenize source) := by
  have hcuts : Cuts 0 .math [] source.toList (tokenize source) := Lexer.cuts_read _ _ _ _
  have hbalanced : IsBalanced (tokenize source).kinds := hcuts.openGroups?_kinds
  refine ⟨?_, hbalanced.count_take_le, hbalanced.count_eq, hcuts.countP_isImplicitEnd,
    fun d hd hp => ?_⟩
  · obtain ⟨init, htokens, hinit⟩ := hcuts.exists_tokens_eq
    rw [Nat.zero_add, Lexer.byteLength_toList] at htokens
    exact ⟨init, htokens, hinit⟩
  · rcases hcuts.unclosedGroup hd hp with ⟨k, start, hk, -⟩ | ⟨before, after, htokens, hends⟩
    · cases hk
    · refine ⟨?_, before, after, htokens, hends⟩
      obtain ⟨spelling, hstands, hspells | ⟨-, hend | hend⟩⟩ := hcuts.spelled htokens
      · cases hspells
        exact hstands
      · cases hend
      · cases hend

end FormulaEditor.Latex

import FormulaEditor.Proofs.Latex.Balance
import FormulaEditor.Proofs.Latex.Reporting

/-!
# Nothing of a source is lost

Tokens stand in the source in their order, each spelled out at its span. What no token covers is
blank, a comment, or a character that is reported to be dropped, and every problem is reported at a
span of the source.
-/

namespace FormulaEditor.Latex

/-- Whether a token covers a byte. -/
def SpannedToken.Covers (t : SpannedToken) (byte : Nat) : Prop :=
  t.span.start ≤ byte ∧ byte < t.span.stop

namespace Tokens

/-- Whether one of the tokens covers a byte. -/
def Covers (s : Tokens) (byte : Nat) : Prop :=
  ∃ t ∈ s.tokens, t.Covers byte

/-- The problems that are reported at a span. -/
def problemsAt (s : Tokens) (span : Span) : List Problem :=
  (s.diagnostics.filter fun d => d.span = span).map Diagnostic.problem

/-- The tokens that end at a byte or before it. -/
def kindsBefore (s : Tokens) (byte : Nat) : List Token :=
  (s.tokens.filter fun t => t.span.stop ≤ byte).map SpannedToken.token

end Tokens

namespace Lexer

/-- What a character between the tokens is, after a text that starts at an offset inside `nesting`
groups, and the problems that are reported there. -/
inductive IsGap (offset nesting : Nat) (s : Tokens) (before : List Char) (c : Char) :
    List Problem → Prop where
  | blank : Text.isBlank c = true → IsGap offset nesting s before c []
  /-- A percent sign begins a comment, or is part of one. -/
  | percent : c = '%' → IsGap offset nesting s before c []
  /-- A comment goes on from a percent sign that is not in a token through the end of the line. -/
  | comment {start line : List Char} : before = start ++ '%' :: line → '\n' ∉ line →
      ¬s.Covers (offset + byteLength start) → IsGap offset nesting s before c []
  | nul : c = '\x00' → IsGap offset nesting s before c [.disallowedChar c]
  /-- A closing brace is between the tokens where no group is open. -/
  | unmatchedClose : c = '}' →
      openGroups? nesting (s.kindsBefore (offset + byteLength before)) = some 0 →
      IsGap offset nesting s before c [.unmatchedClose]

/-! ## Splitting -/

theorem append_eq_append_cons {piece rest before after : List Char} {c : Char}
    (h : piece ++ rest = before ++ c :: after) :
    (∃ mid, piece = before ++ c :: mid ∧ after = mid ++ rest) ∨
      ∃ before', before = piece ++ before' ∧ rest = before' ++ c :: after := by
  rcases List.append_eq_append_iff.1 h with ⟨before', rfl, hrest⟩ | ⟨mid, rfl, hmid⟩
  · exact .inr ⟨before', rfl, hrest⟩
  · rcases List.cons_eq_append_iff.1 hmid with ⟨rfl, rfl⟩ | ⟨mid', rfl, rfl⟩
    · exact .inr ⟨[], by simp, rfl⟩
    · exact .inl ⟨mid', rfl, rfl⟩

theorem StandsAt.mem {text before after : List Char} {c : Char} {offset : Nat} {span : Span}
    (h : StandsAt text offset (before ++ c :: after) span)
    (hstart : span.start ≤ offset + byteLength before)
    (hstop : offset + byteLength before < span.stop) : c ∈ text := by
  obtain ⟨front, back, heq, rfl⟩ := h
  simp only at hstart hstop
  rw [List.append_assoc] at heq
  rcases append_eq_append_cons heq.symm with ⟨mid, rfl, -⟩ | ⟨before', rfl, hrest⟩
  · have hpos := byteLength_pos (List.cons_ne_nil c mid)
    rw [byteLength_append] at hstart
    omega
  · rcases append_eq_append_cons hrest with ⟨mid, rfl, -⟩ | ⟨before'', rfl, -⟩
    · exact List.mem_append_right _ List.mem_cons_self
    · simp only [byteLength_append] at hstop
      omega

/-! ## Comments -/

theorem IsComment.before {rest before mid : List Char} {c : Char}
    (h : IsComment rest (before ++ c :: mid)) :
    before = [] ∧ c = '%' ∨ ∃ line, before = '%' :: line ∧ '\n' ∉ line := by
  cases before with
  | nil =>
      refine .inl ⟨rfl, ?_⟩
      generalize hcomment : [] ++ c :: mid = comment at h
      cases h <;> exact (List.cons.inj hcomment).1
  | cons first line =>
      refine .inr ⟨line, ?_⟩
      generalize hcomment : first :: line ++ c :: mid = comment at h
      cases h with
      | line htext =>
          obtain ⟨rfl, hline⟩ := List.cons.inj hcomment
          refine ⟨rfl, fun hmem => htext ?_⟩
          rcases append_eq_append_cons hline.symm with ⟨mid', rfl, -⟩ | ⟨line', rfl, hlast⟩
          · exact List.mem_append_left _ hmem
          · obtain ⟨rfl, -⟩ := List.append_eq_singleton_iff.1 hlast.symm
              |>.resolve_right (fun h => by cases h.2)
            simpa using hmem
      | last htext =>
          obtain ⟨rfl, rfl⟩ := List.cons.inj hcomment
          exact ⟨rfl, fun hmem => htext (List.mem_append_left _ hmem)⟩

theorem IsComment.after {rest start mid : List Char} (h : IsComment rest (start ++ '%' :: mid)) :
    '\n' ∈ mid ∨ rest = [] := by
  generalize hcomment : start ++ '%' :: mid = comment at h
  cases h with
  | line htext =>
      refine .inl ?_
      rcases append_eq_append_cons hcomment.symm with ⟨mid', -, rfl⟩ | ⟨before', -, hlast⟩
      · exact List.mem_append_right _ List.mem_cons_self
      · have hmem : '%' ∈ ['\n'] := hlast ▸ List.mem_append_right _ List.mem_cons_self
        cases List.mem_singleton.1 hmem
  | last htext hrest => exact .inr hrest

/-! ## Diagnostics -/

variable {offset : Nat} {mode : Mode} {opened : List Nat} {text : List Char} {s : Tokens}

/-- Every problem is reported at a text in what is cut, or where a group begins that was open before. -/
theorem Cuts.stands_of_mem_diagnostics (h : Cuts offset mode opened text s) {d : Diagnostic}
    (hd : d ∈ s.diagnostics) :
    (∃ reported, StandsAt reported offset text d.span) ∨
      ∃ start ∈ opened, d.span = ⟨start, start + 1⟩ := by
  induction h with
  | @done offset mode opened =>
      obtain ⟨start, hstart, rfl⟩ := List.mem_map.1 hd
      exact .inr ⟨start, hstart, rfl⟩
  | @token offset mode opened t spelling blank rest s hspells hend hblank hcut ih =>
      rcases ih hd with ⟨reported, hstands⟩ | ⟨start, hstart, hspan⟩
      · exact .inl ⟨reported, (hstands.append_left blank).append_left spelling⟩
      · cases t with
        | groupBegin =>
            rcases List.mem_cons.1 hstart with rfl | hstart
            · cases hspells
              exact .inl ⟨['{'], [], blank ++ rest, rfl, hspan⟩
            · exact .inr ⟨start, hstart, hspan⟩
        | groupEnd => exact .inr ⟨start, List.mem_of_mem_tail hstart, hspan⟩
        | _ => exact .inr ⟨start, hstart, hspan⟩
  | blank hmode hblank hcut ih =>
      exact (ih hd).imp_left fun ⟨reported, hstands⟩ => ⟨reported, hstands.append_left _⟩
  | comment hcomment hcut ih =>
      exact (ih hd).imp_left fun ⟨reported, hstands⟩ => ⟨reported, hstands.append_left _⟩
  | @dropped offset mode opened c problem rest s hdrops hcut ih =>
      rcases List.mem_cons.1 hd with rfl | hd
      · exact .inl ⟨[c], [], rest, rfl, by simp [byteLength]⟩
      · rcases ih hd with ⟨reported, hstands⟩ | hopened
        · rw [← byteLength_singleton] at hstands
          exact .inl ⟨reported, hstands.append_left [c]⟩
        · exact .inr hopened

/-- Nothing is reported between the groups that are open and what is cut. -/
theorem Cuts.problemsAt_eq_nil (h : Cuts offset mode opened text s) {span : Span}
    (hopened : ∀ start ∈ opened, start < span.start) (hoffset : span.start < offset) :
    s.problemsAt span = [] := by
  refine List.map_eq_nil_iff.2 (List.filter_eq_nil_iff.2 fun d hd hspan => ?_)
  rw [decide_eq_true_eq] at hspan
  subst hspan
  rcases h.stands_of_mem_diagnostics hd with ⟨reported, hstands⟩ | ⟨start, hstart, hspan⟩
  · have hbounds := hstands.bounds
    omega
  · have hlt := hopened start hstart
    rw [hspan] at hlt
    exact Nat.lt_irrefl _ hlt

/-! ## Places between the tokens -/

theorem Cuts.covers_le (h : Cuts offset mode opened text s) {byte : Nat} (hb : s.Covers byte) :
    offset ≤ byte := by
  obtain ⟨t, ht, hcovers⟩ := hb
  exact Nat.le_trans (h.bounds ht).1 hcovers.1

/-- From an offset on, two streams say the same about the places between their tokens, one of them
inside `nesting` groups and the other one inside `nesting'`. -/
structure SameFrom (offset nesting nesting' : Nat) (s s' : Tokens) : Prop where
  covers {byte : Nat} : offset ≤ byte → (s.Covers byte ↔ s'.Covers byte)
  problems {span : Span} : offset ≤ span.start → s.problemsAt span = s'.problemsAt span
  groups {byte : Nat} : offset ≤ byte →
    openGroups? nesting (s.kindsBefore byte) = openGroups? nesting' (s'.kindsBefore byte)

theorem SameFrom.refl (offset nesting : Nat) (s : Tokens) : SameFrom offset nesting nesting s s :=
  ⟨fun _ => Iff.rfl, fun _ => rfl, fun _ => rfl⟩

theorem sameFrom_cons {nesting start stop : Nat} {t : Token} (ht : t = .groupEnd → nesting ≠ 0)
    (hstop : stop ≤ offset) (s : Tokens) :
    SameFrom offset nesting (nestingAfter nesting t) (s.cons t ⟨start, stop⟩) s := by
  refine ⟨fun hle => ?_, fun _ => rfl, fun hle => ?_⟩
  · refine ⟨fun ⟨u, hu, hcovers⟩ => ?_, fun ⟨u, hu, hcovers⟩ => ⟨u, List.mem_cons_of_mem _ hu, hcovers⟩⟩
    rcases List.mem_cons.1 hu with rfl | hu
    · exact absurd hcovers.2 (Nat.not_lt.2 (Nat.le_trans hstop hle))
    · exact ⟨u, hu, hcovers⟩
  · rw [Tokens.kindsBefore, Tokens.cons, List.filter_cons_of_pos (by simpa using Nat.le_trans hstop hle),
      List.map_cons, openGroups?_cons ht]
    rfl

theorem sameFrom_report {start stop : Nat} (hstart : start < offset) (nesting : Nat)
    (problem : Problem) (s : Tokens) :
    SameFrom offset nesting nesting (s.report problem ⟨start, stop⟩) s := by
  refine ⟨fun _ => Iff.rfl, fun {span} hle => ?_, fun _ => rfl⟩
  have hne : ⟨start, stop⟩ ≠ span := by
    rintro rfl
    exact absurd hle (Nat.not_le.2 hstart)
  rw [Tokens.problemsAt, Tokens.report, List.filter_cons_of_neg (by simpa using hne)]
  rfl

/-- Whether what no token covers of a text, which starts at an offset, are gaps. -/
def LeavesGaps (offset nesting : Nat) (text : List Char) (s : Tokens) : Prop :=
  ∀ before c after, text = before ++ c :: after → ¬s.Covers (offset + byteLength before) →
    IsGap offset nesting s before c
      (s.problemsAt ⟨offset + byteLength before, offset + byteLength before + c.utf8Size⟩)

/-- A gap in what follows a piece is one of the whole. -/
theorem IsGap.append_left {nesting nesting' : Nat} {s' : Tokens} {piece before : List Char} {c : Char}
    {problems : List Problem} (h : IsGap (offset + byteLength piece) nesting' s' before c problems)
    (hsame : SameFrom (offset + byteLength piece) nesting nesting' s s') :
    IsGap offset nesting s (piece ++ before) c problems := by
  cases h with
  | blank hc => exact .blank hc
  | percent hc => exact .percent hc
  | @comment start line hbefore hline hcovers =>
      have hcomment : piece ++ before = (piece ++ start) ++ '%' :: line := by
        rw [hbefore, List.append_assoc]
      refine .comment hcomment hline ?_
      rw [byteLength_append, ← Nat.add_assoc, hsame.covers (Nat.le_add_right _ _)]
      exact hcovers
  | nul hc => exact .nul hc
  | unmatchedClose hc hgroups =>
      refine .unmatchedClose hc ?_
      rw [byteLength_append, ← Nat.add_assoc, hsame.groups (Nat.le_add_right _ _)]
      exact hgroups

/-- Only gaps are left in a text if that holds of a piece of it and of what follows the piece. -/
theorem LeavesGaps.append {nesting nesting' : Nat} {s' : Tokens} {piece rest : List Char}
    (hpiece : ∀ before c mid, piece = before ++ c :: mid → ¬s.Covers (offset + byteLength before) →
      IsGap offset nesting s before c
        (s.problemsAt ⟨offset + byteLength before, offset + byteLength before + c.utf8Size⟩))
    (hrest : LeavesGaps (offset + byteLength piece) nesting' rest s')
    (hsame : SameFrom (offset + byteLength piece) nesting nesting' s s') :
    LeavesGaps offset nesting (piece ++ rest) s := by
  intro before c after htext hcovers
  rcases append_eq_append_cons htext with ⟨mid, hmid, -⟩ | ⟨before, rfl, hafter⟩
  · exact hpiece before c mid hmid hcovers
  · rw [byteLength_append, ← Nat.add_assoc, hsame.covers (Nat.le_add_right _ _)] at hcovers
    rw [byteLength_append, ← Nat.add_assoc, hsame.problems (Nat.le_add_right _ _)]
    exact (hrest before c after hafter hcovers).append_left hsame

theorem byteLength_lt_append_cons (before mid : List Char) (c : Char) :
    byteLength before < byteLength (before ++ c :: mid) := by
  have hpos := byteLength_pos (List.cons_ne_nil c mid)
  rw [byteLength_append]
  omega

theorem lt_of_mem_openedAfter {next : Nat} (hopened : ∀ start ∈ opened, start < offset)
    (hnext : offset < next) {t : Token} : ∀ start ∈ openedAfter offset opened t, start < next := by
  intro start hstart
  have hmem : start = offset ∨ start ∈ opened := by
    cases t with
    | groupBegin => exact List.mem_cons.1 hstart
    | groupEnd => exact .inr (List.mem_of_mem_tail hstart)
    | _ => exact .inr hstart
  rcases hmem with rfl | hmem
  · exact hnext
  · exact Nat.lt_trans (hopened start hmem) hnext

/-- Nothing is reported in a piece before what is cut. -/
theorem Cuts.problemsAt_piece {before mid : List Char} {c : Char}
    (h : Cuts (offset + byteLength (before ++ c :: mid)) mode opened text s)
    (hopened : ∀ start ∈ opened, start < offset) :
    s.problemsAt ⟨offset + byteLength before, offset + byteLength before + c.utf8Size⟩ = [] :=
  h.problemsAt_eq_nil (fun start hstart => Nat.lt_add_right _ (hopened start hstart))
    (Nat.add_lt_add_left (byteLength_lt_append_cons before mid c) offset)

theorem Cuts.leavesGaps_blank {blank rest : List Char} (hblank : ∀ c ∈ blank, Text.isBlank c = true)
    (h : Cuts (offset + byteLength blank) mode opened rest s)
    (hopened : ∀ start ∈ opened, start < offset)
    (hrest : LeavesGaps (offset + byteLength blank) opened.length rest s) :
    LeavesGaps offset opened.length (blank ++ rest) s := by
  refine .append (fun before c mid hmid _ => ?_) hrest (.refl _ _ _)
  subst hmid
  rw [h.problemsAt_piece hopened]
  exact .blank (hblank c (List.mem_append_right _ List.mem_cons_self))

theorem Cuts.leavesGaps_comment {comment rest : List Char} (hcomment : IsComment rest comment)
    (h : Cuts (offset + byteLength comment) mode opened rest s)
    (hopened : ∀ start ∈ opened, start < offset)
    (hrest : LeavesGaps (offset + byteLength comment) opened.length rest s) :
    LeavesGaps offset opened.length (comment ++ rest) s := by
  refine .append (fun before c mid hmid _ => ?_) hrest (.refl _ _ _)
  subst hmid
  rw [h.problemsAt_piece hopened]
  rcases hcomment.before with ⟨rfl, rfl⟩ | ⟨line, rfl, hline⟩
  · exact .percent rfl
  · refine .comment (List.nil_append _).symm hline fun hpercent => ?_
    exact absurd (h.covers_le hpercent)
      (Nat.not_le.2 (Nat.add_lt_add_left (byteLength_lt_append_cons [] (line ++ c :: mid) '%') offset))

theorem Cuts.leavesGaps_dropped {c : Char} {problem : Problem} {rest : List Char}
    (hdrops : Drops opened c problem) (h : Cuts (offset + c.utf8Size) mode opened rest s)
    (hopened : ∀ start ∈ opened, start < offset)
    (hrest : LeavesGaps (offset + c.utf8Size) opened.length rest s) :
    LeavesGaps offset opened.length (c :: rest) (s.report problem ⟨offset, offset + c.utf8Size⟩) := by
  have hsame : SameFrom (offset + byteLength [c]) opened.length opened.length
      (s.report problem ⟨offset, offset + c.utf8Size⟩) s := by
    rw [byteLength_singleton]
    exact sameFrom_report (Nat.lt_add_of_pos_right c.utf8Size_pos) _ problem s
  rw [← byteLength_singleton] at hrest
  show LeavesGaps offset opened.length ([c] ++ rest) _
  refine .append (fun before d mid hmid _ => ?_) hrest hsame
  obtain ⟨rfl, hd⟩ | ⟨-, hd⟩ := List.append_eq_singleton_iff.1 hmid.symm
  · obtain ⟨rfl, -⟩ := List.cons.inj hd
    have hlater : s.problemsAt ⟨offset, offset + d.utf8Size⟩ = [] :=
      h.problemsAt_eq_nil hopened (Nat.lt_add_of_pos_right d.utf8Size_pos)
    have hproblems : (s.report problem ⟨offset, offset + d.utf8Size⟩).problemsAt
        ⟨offset, offset + d.utf8Size⟩ = [problem] := by
      rw [Tokens.problemsAt, Tokens.report, List.filter_cons_of_pos (by simp), List.map_cons]
      exact congrArg _ hlater
    show IsGap offset opened.length _ [] d (Tokens.problemsAt _ ⟨offset, offset + d.utf8Size⟩)
    rw [hproblems]
    cases hdrops with
    | nul => exact .nul rfl
    | unmatchedClose hnone =>
        refine .unmatchedClose rfl ?_
        have hkinds : s.kindsBefore offset = [] := by
          refine List.map_eq_nil_iff.2 (List.filter_eq_nil_iff.2 fun t ht hstop => ?_)
          have hbounds := h.bounds ht
          have hpos := Char.utf8Size_pos '}'
          rw [decide_eq_true_eq] at hstop
          omega
        subst hnone
        exact congrArg (openGroups? 0) hkinds
  · cases hd

/-- What no token covers is blank, a comment, or reported. -/
theorem Cuts.leavesGaps (h : Cuts offset mode opened text s)
    (hopened : ∀ start ∈ opened, start < offset) : LeavesGaps offset opened.length text s := by
  induction h with
  | done =>
      intro before c after htext
      cases before <;> cases htext
  | @token offset mode opened t spelling blank rest s hspells hend hblank hcut ih =>
      have hlt : ∀ start ∈ openedAfter offset opened t, start < offset + byteLength spelling :=
        lt_of_mem_openedAfter hopened (Nat.lt_add_of_pos_right (byteLength_pos hspells.ne_nil))
      have hsame : SameFrom (offset + byteLength spelling) opened.length
          (openedAfter offset opened t).length (s.cons t ⟨offset, offset + byteLength spelling⟩) s := by
        rw [length_openedAfter]
        exact sameFrom_cons (fun ht hn => hend ht (List.eq_nil_of_length_eq_zero hn)) (Nat.le_refl _) s
      refine .append (fun before c mid hmid hcovers => ?_)
        (hcut.leavesGaps_blank hblank hlt
          (ih fun start hstart => Nat.lt_add_right _ (hlt start hstart))) hsame
      subst hmid
      exact absurd ⟨_, List.mem_cons_self, Nat.le_add_right _ _,
        Nat.add_lt_add_left (byteLength_lt_append_cons before mid c) offset⟩ hcovers
  | blank hmode hblank hcut ih =>
      exact hcut.leavesGaps_blank hblank hopened
        (ih fun start hstart => Nat.lt_add_right _ (hopened start hstart))
  | comment hcomment hcut ih =>
      exact hcut.leavesGaps_comment hcomment hopened
        (ih fun start hstart => Nat.lt_add_right _ (hopened start hstart))
  | dropped hdrops hcut ih =>
      exact hcut.leavesGaps_dropped hdrops hopened
        (ih fun start hstart => Nat.lt_add_right _ (hopened start hstart))

/-! ## Comments between the tokens -/

/-- Whether no token covers a part of a comment, which begins with a percent sign that no token covers. -/
def SparesComments (offset : Nat) (text : List Char) (s : Tokens) : Prop :=
  ∀ start line c after, text = start ++ '%' :: (line ++ c :: after) → '\n' ∉ line →
    ¬s.Covers (offset + byteLength start) → ¬s.Covers (offset + byteLength (start ++ '%' :: line))

/-- Comments are spared if that holds of what follows a piece, and if a token covers each percent sign
of the piece or the piece is a comment. -/
theorem SparesComments.append {nesting nesting' : Nat} {s' : Tokens} {piece rest : List Char}
    (hpiece : ∀ start mid, piece = start ++ '%' :: mid → s.Covers (offset + byteLength start) ∨
      IsComment rest piece ∧ ∀ byte, s.Covers byte → offset + byteLength piece ≤ byte)
    (hrest : SparesComments (offset + byteLength piece) rest s')
    (hsame : SameFrom (offset + byteLength piece) nesting nesting' s s') :
    SparesComments offset (piece ++ rest) s := by
  intro start line c after htext hline hpercent
  rcases append_eq_append_cons htext with ⟨mid, rfl, hmid⟩ | ⟨start, rfl, hafter⟩
  · obtain ⟨hcomment, hcovers⟩ := (hpiece start mid rfl).resolve_left hpercent
    rcases append_eq_append_cons hmid.symm with ⟨mid', rfl, -⟩ | ⟨line', rfl, hafter⟩
    · intro hbyte
      have hlt := byteLength_lt_append_cons (start ++ '%' :: line) mid' c
      rw [List.append_assoc, List.cons_append] at hlt
      exact absurd (hcovers _ hbyte) (Nat.not_le.2 (Nat.add_lt_add_left hlt offset))
    · rcases hcomment.after with hmem | rfl
      · exact absurd (List.mem_append_left _ hmem) hline
      · cases line' <;> cases hafter
  · rw [List.append_assoc]
    rw [byteLength_append, ← Nat.add_assoc, hsame.covers (Nat.le_add_right _ _)] at hpercent ⊢
    exact hrest start line c after hafter hline hpercent

theorem SparesComments.append_blank {blank rest : List Char}
    (hblank : ∀ c ∈ blank, Text.isBlank c = true)
    (hrest : SparesComments (offset + byteLength blank) rest s) :
    SparesComments offset (blank ++ rest) s := by
  refine .append (fun start mid hmid => ?_) hrest (.refl _ 0 _)
  subst hmid
  cases hblank '%' (List.mem_append_right _ List.mem_cons_self)

theorem Cuts.sparesComments (h : Cuts offset mode opened text s) : SparesComments offset text s := by
  induction h with
  | done =>
      intro start line c after htext
      cases start <;> cases htext
  | @token offset mode opened t spelling blank rest s hspells hend hblank hcut ih =>
      refine .append (fun start mid hmid => .inl ?_) (ih.append_blank hblank)
        (sameFrom_cons (fun _ => Nat.one_ne_zero) (Nat.le_refl _) s)
      subst hmid
      exact ⟨_, List.mem_cons_self, Nat.le_add_right _ _,
        Nat.add_lt_add_left (byteLength_lt_append_cons start mid '%') offset⟩
  | blank hmode hblank hcut ih => exact ih.append_blank hblank
  | comment hcomment hcut ih =>
      exact .append (fun start mid hmid => .inr ⟨hcomment, fun byte => hcut.covers_le⟩) ih (.refl _ 0 _)
  | @dropped offset mode opened d problem rest s hdrops hcut ih =>
      show SparesComments offset ([d] ++ rest) _
      refine .append (fun start mid hmid => ?_) (byteLength_singleton d ▸ ih)
        (byteLength_singleton d ▸ sameFrom_report (Nat.lt_add_of_pos_right d.utf8Size_pos) 0 problem s)
      have hd : '%' ∈ [d] := hmid ▸ List.mem_append_right _ List.mem_cons_self
      cases List.mem_singleton.1 hd
      cases hdrops

/-- Tokens stand one after the other. -/
theorem Cuts.pairwise (h : Cuts offset mode opened text s) :
    s.tokens.Pairwise fun t u => t.span.stop ≤ u.span.start := by
  induction h with
  | @done offset mode opened =>
      refine List.pairwise_of_forall_mem_list fun t ht u hu => ?_
      have hat : ∀ v ∈ (finish offset opened).tokens, v.span = Span.at offset := by
        intro v hv
        simp only [finish, List.mem_append, List.mem_map, List.mem_singleton] at hv
        rcases hv with ⟨-, -, rfl⟩ | rfl <;> rfl
      rw [hat t ht, hat u hu]
      exact Nat.le_refl _
  | token hspells hend hblank hcut ih =>
      refine List.pairwise_cons.2 ⟨fun u hu => ?_, ih⟩
      exact Nat.le_trans (Nat.le_add_right _ _) (hcut.bounds hu).1
  | blank hmode hblank hcut ih => exact ih
  | comment hcomment hcut ih => exact ih
  | dropped hdrops hcut ih => exact ih

/-! ## Characters that may stand between the tokens -/

/-- Whether a character may stand between tokens, also outside of a comment. -/
def mayStandBetween (c : Char) : Bool :=
  Text.isBlank c || ['%', '\x00', '}'].contains c

theorem not_mayStandBetween {c : Char} (hc : 32 < c.toNat ∧ c.toNat < 125) (hne : c ≠ '%') :
    mayStandBetween c = false := by
  have hblank : Text.isBlank c = false := by
    simp only [Text.isBlank, Bool.or_eq_false_iff, Bool.and_eq_false_iff, decide_eq_false_iff_not,
      beq_eq_false_iff_ne]
    omega
  have hnul : c ≠ '\x00' := by
    rintro rfl
    exact absurd hc.1 (by decide)
  have hbrace : c ≠ '}' := by
    rintro rfl
    exact absurd hc.2 (by decide)
  simp [mayStandBetween, hblank, hne, hnul, hbrace]

theorem not_mayStandBetween_of_isLetter {c : Char} (h : Text.isLetter c = true) :
    mayStandBetween c = false := by
  refine not_mayStandBetween ?_ (by rintro rfl; exact absurd h (by decide))
  simp only [Text.isLetter, Bool.or_eq_true, Bool.and_eq_true, decide_eq_true_eq, Char.le_def,
    UInt32.le_iff_toNat_le] at h
  have ha : 'a'.val.toNat = 97 := rfl
  have hz : 'z'.val.toNat = 122 := rfl
  have hA : 'A'.val.toNat = 65 := rfl
  have hZ : 'Z'.val.toNat = 90 := rfl
  rw [Char.toNat]
  omega

theorem not_mayStandBetween_of_argumentRef? {c : Char} {ref : ArgumentRef}
    (h : argumentRef? c = some ref) : mayStandBetween c = false := by
  unfold argumentRef? at h
  split at h
  · rename_i hdigit
    refine not_mayStandBetween ?_ (by rintro rfl; exact absurd hdigit (by decide))
    simp only [Text.isDigit, Bool.and_eq_true, decide_eq_true_eq, Char.le_def,
      UInt32.le_iff_toNat_le] at hdigit
    have h0 : '0'.val.toNat = 48 := rfl
    have h9 : '9'.val.toNat = 57 := rfl
    rw [Char.toNat]
    omega
  · split at h
    · rename_i hat
      subst hat
      rfl
    · split at h
      · rename_i hmark
        subst hmark
        rfl
      · cases h

/-- A token that is spelled with such a character is a command, a blank of text or the end of a group. -/
theorem Spells.of_mayStandBetween {inText : Bool} {t : Token} {spelling : List Char}
    (h : Spells inText t spelling) {c : Char} (hmem : c ∈ spelling) (hc : mayStandBetween c = true) :
    t = .control (String.ofList [c]) ∨ Text.isBlank c = true ∧ t = .char ' ' ∨
      c = '}' ∧ t = .groupEnd := by
  have hsingle {d : Char} (hd : mayStandBetween d = false) (hmem : c ∈ [d]) : False := by
    rw [List.mem_singleton.1 hmem, hd] at hc
    cases hc
  cases h with
  | @control name hname =>
      refine .inl ?_
      rcases List.mem_cons.1 hmem with rfl | hmem
      · cases hc
      · rcases hname with hletters | hlength
        · have hletter := List.all_eq_true.1 hletters c hmem
          rw [not_mayStandBetween_of_isLetter hletter] at hc
          cases hc
        · obtain ⟨d, rfl⟩ := List.length_eq_one_iff.1 hlength
          rw [List.mem_singleton.1 hmem]
  | @char d hplain =>
      refine (hsingle ?_ hmem).elim
      simp only [isPlain, Bool.and_eq_true, Bool.not_eq_true', bne_iff_ne, List.contains_eq_mem,
        List.mem_cons, List.not_mem_nil, or_false, decide_eq_false_iff_not, not_or] at hplain
      obtain ⟨⟨⟨hblank, hnul⟩, hpercent, -, hbrace, -⟩, -⟩ := hplain
      have hne : d ≠ '\x00' := by
        rintro rfl
        exact hnul rfl
      simp [mayStandBetween, hblank, hpercent, hne, hbrace]
  | space htext hspace =>
      rw [List.mem_singleton.1 hmem]
      rcases hspace with hblank | rfl
      · exact .inr (.inl ⟨hblank, rfl⟩)
      · exact (hsingle (d := '~') rfl hmem).elim
  | groupEnd => exact .inr (.inr ⟨List.mem_singleton.1 hmem, rfl⟩)
  | @argument d ref href =>
      rcases List.mem_cons.1 hmem with rfl | hmem
      · cases hc
      · exact (hsingle (not_mayStandBetween_of_argumentRef? href) hmem).elim
  | _ => exact (hsingle rfl hmem).elim

end Lexer

open Lexer

/-- What holds of the tokens of a source if nothing of it is lost. -/
structure IsLossless (source : List Char) (s : Tokens) : Prop where
  /-- Every token stands at its span as it is spelled. Only ends at the end of the source stand for
  nothing. -/
  spelled {before after : List SpannedToken} {t : SpannedToken} : s.tokens = before ++ t :: after →
    ∃ spelling, StandsAt spelling 0 source t.span ∧
      (Spells (modeAfter .math 0 (before.map SpannedToken.token)).inText t.token spelling ∨
        spelling = [] ∧ (t.token = .groupEnd ∨ t.token = .endOfInput))
  /-- Tokens stand one after the other. -/
  ordered : s.tokens.Pairwise fun t u => t.span.stop ≤ u.span.start
  /-- What no token covers is blank, a comment, or reported. -/
  gaps : LeavesGaps 0 0 source s
  comments : SparesComments 0 source s
  /-- What may stand between the tokens is part of one only after a backslash, as a blank of text, or
  where it ends a group. -/
  covered {before after : List Char} {c : Char} {t : SpannedToken} : source = before ++ c :: after →
    t ∈ s.tokens → t.Covers (byteLength before) → mayStandBetween c = true →
    t.token = .control (String.ofList [c]) ∨ Text.isBlank c = true ∧ t.token = .char ' ' ∨
      c = '}' ∧ t.token = .groupEnd ∧ openGroups? 0 (s.kindsBefore (byteLength before)) ≠ some 0

section

variable {offset : Nat} {mode : Mode} {opened : List Nat} {text : List Char} {s : Tokens}
  {before after : List SpannedToken} {t : SpannedToken}

theorem Lexer.Cuts.kindsBefore (h : Cuts offset mode opened text s)
    (hs : s.tokens = before ++ t :: after) {byte : Nat} (hcovers : t.Covers byte) :
    s.kindsBefore byte = before.map SpannedToken.token := by
  have hpairwise := h.pairwise
  rw [hs, List.pairwise_append] at hpairwise
  obtain ⟨-, htail, hfront⟩ := hpairwise
  have hbefore : before.filter (fun u => u.span.stop ≤ byte) = before := by
    refine List.filter_eq_self.2 fun u hu => decide_eq_true ?_
    exact Nat.le_trans (hfront u hu t List.mem_cons_self) hcovers.1
  have hafter : after.filter (fun u => u.span.stop ≤ byte) = [] := by
    refine List.filter_eq_nil_iff.2 fun u hu hstop => ?_
    have hnext := (List.pairwise_cons.1 htail).1 u hu
    have hbounds := h.bounds (hs ▸ List.mem_append_right _ (List.mem_cons_of_mem t hu))
    have hbyte := hcovers.2
    rw [decide_eq_true_eq] at hstop
    omega
  rw [Tokens.kindsBefore, hs, List.filter_append, hbefore,
    List.filter_cons_of_neg (by simpa using hcovers.2), hafter, List.append_nil]

/-- A group is open wherever a token ends one. -/
theorem Lexer.Cuts.openGroups?_ne_of_groupEnd (h : Cuts offset mode opened text s)
    (hs : s.tokens = before ++ t :: after) (ht : t.token = .groupEnd) :
    openGroups? opened.length (before.map SpannedToken.token) ≠ some 0 := by
  intro hzero
  have hall := h.openGroups?_kinds
  rw [Tokens.kinds, hs, List.map_append, openGroups?_append, hzero, List.map_cons, ht] at hall
  cases hall

end

theorem isLossless_tokenize (source : String) :
    IsLossless source.toList (tokenize source) ∧
      ∀ mode args n, ∀ d ∈ (parseFragment source mode args n).1.diagnostics,
        ∃ reported, StandsAt reported 0 source.toList d.span := by
  have hcuts : Cuts 0 .math [] source.toList (tokenize source) := cuts_read _ _ _ _
  refine ⟨⟨hcuts.spelled, hcuts.pairwise, hcuts.leavesGaps nofun, hcuts.sparesComments, ?_⟩, ?_⟩
  · intro before after c t hsource ht hcovers hc
    obtain ⟨us, vs, htokens⟩ := List.append_of_mem ht
    obtain ⟨spelling, hstands, hspells | ⟨rfl, -⟩⟩ := hcuts.spelled htokens
    · rw [hsource] at hstands
      have hmem : c ∈ spelling := hstands.mem (by simpa using hcovers.1) (by simpa using hcovers.2)
      refine (hspells.of_mayStandBetween hmem hc).imp_right (Or.imp_right ?_)
      rintro ⟨rfl, hend⟩
      refine ⟨rfl, hend, ?_⟩
      rw [hcuts.kindsBefore htokens hcovers]
      exact hcuts.openGroups?_ne_of_groupEnd htokens hend
    · have hstop : t.span.stop = t.span.start := hstands.bounds.2.1
      exact absurd hcovers.2 (Nat.not_lt.2 (hstop ▸ hcovers.1))
  · intro mode args n d hd
    rcases List.mem_append.1 hd with hd | hd
    · exact (hcuts.stands_of_mem_diagnostics hd).resolve_right nofun
    · obtain ⟨t, ht, hspan⟩ := exists_token_of_mem_diagnostics hd
      obtain ⟨before, after, htokens⟩ := List.append_of_mem ht
      obtain ⟨spelling, hstands, -⟩ := hcuts.spelled htokens
      exact ⟨spelling, hspan ▸ hstands⟩

end FormulaEditor.Latex

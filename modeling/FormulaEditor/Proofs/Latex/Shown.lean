import FormulaEditor.Proofs.Latex.Consisting
import FormulaEditor.Proofs.Latex.Weighing.Reading

/-!
# Problems that are shown

What is wrong with a source is shown where it can be: a command without a meaning, or without its
arguments, a second script, and a character that may not stand there leave an atom that is marked as
an error. The marks of what was read and the problems of these kinds correspond one to one, however
often the reader went back over tokens whose problems it had reported before. A source without a
problem has no marks, and no unknown commands either.
-/

namespace FormulaEditor.Latex

open Atom

/-- Only the marks of errors have a weight. -/
def errorScale : Scale :=
  ⟨fun _ => 0, 1⟩

theorem weight_errorScale (atoms : List Atom) :
    weight errorScale.label atoms = (subatomsOfList atoms).countP fun a => a.marks.error := by
  rw [weight]
  induction subatomsOfList atoms with
  | nil => rfl
  | cons a rest ih =>
      rw [List.map_cons, List.sum_cons, ih, List.countP_cons, Nat.add_comm]
      by_cases h : a.label.marks.error = true <;> simp [errorScale, Scale.label, marks, h]

theorem isExact_errorScale (n : Nat) : errorScale.IsExact [] n :=
  ⟨fun _ _ => rfl, fun _ h => nomatch h⟩

theorem stock_errorScale (s : Reader) :
    errorScale.stock [] s = s.problems.countP fun d => d.problem.isShown := by
  have hgiven : errorScale.given s.supply = 0 := by
    simp [Scale.given, errorScale]
  have hsubstituted : errorScale.substituted [] s.used = 0 := by
    simp [Scale.substituted]
  rw [Scale.stock, hgiven, hsubstituted]
  simp [errorScale]

theorem countP_error_parse (tokens : List SpannedToken) (mode : ReadingMode) (supply : Nat) :
    ((subatomsOfList (parse tokens mode [] supply).1.atoms).countP fun a => a.marks.error) =
      (parse tokens mode [] supply).1.diagnostics.countP fun d => d.problem.isShown := by
  have hread := (Scale.weighs_readAll (c := errorScale) (.inr (rfl : [] = [])) mode tokens
    supply).2.2 (isExact_errorScale supply)
  have hgiven : errorScale.given supply = 0 := by
    simp [Scale.given, errorScale]
  rw [weight_errorScale, stock_errorScale, hgiven, Nat.add_zero] at hread
  have hdiagnostics : (parse tokens mode [] supply).1.diagnostics =
      (Reader.readAll [] mode (Reader.start tokens supply)).2.problems.reverse := rfl
  rw [hdiagnostics, List.countP_reverse]
  exact hread

/-! ## Unknown commands -/

/-- A label of anything but an unknown command. -/
def IsKnown (l : Label) : Prop :=
  l.kind ≠ .unknownCommand

theorem fresh_isKnown : Label.Fresh IsKnown := by
  rintro id kind value glyph hr rfl
  cases hr

/-- A reading without problems makes no unknown commands. -/
theorem readingClosed_isKnownItem :
    ReadingClosed [] True (fun _ => True) fun _ a => IsItemOf IsKnown a :=
  readingClosed_isItemOf fresh_isKnown nofun (fun hne => absurd rfl hne) fun hs => absurd trivial hs

/-- Problems that are shown and marks of errors correspond one to one, and where there is no problem
there is nothing wrong to be seen. -/
theorem errors_parse (tokens : List SpannedToken) (mode : ReadingMode) (supply : Nat) :
    ((subatomsOfList (parse tokens mode [] supply).1.atoms).countP fun a => a.marks.error) =
      ((parse tokens mode [] supply).1.diagnostics.countP fun d => d.problem.isShown) ∧
    ((parse tokens mode [] supply).1.diagnostics = [] →
      ∀ a ∈ subatomsOfList (parse tokens mode [] supply).1.atoms,
        a.marks.error = false ∧ a.kind ≠ .unknownCommand) := by
  have hcount := countP_error_parse tokens mode supply
  refine ⟨hcount, fun hnone a ha => ⟨?_, ?_⟩⟩
  · rw [hnone, List.countP_nil, List.countP_eq_zero] at hcount
    simpa using hcount a ha
  · have hknown := forall_parse readingClosed_isKnownItem (fun _ _ => trivial) mode supply
      fun _ => hnone
    rw [subatomsOfList_eq_flatMap] at ha
    obtain ⟨b, hb, ha⟩ := List.mem_flatMap.1 ha
    exact ((hknown b hb).2 a ha).1

/-- A fraction that lacks its denominator, so that another one in its numerator is read twice. -/
def halfFraction : List SpannedToken :=
  (tokenize "\\frac\x7b\\frac\x7b\\foo\x7d\x7ba^2^3").tokens

/-- The fraction with its denominator. -/
def wholeFraction : List SpannedToken :=
  (tokenize "\\frac\x7b\\frac\x7b\\bar x\x7d\x7ba^2_3\x7d\x7d\x7b\\sqrt[3]y\x7d").tokens

theorem errors_parse_fractions :
    ((subatomsOfList (parse halfFraction .math [] 0).1.atoms).countP fun a => a.marks.error) = 3 ∧
    (parse wholeFraction .math [] 0).1.diagnostics = [] ∧
    ∀ a ∈ subatomsOfList (parse wholeFraction .math [] 0).1.atoms,
      a.marks.error = false ∧ a.kind ≠ .unknownCommand := by
  have hhalf : ((parse halfFraction .math [] 0).1.diagnostics.countP
      fun d => d.problem.isShown) = 3 := by decide +kernel
  have hwhole : (parse wholeFraction .math [] 0).1.diagnostics = [] := by decide +kernel
  exact ⟨(errors_parse halfFraction .math 0).1.trans hhalf, hwhole,
    (errors_parse wholeFraction .math 0).2 hwhole⟩

end FormulaEditor.Latex

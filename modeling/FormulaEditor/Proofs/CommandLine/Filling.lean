import FormulaEditor.CommandLine.Answer
import FormulaEditor.Proofs.Latex.Spans
import FormulaEditor.Proofs.Latex.Trimming

/-!
# Formulas on the command line

A formula loses the blanks at its end before it is read into a field. That is as good as reading it whole,
unless one of these blanks is in a token: then the field is filled without a space of text, or with a
command that has lost its name.
-/

namespace FormulaEditor

open Latex

/-- Sources of the same tokens, with the same problems in them, are the same formula. -/
theorem Latex.parseFormula_eq_of_kinds {source source' : String}
    (hkinds : (tokenize source).kinds = (tokenize source').kinds)
    (hproblems : (tokenize source).diagnostics = (tokenize source').diagnostics) (supply : Nat) :
    (parseFormula source supply).1.atoms = (parseFormula source' supply).1.atoms ∧
      (parseFormula source supply).1.diagnostics.map Diagnostic.problem =
        (parseFormula source' supply).1.diagnostics.map Diagnostic.problem ∧
      (parseFormula source supply).2 = (parseFormula source' supply).2 := by
  have hsame := parse_eq_of_tokens hkinds .math [] supply
  simp only [parseFormula, parseFragment, Minting.bind_apply, Minting.pure_apply, List.map_append,
    hproblems]
  exact ⟨hsame.1, by rw [hsame.2.1], hsame.2.2⟩

/-- A field that is filled with such sources is the same. -/
theorem Field.setLatex_eq_of_kinds {source source' : String}
    (hkinds : (tokenize source).kinds = (tokenize source').kinds)
    (hproblems : (tokenize source).diagnostics = (tokenize source').diagnostics) (f : Field) :
    (f.setLatex source).2 = (f.setLatex source').2 ∧
      (f.setLatex source).1.map Diagnostic.problem =
        (f.setLatex source').1.map Diagnostic.problem := by
  obtain ⟨hatoms, hdiagnostics, hsupply⟩ :=
    Latex.parseFormula_eq_of_kinds hkinds hproblems f.endTyping.record.editor.supply
  refine ⟨?_, hdiagnostics⟩
  simp only [Field.setLatex, Editor.mint]
  generalize parseFormula source f.endTyping.record.editor.supply = r at hatoms hsupply
  generalize parseFormula source' f.endTyping.record.editor.supply = r' at hatoms hsupply
  obtain ⟨⟨atoms, diagnostics⟩, supply⟩ := r
  obtain ⟨⟨atoms', diagnostics'⟩, supply'⟩ := r'
  simp only at hatoms hsupply
  subst hatoms hsupply
  rfl

namespace CommandLine

/-- A formula without the blanks at its end fills a field as the whole one does, and with the same
problems, if no token covers one of these blanks. Else the tokens lose a space or a name. -/
theorem fill_formula (field : Field) (source input : String) :
    (¬TakesFinalBlank source →
      fill field input (.formula source) = (field.setLatex source).2 ∧
        fill field source .standardInput = (field.setLatex source).2 ∧
        (field.setLatex (trimmed source)).1.map Diagnostic.problem =
          (field.setLatex source).1.map Diagnostic.problem) ∧
      (TakesFinalBlank source →
        LosesToken (tokenize source).kinds (tokenize (trimmed source)).kinds) := by
  obtain ⟨hproblems, hkinds, hloses⟩ := tokenize_trimmed source
  refine ⟨fun hnone => ?_, hloses⟩
  have hsame := Field.setLatex_eq_of_kinds (hkinds.2 hnone) hproblems field
  exact ⟨hsame.1, hsame.1, hsame.2⟩

/-- A line of a formula is read as it stands without its end, and a space that is a command loses its
name. -/
theorem fill_formula_line_controlSpace :
    ∃ field, Field.new ⟨[], false⟩ = .ok field ∧
      ¬TakesFinalBlank "x^2\\, \n" ∧
      fill field "" (.formula "x^2\\, \n") = (field.setLatex "x^2\\, \n").2 ∧
      TakesFinalBlank "a\\ " ∧
      LosesToken (tokenize "a\\ ").kinds (tokenize (trimmed "a\\ ")).kinds ∧
      (fill field "" (.formula "a\\ ")).latex = "a\\" ∧ (field.setLatex "a\\ ").2.latex = "a\\ " := by
  have hnew : Field.new ⟨[], false⟩ = .ok ⟨Editor.empty, History.empty History.defaultLimit,
    ⟨[], false⟩, []⟩ := rfl
  have hline : ¬TakesFinalBlank "x^2\\, \n" := by
    have htokens : (tokenize "x^2\\, \n").tokens = [⟨.char 'x', ⟨0, 1⟩⟩, ⟨.superscript, ⟨1, 2⟩⟩,
      ⟨.char '2', ⟨2, 3⟩⟩, ⟨.control ",", ⟨3, 5⟩⟩, ⟨.endOfInput, ⟨7, 7⟩⟩] := by decide +kernel
    have hsize : (trimmed "x^2\\, \n").utf8ByteSize = 5 := by decide +kernel
    rintro ⟨byte, hbyte, t, ht, hstart, hstop⟩
    rw [htokens] at ht
    rw [hsize] at hbyte
    simp only [List.mem_cons, List.not_mem_nil, or_false] at ht
    rcases ht with rfl | rfl | rfl | rfl | rfl <;> simp only at hstart hstop <;> omega
  have hspace : TakesFinalBlank "a\\ " :=
    ⟨2, by decide +kernel, ⟨.control " ", ⟨1, 3⟩⟩, by decide +kernel, by decide, by decide⟩
  have hloses := (fill_formula ⟨Editor.empty, History.empty History.defaultLimit, ⟨[], false⟩, []⟩
    "a\\ " "").2 hspace
  exact ⟨_, hnew, hline, ((fill_formula _ _ "").1 hline).1, hspace, hloses, by decide +kernel,
    by decide +kernel⟩

end CommandLine

end FormulaEditor

import FormulaEditor.Formula.Kind

/-!
# The vocabulary

What every control sequence means: the atom it makes, the number of its arguments, and the words,
examples and rank that help to read it out and to suggest it. Names have no leading backslash.
-/

namespace FormulaEditor.Latex

/-- What reading a command does. -/
inductive Action where
  /-- A leaf of the given kind. -/
  | symbol (kind : Kind) (glyph : Char)
  /-- A named function, drawn as its upright name. -/
  | function
  | fraction
  /-- A radical, whose index stands in brackets. -/
  | radical
  /-- An accent drawn as the given mark. -/
  | accent (glyph : Char)
  /-- A font for the argument. -/
  | font
  /-- An argument that is text. -/
  | text
  | space
  /-- A placeholder, which an empty group may follow. -/
  | placeholder
  | beginEnvironment
  | endEnvironment
  /-- The separator of the rows of an array. -/
  | newRow
  deriving DecidableEq, Repr

/-- Whether text may hold the command: only symbols and spaces may stand there. -/
def Action.allowedInText : Action → Bool
  | symbol .. | space => true
  | _ => false

/-- The meaning of a command. -/
structure Meaning where
  action : Action
  /-- The number of required arguments. -/
  arity : Nat
  /-- A short description, which is also the spoken name. -/
  note : String
  /-- Fragments that show the command in use. -/
  examples : List String
  /-- Suggestions with lower ranks come first. -/
  rank : Nat
  deriving DecidableEq, Repr

namespace Meaning

/-- The meaning with examples. -/
def withExamples (m : Meaning) (examples : List String) : Meaning :=
  { m with examples := examples }

/-- A symbol of the given kind and rank. -/
def ofSymbol (kind : Kind) (rank : Nat) (glyph : Char) (note : String) : Meaning :=
  ⟨.symbol kind glyph, 0, note, [], rank⟩

/-- A Greek letter. -/
def greek : Char → String → Meaning :=
  ofSymbol .ordinary 2

/-- An ordinary symbol. -/
def symbol : Char → String → Meaning :=
  ofSymbol .ordinary 3

/-- A binary operator. -/
def binary : Char → String → Meaning :=
  ofSymbol .binary 3

/-- A relation. -/
def relation : Char → String → Meaning :=
  ofSymbol .relation 3

/-- An arrow. -/
def arrow : Char → String → Meaning :=
  ofSymbol .relation 4

/-- An opening delimiter. -/
def opening : Char → String → Meaning :=
  ofSymbol .opening 4

/-- A closing delimiter. -/
def closing : Char → String → Meaning :=
  ofSymbol .closing 4

/-- A large operator. -/
def largeOperator : Char → String → Meaning :=
  ofSymbol .operator 2

/-- A named function. -/
def function (note : String) : Meaning :=
  ⟨.function, 0, note, [], 2⟩

/-- An accent. -/
def accent (glyph : Char) (note : String) : Meaning :=
  ⟨.accent glyph, 1, note, [], 3⟩

/-- A font. -/
def font (note : String) : Meaning :=
  ⟨.font, 1, note, [], 3⟩

/-- A command with text as its argument. -/
def text (note : String) : Meaning :=
  ⟨.text, 1, note, [], 3⟩

/-- A space. -/
def space (note : String) : Meaning :=
  ⟨.space, 0, note, [], 5⟩

end Meaning

namespace Vocabulary

open Meaning

/-- Greek letters. -/
def greekLetters : List (String × Meaning) := [
  ("alpha", greek 'α' "alpha"),
  ("beta", greek 'β' "beta"),
  ("gamma", greek 'γ' "gamma"),
  ("delta", greek 'δ' "delta"),
  ("epsilon", greek 'ϵ' "epsilon"),
  ("varepsilon", greek 'ε' "epsilon"),
  ("zeta", greek 'ζ' "zeta"),
  ("eta", greek 'η' "eta"),
  ("theta", greek 'θ' "theta"),
  ("vartheta", greek 'ϑ' "theta"),
  ("iota", greek 'ι' "iota"),
  ("kappa", greek 'κ' "kappa"),
  ("lambda", greek 'λ' "lambda"),
  ("mu", greek 'μ' "mu"),
  ("nu", greek 'ν' "nu"),
  ("xi", greek 'ξ' "xi"),
  ("pi", greek 'π' "pi"),
  ("varpi", greek 'ϖ' "pi"),
  ("rho", greek 'ρ' "rho"),
  ("varrho", greek 'ϱ' "rho"),
  ("sigma", greek 'σ' "sigma"),
  ("varsigma", greek 'ς' "sigma"),
  ("tau", greek 'τ' "tau"),
  ("upsilon", greek 'υ' "upsilon"),
  ("phi", greek 'ϕ' "phi"),
  ("varphi", greek 'φ' "phi"),
  ("chi", greek 'χ' "chi"),
  ("psi", greek 'ψ' "psi"),
  ("omega", greek 'ω' "omega"),
  ("Gamma", greek 'Γ' "capital gamma"),
  ("Delta", greek 'Δ' "capital delta"),
  ("Theta", greek 'Θ' "capital theta"),
  ("Lambda", greek 'Λ' "capital lambda"),
  ("Xi", greek 'Ξ' "capital xi"),
  ("Pi", greek 'Π' "capital pi"),
  ("Sigma", greek 'Σ' "capital sigma"),
  ("Upsilon", greek 'Υ' "capital upsilon"),
  ("Phi", greek 'Φ' "capital phi"),
  ("Psi", greek 'Ψ' "capital psi"),
  ("Omega", greek 'Ω' "capital omega")]

/-- Ordinary symbols other than letters. -/
def ordinarySymbols : List (String × Meaning) := [
  ("infty", greek '∞' "infinity"),
  ("partial", symbol '∂' "partial"),
  ("nabla", symbol '∇' "nabla"),
  ("emptyset", symbol '∅' "empty set"),
  ("forall", symbol '∀' "for all"),
  ("exists", symbol '∃' "there exists"),
  ("neg", symbol '¬' "not"),
  ("lnot", symbol '¬' "not"),
  ("ell", symbol 'ℓ' "ell"),
  ("hbar", symbol 'ℏ' "h bar"),
  ("Re", symbol 'ℜ' "real part"),
  ("Im", symbol 'ℑ' "imaginary part"),
  ("aleph", symbol 'ℵ' "aleph"),
  ("prime", symbol '′' "prime"),
  ("angle", symbol '∠' "angle"),
  ("triangle", symbol '△' "triangle"),
  ("ldots", symbol '…' "dot dot dot"),
  ("dots", symbol '…' "dot dot dot"),
  ("cdots", symbol '⋯' "dot dot dot"),
  ("vdots", symbol '⋮' "vertical dots"),
  ("ddots", symbol '⋱' "diagonal dots"),
  ("|", symbol '‖' "norm"),
  ("#", symbol '#' "hash"),
  ("$", symbol '$' "dollar"),
  ("%", symbol '%' "percent"),
  ("&", symbol '&' "and"),
  ("_", symbol '_' "underscore")]

/-- Binary operators. -/
def binaryOperators : List (String × Meaning) := [
  ("pm", binary '±' "plus or minus"),
  ("mp", binary '∓' "minus or plus"),
  ("times", binary '×' "times"),
  ("div", binary '÷' "divided by"),
  ("cdot", binary '⋅' "times"),
  ("ast", binary '∗' "asterisk"),
  ("star", binary '⋆' "star"),
  ("circ", binary '∘' "composed with"),
  ("bullet", binary '∙' "bullet"),
  ("oplus", binary '⊕' "circle plus"),
  ("otimes", binary '⊗' "circle times"),
  ("cup", binary '∪' "union"),
  ("cap", binary '∩' "intersection"),
  ("setminus", binary '∖' "set minus"),
  ("wedge", binary '∧' "and"),
  ("land", binary '∧' "and"),
  ("vee", binary '∨' "or"),
  ("lor", binary '∨' "or")]

/-- Relations. -/
def relations : List (String × Meaning) := [
  ("le", relation '≤' "less than or equal to"),
  ("leq", relation '≤' "less than or equal to"),
  ("ge", relation '≥' "greater than or equal to"),
  ("geq", relation '≥' "greater than or equal to"),
  ("ne", relation '≠' "not equal to"),
  ("neq", relation '≠' "not equal to"),
  ("approx", relation '≈' "approximately equal to"),
  ("equiv", relation '≡' "is equivalent to"),
  ("sim", relation '∼' "is similar to"),
  ("simeq", relation '≃' "is asymptotically equal to"),
  ("cong", relation '≅' "is congruent to"),
  ("propto", relation '∝' "is proportional to"),
  ("ll", relation '≪' "much less than"),
  ("gg", relation '≫' "much greater than"),
  ("in", relation '∈' "is an element of"),
  ("notin", relation '∉' "is not an element of"),
  ("ni", relation '∋' "contains"),
  ("subset", relation '⊂' "is a subset of"),
  ("supset", relation '⊃' "is a superset of"),
  ("subseteq", relation '⊆' "is a subset of or equal to"),
  ("supseteq", relation '⊇' "is a superset of or equal to"),
  ("perp", relation '⊥' "is perpendicular to"),
  ("parallel", relation '∥' "is parallel to"),
  ("mid", relation '∣' "divides")]

/-- Arrows, which are relations. -/
def arrows : List (String × Meaning) := [
  ("to", arrow '→' "to"),
  ("rightarrow", arrow '→' "right arrow"),
  ("leftarrow", arrow '←' "left arrow"),
  ("gets", arrow '←' "gets"),
  ("leftrightarrow", arrow '↔' "left right arrow"),
  ("Rightarrow", arrow '⇒' "implies"),
  ("Leftarrow", arrow '⇐' "is implied by"),
  ("Leftrightarrow", arrow '⇔' "if and only if"),
  ("implies", arrow '⟹' "implies"),
  ("iff", arrow '⟺' "if and only if"),
  ("mapsto", arrow '↦' "maps to"),
  ("uparrow", arrow '↑' "up arrow"),
  ("downarrow", arrow '↓' "down arrow")]

/-- Opening and closing delimiters. -/
def fences : List (String × Meaning) := [
  ("\x7b", opening '{' "open brace"),
  ("\x7d", closing '}' "close brace"),
  ("lbrace", opening '{' "open brace"),
  ("rbrace", closing '}' "close brace"),
  ("langle", opening '⟨' "open angle bracket"),
  ("rangle", closing '⟩' "close angle bracket"),
  ("lfloor", opening '⌊' "open floor"),
  ("rfloor", closing '⌋' "close floor"),
  ("lceil", opening '⌈' "open ceiling"),
  ("rceil", closing '⌉' "close ceiling"),
  ("lvert", opening '|' "open bar"),
  ("rvert", closing '|' "close bar")]

/-- Large operators. -/
def largeOperators : List (String × Meaning) := [
  ("sum", largeOperator '∑' "the sum" |>.withExamples ["\\sum_\x7bi=1\x7d^\x7bn\x7d"]),
  ("prod", largeOperator '∏' "the product" |>.withExamples ["\\prod_\x7bi=1\x7d^\x7bn\x7d"]),
  ("coprod", largeOperator '∐' "the coproduct"),
  ("int", largeOperator '∫' "the integral" |>.withExamples ["\\int_\x7b0\x7d^\x7b1\x7d"]),
  ("iint", largeOperator '∬' "the double integral"),
  ("iiint", largeOperator '∭' "the triple integral"),
  ("oint", largeOperator '∮' "the contour integral"),
  ("bigcup", largeOperator '⋃' "the union"),
  ("bigcap", largeOperator '⋂' "the intersection"),
  ("bigoplus", largeOperator '⨁' "the direct sum"),
  ("bigotimes", largeOperator '⨂' "the tensor product")]

/-- Functions that are drawn as their upright name. -/
def namedFunctions : List (String × Meaning) := [
  ("sin", function "sine"),
  ("cos", function "cosine"),
  ("tan", function "tangent"),
  ("cot", function "cotangent"),
  ("sec", function "secant"),
  ("csc", function "cosecant"),
  ("arcsin", function "arc sine"),
  ("arccos", function "arc cosine"),
  ("arctan", function "arc tangent"),
  ("sinh", function "hyperbolic sine"),
  ("cosh", function "hyperbolic cosine"),
  ("tanh", function "hyperbolic tangent"),
  ("log", function "log"),
  ("ln", function "natural log"),
  ("exp", function "exponential"),
  ("lim", function "the limit" |>.withExamples ["\\lim_\x7bx\\to\\infty\x7d"]),
  ("max", function "the maximum"),
  ("min", function "the minimum"),
  ("sup", function "the supremum"),
  ("inf", function "the infimum"),
  ("det", function "the determinant"),
  ("gcd", function "the greatest common divisor"),
  ("deg", function "degree"),
  ("dim", function "dimension"),
  ("ker", function "kernel"),
  ("arg", function "argument"),
  ("Pr", function "probability")]

/-- Fractions and radicals. -/
def fractionsAndRadicals : List (String × Meaning) := [
  ("frac", ⟨.fraction, 2, "fraction",
    ["\\frac\x7b1\x7d\x7b2\x7d", "\\frac\x7ba+b\x7d\x7bc\x7d"], 1⟩),
  ("dfrac", ⟨.fraction, 2, "fraction", ["\\dfrac\x7b1\x7d\x7b2\x7d"], 3⟩),
  ("tfrac", ⟨.fraction, 2, "fraction", ["\\tfrac\x7b1\x7d\x7b2\x7d"], 3⟩),
  ("sqrt", ⟨.radical, 1, "square root", ["\\sqrt\x7b2\x7d", "\\sqrt[3]\x7bx\x7d"], 1⟩)]

/-- Accents over one argument. -/
def accents : List (String × Meaning) := [
  ("hat", accent 'ˆ' "hat"),
  ("widehat", accent 'ˆ' "hat"),
  ("check", accent 'ˇ' "check"),
  ("tilde", accent '˜' "tilde"),
  ("widetilde", accent '˜' "tilde"),
  ("bar", accent '¯' "bar"),
  ("overline", accent '¯' "bar"),
  ("vec", accent '→' "vector" |>.withExamples ["\\vec\x7bv\x7d"]),
  ("dot", accent '˙' "dot"),
  ("ddot", accent '¨' "double dot"),
  ("breve", accent '˘' "breve"),
  ("acute", accent '´' "acute"),
  ("grave", accent (Char.ofNat 0x60) "grave")]

/-- Font variants of one argument. -/
def fonts : List (String × Meaning) := [
  ("mathbb", font "blackboard" |>.withExamples ["\\mathbb\x7bR\x7d"]),
  ("mathbf", font "bold"),
  ("boldsymbol", font "bold"),
  ("mathrm", font "roman"),
  ("mathit", font "italic"),
  ("mathcal", font "calligraphic" |>.withExamples ["\\mathcal\x7bL\x7d"]),
  ("mathscr", font "script"),
  ("mathfrak", font "fraktur"),
  ("mathsf", font "sans serif"),
  ("mathtt", font "monospace"),
  ("operatorname", font "operator" |>.withExamples ["\\operatorname\x7bsgn\x7d"])]

/-- Commands whose argument is text. -/
def textCommands : List (String × Meaning) := [
  ("text", text "text" |>.withExamples ["\\text\x7bif \x7d"]),
  ("textrm", text "text"),
  ("textit", text "italic text"),
  ("textbf", text "bold text"),
  ("mbox", text "text")]

/-- Horizontal spaces. -/
def spaces : List (String × Meaning) := [
  (",", space "thin space"),
  (":", space "medium space"),
  (">", space "medium space"),
  (";", space "thick space"),
  ("!", space "negative thin space"),
  (" ", space "space"),
  ("thinspace", space "thin space"),
  ("medspace", space "medium space"),
  ("thickspace", space "thick space"),
  ("negthinspace", space "negative thin space"),
  ("quad", space "quad space"),
  ("qquad", space "double quad space")]

/-- Commands that shape their surroundings. -/
def structureCommands : List (String × Meaning) := [
  ("placeholder", ⟨.placeholder, 0, "placeholder", [], 6⟩),
  ("begin", ⟨.beginEnvironment, 1, "begin environment",
    ["\\begin\x7bpmatrix\x7da&b\\\\c&d\\end\x7bpmatrix\x7d"], 4⟩),
  ("end", ⟨.endEnvironment, 1, "end environment", [], 6⟩),
  ("\\", ⟨.newRow, 0, "new row", [], 6⟩)]

/-- All commands. -/
def all : List (String × Meaning) :=
  greekLetters ++ ordinarySymbols ++ binaryOperators ++ relations ++
    arrows ++ fences ++ largeOperators ++ namedFunctions ++
    fractionsAndRadicals ++ accents ++ fonts ++ textCommands ++
    spaces ++ structureCommands

/-- The meaning of a command, given its name without the backslash. -/
def find? (name : String) : Option Meaning :=
  all.lookup name

/-- The environments that make arrays. -/
def arrayEnvironments : List String :=
  ["matrix", "pmatrix", "bmatrix", "Bmatrix", "vmatrix", "Vmatrix", "cases"]

/-- Whether an environment makes an array. -/
def isArrayEnvironment (name : String) : Bool :=
  arrayEnvironments.contains name

/-- A command as it is written. -/
def command (name : String) : String :=
  "\\" ++ name

end Vocabulary

end FormulaEditor.Latex

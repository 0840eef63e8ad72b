/-!
# Inline shortcuts

Typed characters that are replaced by a fragment as soon as they are complete. Shortcuts that are
configured come before the built-in ones, and of several that fit, the longest is taken.
-/

namespace FormulaEditor

/-- A shortcut: what is typed, and the fragment that takes its place. -/
structure Shortcut where
  trigger : String
  substitute : String
  deriving DecidableEq, Repr

/-- The shortcuts in effect. -/
structure ShortcutTable where
  /-- The configured shortcuts. Of two with one trigger, the later one counts. -/
  configured : List Shortcut
  /-- Whether the built-in shortcuts are left out. -/
  configuredOnly : Bool
  deriving DecidableEq, Repr

namespace Shortcut

/-- The built-in shortcuts. -/
def builtIn : List Shortcut := [
  ⟨"alpha", "\\alpha"⟩,
  ⟨"beta", "\\beta"⟩,
  ⟨"gamma", "\\gamma"⟩,
  ⟨"Gamma", "\\Gamma"⟩,
  ⟨"delta", "\\delta"⟩,
  ⟨"Delta", "\\Delta"⟩,
  ⟨"epsilon", "\\epsilon"⟩,
  ⟨"theta", "\\theta"⟩,
  ⟨"lambda", "\\lambda"⟩,
  ⟨"mu", "\\mu"⟩,
  ⟨"pi", "\\pi"⟩,
  ⟨"Pi", "\\Pi"⟩,
  ⟨"sigma", "\\sigma"⟩,
  ⟨"Sigma", "\\Sigma"⟩,
  ⟨"phi", "\\phi"⟩,
  ⟨"omega", "\\omega"⟩,
  ⟨"Omega", "\\Omega"⟩,
  ⟨"oo", "\\infty"⟩,
  ⟨"<=", "\\le"⟩,
  ⟨">=", "\\ge"⟩,
  ⟨"!=", "\\ne"⟩,
  ⟨"->", "\\to"⟩,
  ⟨"<-", "\\leftarrow"⟩,
  ⟨"=>", "\\Rightarrow"⟩,
  ⟨"<=>", "\\Leftrightarrow"⟩,
  ⟨"+-", "\\pm"⟩,
  ⟨"-+", "\\mp"⟩,
  ⟨"xx", "\\times"⟩,
  ⟨"...", "\\ldots"⟩,
  ⟨"sin", "\\sin"⟩,
  ⟨"cos", "\\cos"⟩,
  ⟨"tan", "\\tan"⟩,
  ⟨"log", "\\log"⟩,
  ⟨"ln", "\\ln"⟩,
  ⟨"exp", "\\exp"⟩,
  ⟨"lim", "\\lim"⟩,
  ⟨"sum", "\\sum"⟩,
  ⟨"prod", "\\prod"⟩,
  ⟨"int", "\\int"⟩,
  ⟨"sqrt", "\\sqrt\x7b#?\x7d"⟩,
  ⟨"AA", "\\forall"⟩,
  ⟨"EE", "\\exists"⟩,
  ⟨"RR", "\\mathbb\x7bR\x7d"⟩,
  ⟨"NN", "\\mathbb\x7bN\x7d"⟩,
  ⟨"ZZ", "\\mathbb\x7bZ\x7d"⟩,
  ⟨"QQ", "\\mathbb\x7bQ\x7d"⟩,
  ⟨"CC", "\\mathbb\x7bC\x7d"⟩]

/-- The number of characters of the trigger. -/
def length (s : Shortcut) : Nat :=
  s.trigger.length

/-- Whether a text ends with the trigger, which may not be empty. -/
def fits (typed : List Char) (s : Shortcut) : Bool :=
  !s.trigger.isEmpty && s.trigger.toList.isSuffixOf typed

/-- The longer of two shortcuts, the later one if they are of one length. -/
def longer (best : Option Shortcut) (s : Shortcut) : Option Shortcut :=
  match best with
  | some b => if s.length < b.length then some b else some s
  | none => some s

/-- The longest of some shortcuts that a text ends with. -/
def longest? (typed : List Char) (shortcuts : List Shortcut) : Option Shortcut :=
  (shortcuts.filter (fits typed)).foldl longer none

end Shortcut

/-- The shortcut that a typed text ends with. -/
def ShortcutTable.matchEnd? (table : ShortcutTable) (typed : List Char) : Option Shortcut :=
  match Shortcut.longest? typed table.configured with
  | some s => some s
  | none => if table.configuredOnly then none else Shortcut.longest? typed Shortcut.builtIn

end FormulaEditor

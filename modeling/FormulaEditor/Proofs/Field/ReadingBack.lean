import FormulaEditor.Proofs.Field.Keys
import FormulaEditor.Proofs.Field.Substituting
import FormulaEditor.Proofs.Latex.Fragments

/-!
# Typed formulas are read back

The LaTeX of a field is read as its formula, whatever was typed and edited with keys before: scripts,
commands, shortcuts, deletions and steps through the history put only what can be read back into a
formula, unless a command that starts text is completed.
-/

namespace FormulaEditor

open Atom (ConsistsOf Items)
open Latex

/-! ## What is inserted -/

namespace Editor

variable {e : Editor}

/-- Where nothing but what can be read back is in a formula, the caret is not in text. -/
theorem inText_eq_false (h : e.root.ConsistsOf Label.Readable) : e.inText = false := by
  unfold inText isInside
  refine List.any_eq_false.2 fun d _ => ?_
  cases ha : (e.caret.take (d + 1)).atom? e.root with
  | none => simp
  | some a =>
      have hkind : a.kind ≠ .text := (h.descend? ha).label.kind_ne.1
      simpa using hkind

theorem yields_latex {source : String} (hk : isKeepableSource source = true) :
    Yields Label.Readable source .latex := by
  intro e args hr hargs
  rw [inText_eq_false hr]
  exact items_parseFragment hargs hk e.supply

/-- A character is inserted as itself or, where it has a meaning of its own, as a command. -/
theorem yields_char {c : Char} (hc : c.toNat ≠ 0) (hne : c ≠ '\\' ∧ c ≠ '^' ∧ c ≠ '_') :
    Yields Label.Readable (String.singleton c) .auto := by
  intro e args hr hargs
  rw [inText_eq_false hr]
  have hchar : e.textAtoms (String.singleton c) .auto .math args = e.charAtoms c .math args := by
    simp only [textAtoms, String.toList_singleton]
  show Items Label.Readable (e.textAtoms (String.singleton c) .auto .math args).1
  rw [hchar]
  unfold charAtoms
  rw [if_neg (by simp [hne])]
  split
  · rename_i hbackslash
    have hall : (['{', '}', '#', '%', '&', '$'].all fun c =>
        isKeepableSource (String.ofList ['\\', c])) = true := by decide +kernel
    have hkeepable := List.all_eq_true.1 hall c (List.contains_iff_mem.1 hbackslash)
    exact items_parseFragment hargs hkeepable e.supply
  · rename_i hplain
    rw [if_neg (by decide)]
    split
    · exact Atom.items_nil
    · rename_i hblank
      intro a ha
      rw [List.mem_singleton.1 ha]
      by_cases hquote : c = Text.Quoted.singleQuote
      · rw [hquote]
        exact isReadableItem_leaf (look?_of_find? Vocabulary.find?_prime) e.supply
      · have hspecial : (['%', '{', '}', '\\', '#', '^', '_', '&', '$'].all fun d =>
            needsBackslash d || ['\\', '^', '_'].contains d) = true := by decide
        have hkept : (Token.char c).isKept = true := by
          refine isKept_char (by simpa using hblank) hc fun d hd heq => ?_
          subst heq
          rcases Bool.or_eq_true_iff.1 (List.all_eq_true.1 hspecial c hd) with h | h
          · exact hplain h
          · simp [hne] at h
        simp only [Token.isKept, Bool.and_eq_true] at hkept
        exact isReadableItem_newMathChar hkept.1 hkept.2 hquote e.supply

end Editor

/-! ## Completions -/

/-- What the tables of a field insert can be kept: commands with their arguments left open, unless
they start text or an environment, an environment with a grid to fill in, what a key inserts, and
what a built-in shortcut stands for. -/
theorem isKeepableSource_tables :
    isKeepableSource environmentTemplate = true ∧
    (Vocabulary.all.all fun entry => entry.2.arity == 0 || entry.2.action == .text ||
      entry.2.action == .beginEnvironment || isKeepableSource (Vocabulary.command entry.1 ++
        String.join (List.replicate entry.2.arity openArgument))) = true ∧
    (Keymap.math.all fun entry => match entry.2 with
      | .insert text options => options.format == .latex && isKeepableSource text
      | _ => true) = true ∧
    (Shortcut.builtIn.all fun s => isKeepableSource s.substitute) = true :=
  ⟨by decide +kernel, by decide +kernel, by decide +kernel, by decide +kernel⟩

/-- Whether a word is the name of a command that starts text. -/
def isTextCommand (word : List Char) : Bool :=
  (Vocabulary.find? (String.ofList word)).any fun m => m.action == .text

/-- A command with its arguments left open can be kept, unless it starts text or an environment. -/
theorem isKeepableSource_openArguments {name : String} {m : Meaning}
    (hf : Vocabulary.find? name = some m) (hm : m.arity ≠ 0) (ht : m.action ≠ .text)
    (hb : m.action ≠ .beginEnvironment) :
    isKeepableSource
      (Vocabulary.command name ++ String.join (List.replicate m.arity openArgument)) = true := by
  have hentry := List.all_eq_true.1 isKeepableSource_tables.2.1 _ (Vocabulary.mem_of_find? hf)
  simpa [hm, ht, hb] using hentry

/-- Every completion can be kept, unless it starts text. -/
theorem isKeepableSource_completion? {T : Char → Prop} {word : List Char} {fragment : String}
    (hw : IsWord T word) (ht : isTextCommand word = false)
    (hf : completion? ('\\' :: word) = some fragment) : isKeepableSource fragment = true := by
  have hcommand (hne : word ≠ []) (hs : standsAlone (String.ofList word) = true) :
      isKeepableSource (Vocabulary.command (String.ofList word)) = true := by
    obtain ⟨c, letters, rfl⟩ := List.exists_cons_of_ne_nil hne
    exact isKeepableSource_command hw.isLetter hs
  unfold completion? at hf
  simp only at hf
  split at hf
  · cases hf
  rename_i hname
  have hne : word ≠ [] := by
    rintro rfl
    exact hname rfl
  split at hf
  · rename_i hfind
    cases hf
    exact hcommand hne ((standsAlone_iff _).2 fun m hm => by rw [hfind] at hm; cases hm)
  · rename_i m hfind
    have htext : m.action ≠ .text := by simpa [isTextCommand, hfind] using ht
    split at hf
    · cases hf
      exact isKeepableSource_tables.1
    · rename_i hbegin
      cases hf
      by_cases hzero : m.arity = 0
      · rw [hzero, List.replicate_zero, String.join_nil, String.append_empty]
        refine hcommand hne ((standsAlone_iff _).2 fun m' hm' => ?_)
        obtain rfl : m = m' := Option.some.inj (hfind.symm.trans hm')
        refine ⟨Bool.eq_false_iff.2 fun htakes => ?_, hbegin⟩
        have harity := Vocabulary.arity_of_takesArguments hfind htakes
        split at harity <;> omega
      · exact isKeepableSource_openArguments hfind hzero htext hbegin

/-- Keys put only what can be read back into a formula, as long as the character NUL is not typed and
no command is completed that starts text. -/
theorem typable_readable :
    Field.Typable Label.Readable (fun c => c.toNat ≠ 0) fun word => isTextCommand word = false where
  plain := ⟨Label.lasting_readable, fun h => h.kind_ne.2⟩
  isLetter c h := (ne_of_isLetter h).1
  char c hc hne := Editor.yields_char hc hne
  word word fragment hw ht hf := Editor.yields_latex (isKeepableSource_completion? hw ht hf)
  key name text options h := by
    obtain ⟨before, after, hmath, -⟩ := List.lookup_eq_some_iff.1 h
    have hentry := List.all_eq_true.1 isKeepableSource_tables.2.2.1 (name, .insert text options)
      (by rw [show Keymap.math = _ from hmath]; simp)
    simp only [Bool.and_eq_true, beq_iff_eq] at hentry
    rw [hentry.1]
    exact Editor.yields_latex hentry.2

theorem isKeepableSource_builtIn {typed : List Char} {s : Shortcut}
    (h : ShortcutTable.matchEnd? ⟨[], false⟩ typed = some s) : isKeepableSource s.substitute = true :=
  List.all_eq_true.1 isKeepableSource_tables.2.2.2 s (Shortcut.mem_of_longest? h).1

/-! ## Fields -/

/-- A formula that consists of what can be read back is read back. -/
theorem Editor.InMath.alikeList_write {e : Editor} (h : e.InMath Label.Readable) (n : Nat) :
    Atom.alikeList (parseFormula (write e.atoms) n).1.atoms e.atoms = true := by
  have hgrid (slot : Slot) : isGridBody e.root.kind slot = false := by
    rw [h.sound.kind_root]
    rfl
  have hitems : Items Label.Readable e.atoms :=
    forall_mem_body fun slot atoms hb => h.consistsOf.items hb (hgrid slot)
  have hwell : ∀ a ∈ e.atoms, a.isWellFormed = true :=
    forall_mem_body fun slot atoms hb => (Atom.branchWellFormed h.sound.isWellFormed hb).wellFormed
  exact Latex.alikeList_write hwell hitems n

namespace Field

variable {f : Field}

/-- Whether one of some keys completes a command that starts text. -/
def completesText (f : Field) : List Key → Bool
  | [] => false
  | k :: rest => (f.completed? k).any isTextCommand || (f.press k).completesText rest

theorem admitsAll_of_completesText {keys : List Key}
    (hc : ∀ k ∈ keys, k ≠ .char (Char.ofNat 0)) (ht : f.completesText keys = false) :
    f.AdmitsAll (fun c => c.toNat ≠ 0) (fun word => isTextCommand word = false) keys := by
  induction keys generalizing f with
  | nil => trivial
  | cons k rest ih =>
      obtain ⟨hk, hrest⟩ := List.forall_mem_cons.1 hc
      rw [completesText, Bool.or_eq_false_iff] at ht
      refine ⟨⟨fun c hkc hzero => hk ?_, fun word hword => ?_⟩, ih hrest ht.2⟩
      · rw [hkc, ← hzero, Char.ofNat_toNat]
      · simpa [hword] using ht.1

/-- The LaTeX of a field is read as its formula, after whatever keys that do not complete a command
which starts text. -/
theorem alikeList_replay (h : Field.new ⟨[], false⟩ = .ok f) (keys : String)
    (hc : ∀ k ∈ Key.read keys.toList, k ≠ .char (Char.ofNat 0))
    (ht : f.completesText (Key.read keys.toList) = false)
    (hm : (f.replay keys).editor.mode = .math) (n : Nat) :
    Atom.alikeList (parseFormula (f.replay keys).latex n).1.atoms (f.replay keys).editor.atoms =
      true := by
  have hempty : Editor.empty.root.ConsistsOf Label.Readable :=
    (Atom.isReadable_iff_consistsOf _).1 rfl
  have hnew : f.Tidy Label.Readable fun c => c.toNat ≠ 0 :=
    tidy_new h hempty fun _ _ hs => Editor.yields_latex (isKeepableSource_builtIn hs)
  have htidy := hnew.foldl_press typable_readable (admitsAll_of_completesText hc ht)
  exact (htidy.inMath hm).editor.alikeList_write n

/-- A fraction in a superscript, whose numerator is typed with a shortcut that is then undone. -/
theorem alikeList_replay_fraction :
    ∃ f, Field.new ⟨[], false⟩ = .ok f ∧
      Atom.alikeList (parseFormula (f.replay "x^\\fr\x7bTab\x7dpi\x7bCtrl-z\x7d").latex 0).1.atoms
        (f.replay "x^\\fr\x7bTab\x7dpi\x7bCtrl-z\x7d").editor.atoms = true := by
  have hnew : Field.new ⟨[], false⟩ = .ok ⟨Editor.empty, History.empty History.defaultLimit,
    ⟨[], false⟩, []⟩ := rfl
  exact ⟨_, hnew, alikeList_replay hnew _ (by decide +kernel) (by decide +kernel) (by decide +kernel) 0⟩

end Field

end FormulaEditor

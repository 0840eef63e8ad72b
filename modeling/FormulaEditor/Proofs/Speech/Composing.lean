import Mathlib.Data.List.Induction
import FormulaEditor.Speech

/-!
# Speech of sequences

What is said for an atom does not depend on what was said before: endings are glued to words of the
same atom, and only the digits of a number go on from one atom to the next. So a sequence is said as
its parts are, one after the other, unless it is cut within a number.
-/

namespace FormulaEditor

namespace Speech

/-! ## Texts beside each other -/

/-- Two texts with a space between them, or the other one if one of them is empty. -/
def beside (s t : List Char) : List Char :=
  if s = [] then t else if t = [] then s else s ++ ' ' :: t

@[simp] theorem nil_beside (t : List Char) : beside [] t = t :=
  if_pos rfl

@[simp] theorem beside_nil (s : List Char) : beside s [] = s := by
  by_cases h : s = [] <;> simp [beside, h]

theorem beside_of_ne_nil {s t : List Char} (hs : s ≠ []) (ht : t ≠ []) :
    beside s t = s ++ ' ' :: t := by
  rw [beside, if_neg hs, if_neg ht]

@[simp] theorem beside_eq_nil_iff {s t : List Char} : beside s t = [] ↔ s = [] ∧ t = [] := by
  by_cases hs : s = []
  · simp [hs]
  · by_cases ht : t = [] <;> simp [beside, hs, ht]

theorem beside_assoc (s t u : List Char) : beside (beside s t) u = beside s (beside t u) := by
  by_cases hs : s = []
  · simp [hs]
  · by_cases ht : t = []
    · simp [ht]
    · by_cases hu : u = []
      · simp [hu]
      · simp [beside, hs, ht, hu]

theorem beside_append {s t : List Char} (ht : t ≠ []) (u : List Char) :
    beside s (t ++ u) = beside s t ++ u := by
  by_cases hs : s = []
  · simp [hs]
  · simp [beside, hs, ht]

theorem beside_right_inj {s t u : List Char} : beside s t = beside s u ↔ t = u := by
  by_cases hs : s = []
  · simp [hs]
  · by_cases ht : t = []
    · by_cases hu : u = [] <;> simp [beside, hs, ht, hu, eq_comm]
    · by_cases hu : u = [] <;> simp [beside, hs, ht, hu]

theorem beside_left_inj {s t u : List Char} : beside s u = beside t u ↔ s = t := by
  by_cases hu : u = []
  · simp [hu]
  · have hlonger (v : List Char) : v ++ ' ' :: u ≠ u := by
      intro h
      have hlength := congrArg List.length h
      rw [List.length_append, List.length_cons] at hlength
      omega
    by_cases hs : s = []
    · by_cases ht : t = []
      · simp [hs, ht]
      · simp [beside, hs, ht, hu, (hlonger t).symm, eq_comm]
    · by_cases ht : t = []
      · simp [beside, hs, ht, hu, hlonger s]
      · simp [beside, hs, ht, hu]

/-! ## Utterances that stand alone -/

theorem join_word (said text : List Char) : join said (.word text) = beside said (Text.trim text) := by
  simp only [join, beside, List.isEmpty_iff]
  by_cases ht : Text.trim text = []
  · by_cases hs : said = [] <;> simp [ht, hs]
  · by_cases hs : said = [] <;> simp [ht, hs]

theorem join_ne_nil {said : List Char} (h : said ≠ []) (u : Utterance) : join said u ≠ [] := by
  cases u with
  | word text => simp [join_word, h]
  | ending text => simp [join, h]

theorem join_beside {t : List Char} (h : t ≠ []) (said : List Char) (u : Utterance) :
    join (beside said t) u = beside said (join t u) := by
  cases u with
  | word text => rw [join_word, join_word, beside_assoc]
  | ending text => exact (beside_append h text).symm

theorem foldl_join_beside {t : List Char} (h : t ≠ []) (said : List Char)
    (utterances : List Utterance) :
    utterances.foldl join (beside said t) = beside said (utterances.foldl join t) := by
  induction utterances generalizing t with
  | nil => rfl
  | cons u rest ih =>
      rw [List.foldl_cons, List.foldl_cons, join_beside h]
      exact ih (join_ne_nil h u)

/-- Whether utterances are said in the same way after anything that was said before. -/
def StandAlone (utterances : List Utterance) : Prop :=
  ∀ said, utterances.foldl join said = beside said (joinAll utterances)

theorem standAlone_nil : StandAlone [] := by
  intro said
  exact (beside_nil said).symm

theorem standAlone_word (text : List Char) : StandAlone [.word text] := by
  intro said
  simp [joinAll, join_word]

/-- A word at the start is what the endings after it are glued to. -/
theorem standAlone_cons {text : List Char} (h : Text.trim text ≠ []) (rest : List Utterance) :
    StandAlone (.word text :: rest) := by
  intro said
  rw [joinAll, List.foldl_cons, List.foldl_cons, join_word, join_word, nil_beside]
  exact foldl_join_beside h said rest

theorem joinAll_append {utterances : List Utterance} (rest : List Utterance)
    (h : StandAlone rest) :
    joinAll (utterances ++ rest) = beside (joinAll utterances) (joinAll rest) := by
  rw [joinAll, List.foldl_append]
  exact h _

theorem StandAlone.append {utterances rest : List Utterance} (h : StandAlone utterances)
    (hrest : StandAlone rest) : StandAlone (utterances ++ rest) := by
  intro said
  rw [List.foldl_append, h, hrest, beside_assoc, joinAll_append rest hrest]

/-! ## What stands alone -/

theorem standAlone_number (digits : List Char) : StandAlone (number digits) := by
  match digits with
  | [] => exact standAlone_nil
  | [_] => exact standAlone_word _
  | _ :: _ :: _ => exact standAlone_word _

theorem standAlone_subscript (sub : Option (List Atom)) : StandAlone (subscript sub) := by
  cases sub with
  | none => exact standAlone_nil
  | some atoms => exact standAlone_cons (by decide) _

theorem standAlone_superscript (sup : Option (List Atom)) : StandAlone (superscript sup) := by
  cases sup with
  | none => exact standAlone_nil
  | some atoms =>
      rw [superscript]
      split
      case isTrue => exact standAlone_word _
      case isFalse =>
        split
        case isTrue => exact standAlone_word _
        case isFalse => exact standAlone_cons (by decide) _

theorem standAlone_root (index : Option (List Atom)) : StandAlone (root index) := by
  cases index with
  | none => exact standAlone_word _
  | some atoms => exact standAlone_cons (by decide) _

theorem standAlone_leaf (value : List Char) : StandAlone [leaf value] := by
  unfold leaf
  split
  case h_1 => exact standAlone_word _
  case h_2 =>
    split
    case h_1 c _ =>
      cases charName? c with
      | none => exact standAlone_word _
      | some name => exact standAlone_word _
    case h_2 => exact standAlone_word _

theorem standAlone_fontName (label : Label) :
    StandAlone ((note? (label.value.getD "").toList).map say).toList := by
  cases note? (label.value.getD "").toList with
  | none => exact standAlone_nil
  | some note => exact standAlone_word _

mutual

theorem standAlone_atom : (a : Atom) → StandAlone (atom a)
  | .node label ⟨body, sup, sub, numerator, denominator, index, radicand⟩ => by
      have hbody := standAlone_branch body
      have hradicand := standAlone_branch radicand
      rw [atom]
      apply StandAlone.append
      · apply StandAlone.append
        · split
          case h_1 | h_2 => exact standAlone_nil
          case h_3 | h_9 => exact standAlone_word _
          case h_4 | h_5 | h_10 => exact standAlone_cons (by decide) _
          case h_6 => exact (standAlone_root index).append hradicand
          case h_7 => exact hbody.append (standAlone_word _)
          case h_8 => exact (standAlone_fontName label).append hbody
          case h_11 | h_12 | h_13 | h_14 => exact hbody
          case h_15 => exact standAlone_leaf _
        · exact standAlone_subscript sub
      · exact standAlone_superscript sup

theorem standAlone_branch : (b : Option (List Atom)) → StandAlone (branch b)
  | none => standAlone_nil
  | some atoms => standAlone_sequence [] atoms

theorem standAlone_sequence (digits : List Char) : (atoms : List Atom) →
    StandAlone (sequence digits atoms)
  | [] => standAlone_number digits
  | .node label ⟨body, sup, sub, numerator, denominator, index, radicand⟩ :: rest => by
      have hatom := standAlone_atom
        (.node label ⟨body, sup, sub, numerator, denominator, index, radicand⟩)
      have hrest := standAlone_sequence [] rest
      rw [sequence]
      split
      case h_1 c _ =>
        split
        case isTrue => exact standAlone_sequence (digits ++ [c]) rest
        case isFalse =>
          exact (((standAlone_number _).append (standAlone_subscript sub)).append
            (standAlone_superscript sup)).append hrest
      case h_2 => exact ((standAlone_number digits).append hatom).append hrest

end

/-! ## Numbers -/

theorem isDigit_of_digit? {label : Label} {c : Char} (h : digit? label = some c) :
    Text.isDigit c = true := by
  unfold digit? at h
  split at h
  case isFalse => cases h
  case isTrue =>
    split at h
    case h_2 => cases h
    case h_1 d _ =>
      by_cases hd : Text.isDigit d = true
      · rw [if_pos hd] at h
        cases h
        exact hd
      · rw [if_neg hd] at h
        cases h

theorem digitValue_lt {c : Char} (h : Text.isDigit c = true) : digitValue c < 10 := by
  have hn : c.toNat ≤ 57 := by
    simp only [Text.isDigit, Bool.and_eq_true, decide_eq_true_eq, Char.le_def,
      UInt32.le_iff_toNat_le] at h
    exact h.2
  have hzero : '0'.toNat = 48 := rfl
  rw [digitValue]
  omega

theorem trim_digitName_ne_nil {n : Nat} (h : n < 10) :
    Text.trim (digitNames.getD n "").toList ≠ [] := by
  have hall : ∀ m < 10, Text.trim (digitNames.getD m "").toList ≠ [] := by decide
  exact hall n h

variable {digits more : List Char}

theorem length_joinAll_number (h : ∀ c ∈ digits, Text.isDigit c = true) (hlong : 2 ≤ digits.length) :
    (joinAll (number digits)).length = digits.length := by
  match digits with
  | [] | [_] => simp at hlong
  | c :: d :: rest =>
      have htrim := Text.trim_eq_self fun e he => Text.isBlank_eq_false_of_isDigit (h e he)
      simp [number, joinAll, join_word, htrim]

theorem length_le_joinAll_number (h : ∀ c ∈ digits, Text.isDigit c = true) :
    digits.length ≤ (joinAll (number digits)).length := by
  match digits with
  | [] => exact Nat.zero_le _
  | [c] =>
      have hname := trim_digitName_ne_nil (digitValue_lt (h c List.mem_cons_self))
      have hsaid : joinAll (number [c]) = Text.trim (digitNames.getD (digitValue c) "").toList := by
        simp [number, joinAll, say, join_word]
      rw [hsaid]
      exact List.length_pos_iff.2 hname
  | c :: d :: rest => exact Nat.le_of_eq (length_joinAll_number h (by simp)).symm

theorem joinAll_number_ne_nil (h : ∀ c ∈ digits, Text.isDigit c = true) (hne : digits ≠ []) :
    joinAll (number digits) ≠ [] := by
  apply List.length_pos_iff.1
  exact Nat.lt_of_lt_of_le (List.length_pos_iff.2 hne) (length_le_joinAll_number h)

/-- A number that is cut in two is said in another way: as one word it has no space. -/
theorem joinAll_number_append_iff (h : ∀ c ∈ digits, Text.isDigit c = true)
    (hmore : ∀ c ∈ more, Text.isDigit c = true) :
    joinAll (number (digits ++ more)) = beside (joinAll (number digits)) (joinAll (number more)) ↔
      digits = [] ∨ more = [] := by
  constructor
  · intro heq
    by_contra hne
    have hdigits : digits ≠ [] := fun hnil => hne (.inl hnil)
    have hmoreDigits : more ≠ [] := fun hnil => hne (.inr hnil)
    have hall : ∀ c ∈ digits ++ more, Text.isDigit c = true := by
      intro c hc
      exact (List.mem_append.1 hc).elim (h c) (hmore c)
    have hlong : 2 ≤ (digits ++ more).length := by
      have hpos := List.length_pos_iff.2 hdigits
      have hmorePos := List.length_pos_iff.2 hmoreDigits
      rw [List.length_append]
      omega
    -- one number has just its digits, and two numbers have a space besides
    have hlength := congrArg List.length heq
    rw [length_joinAll_number hall hlong, beside_of_ne_nil (joinAll_number_ne_nil h hdigits)
      (joinAll_number_ne_nil hmore hmoreDigits), List.length_append, List.length_append,
      List.length_cons] at hlength
    have hle := length_le_joinAll_number h
    have hleMore := length_le_joinAll_number hmore
    omega
  · rintro (rfl | rfl)
    · exact (nil_beside _).symm
    · rw [List.append_nil]
      exact (beside_nil _).symm

/-! ## Where a sequence is cut -/

/-- Whether an atom is a digit without scripts, after which a number may go on. -/
def isOpenDigit (a : Atom) : Bool :=
  (digit? a.label).isSome && !a.hasScripts

/-- Whether a sequence ends with a digit without scripts. -/
def endsInOpenDigit (atoms : List Atom) : Bool :=
  atoms.getLast?.any isOpenDigit

/-- Whether a sequence starts with a digit. -/
def startsWithDigit (atoms : List Atom) : Bool :=
  atoms.head?.any fun a => (digit? a.label).isSome

/-- What is said for the scripts of an atom. -/
def scripts (a : Atom) : List Utterance :=
  subscript (a.branch .subscript) ++ superscript (a.branch .superscript)

theorem standAlone_scripts (a : Atom) : StandAlone (scripts a) :=
  (standAlone_subscript _).append (standAlone_superscript _)

/-- What is said for an atom after the digit that it is. -/
def afterDigit (a : Atom) : List Utterance :=
  if (digit? a.label).isSome then scripts a else atom a

theorem standAlone_afterDigit (a : Atom) : StandAlone (afterDigit a) := by
  unfold afterDigit
  split
  case isTrue => exact standAlone_scripts a
  case isFalse => exact standAlone_atom a

theorem isOpenDigit_node (label : Label) (branches : Branches Atom) :
    isOpenDigit (.node label branches) =
      ((digit? label).isSome && (branches.superscript.isNone && branches.subscript.isNone)) := by
  simp [isOpenDigit, Atom.hasScripts, Atom.branch, Branches.get]

theorem sequence_cons_of_isOpenDigit {a : Atom} (h : isOpenDigit a = true) (digits : List Char)
    (rest : List Atom) :
    sequence digits (a :: rest) = sequence (digits ++ (digit? a.label).toList) rest := by
  obtain ⟨label, body, sup, sub, numerator, denominator, index, radicand⟩ := a
  rw [isOpenDigit_node, Bool.and_eq_true] at h
  obtain ⟨c, hc⟩ := Option.isSome_iff_exists.1 h.1
  rw [sequence, Atom.label_node, hc]
  exact if_pos h.2

theorem sequence_cons_of_not_isOpenDigit {a : Atom} (h : isOpenDigit a = false)
    (digits : List Char) (rest : List Atom) :
    sequence digits (a :: rest) =
      number (digits ++ (digit? a.label).toList) ++ afterDigit a ++ sequence [] rest := by
  obtain ⟨label, body, sup, sub, numerator, denominator, index, radicand⟩ := a
  rw [isOpenDigit_node] at h
  rw [sequence, Atom.label_node, afterDigit, Atom.label_node]
  cases hc : digit? label with
  | none => simp
  | some c =>
      rw [hc, Option.isSome_some, Bool.true_and] at h
      simp [h, scripts, Atom.branch, Branches.get]

theorem isDigit_of_mem_digit? {label : Label} {c : Char} (h : c ∈ (digit? label).toList) :
    Text.isDigit c = true :=
  isDigit_of_digit? (Option.mem_toList.1 h)

/-- How a sequence is said: its first digits go on with the number before it. -/
structure StartsAs (atoms : List Atom) (digits : List Char) (said : List Utterance) : Prop where
  isDigit : ∀ c ∈ digits, Text.isDigit c = true
  eq_nil_iff : digits = [] ↔ startsWithDigit atoms = false
  standAlone : StandAlone said
  sequence_eq (before : List Char) : sequence before atoms = number (before ++ digits) ++ said

/-- How a sequence is said: its last digits are a number that may go on. -/
structure EndsAs (atoms : List Atom) (said : List Utterance) (digits : List Char) : Prop where
  isDigit : ∀ c ∈ digits, Text.isDigit c = true
  eq_nil_iff : digits = [] ↔ endsInOpenDigit atoms = false
  standAlone : StandAlone said
  sequence_append (rest : List Atom) :
    sequence [] (atoms ++ rest) = said ++ sequence digits rest

theorem exists_startsAs (atoms : List Atom) : ∃ digits said, StartsAs atoms digits said := by
  induction atoms with
  | nil =>
      exists [], []
      constructor
      case isDigit => simp
      case eq_nil_iff => simp [startsWithDigit]
      case standAlone => exact standAlone_nil
      case sequence_eq => simp [sequence]
  | cons a rest ih =>
      by_cases hopen : isOpenDigit a = true
      · obtain ⟨digits, said, h⟩ := ih
        obtain ⟨c, hc⟩ := Option.isSome_iff_exists.1 (Bool.and_eq_true_iff.1 hopen).1
        exists c :: digits, said
        constructor
        case isDigit => exact List.forall_mem_cons.2 ⟨isDigit_of_digit? hc, h.isDigit⟩
        case eq_nil_iff => simp [startsWithDigit, hc]
        case standAlone => exact h.standAlone
        case sequence_eq =>
          intro before
          rw [sequence_cons_of_isOpenDigit hopen, h.sequence_eq, hc, Option.toList_some,
            List.append_assoc, List.singleton_append]
      · have hclosed := Bool.eq_false_iff.2 hopen
        exists (digit? a.label).toList, afterDigit a ++ sequence [] rest
        constructor
        case isDigit => exact fun c => isDigit_of_mem_digit?
        case eq_nil_iff => simp [startsWithDigit]
        case standAlone => exact (standAlone_afterDigit a).append (standAlone_sequence [] rest)
        case sequence_eq =>
          intro before
          rw [sequence_cons_of_not_isOpenDigit hclosed, List.append_assoc]

theorem exists_endsAs (atoms : List Atom) : ∃ said digits, EndsAs atoms said digits := by
  -- from the end, since only the last atom decides whether the digits before it are still open
  induction atoms using List.reverseRecOn with
  | nil =>
      exists [], []
      constructor
      case isDigit => simp
      case eq_nil_iff => simp [endsInOpenDigit]
      case standAlone => exact standAlone_nil
      case sequence_append => simp
  | append_singleton atoms a ih =>
      obtain ⟨said, digits, h⟩ := ih
      have hends : endsInOpenDigit (atoms ++ [a]) = isOpenDigit a := by simp [endsInOpenDigit]
      have hdigits : ∀ c ∈ digits ++ (digit? a.label).toList, Text.isDigit c = true := by
        intro c hc
        exact (List.mem_append.1 hc).elim (h.isDigit c) isDigit_of_mem_digit?
      by_cases hopen : isOpenDigit a = true
      · obtain ⟨c, hc⟩ := Option.isSome_iff_exists.1 (Bool.and_eq_true_iff.1 hopen).1
        exists said, digits ++ (digit? a.label).toList
        constructor
        case isDigit => exact hdigits
        case eq_nil_iff => simp [hends, hopen, hc]
        case standAlone => exact h.standAlone
        case sequence_append =>
          intro rest
          rw [List.append_assoc, h.sequence_append, List.singleton_append,
            sequence_cons_of_isOpenDigit hopen]
      · have hclosed := Bool.eq_false_iff.2 hopen
        exists said ++ (number (digits ++ (digit? a.label).toList) ++ afterDigit a), []
        constructor
        case isDigit => simp
        case eq_nil_iff => simp [hends, hclosed]
        case standAlone =>
          exact h.standAlone.append ((standAlone_number _).append (standAlone_afterDigit a))
        case sequence_append =>
          intro rest
          rw [List.append_assoc, h.sequence_append, List.singleton_append,
            sequence_cons_of_not_isOpenDigit hclosed, List.append_assoc said]

/-! ## Sequences one after the other -/

/-- Where two sequences meet, only the number that ends the first one and the number that starts the
second one can be said in another way. -/
theorem joinAll_sequence_append_iff (as bs : List Atom) :
    joinAll (sequence [] (as ++ bs)) =
        beside (joinAll (sequence [] as)) (joinAll (sequence [] bs)) ↔
      ¬(endsInOpenDigit as = true ∧ startsWithDigit bs = true) := by
  obtain ⟨said, digits, ha⟩ := exists_endsAs as
  obtain ⟨more, rest, hb⟩ := exists_startsAs bs
  have hboth : joinAll (sequence [] (as ++ bs)) =
      beside (joinAll said) (beside (joinAll (number (digits ++ more))) (joinAll rest)) := by
    rw [ha.sequence_append, hb.sequence_eq,
      joinAll_append _ ((standAlone_number _).append hb.standAlone), joinAll_append _ hb.standAlone]
  have has : joinAll (sequence [] as) = beside (joinAll said) (joinAll (number digits)) := by
    have heq := ha.sequence_append []
    rw [List.append_nil] at heq
    rw [heq, sequence, joinAll_append _ (standAlone_number digits)]
  have hbs : joinAll (sequence [] bs) = beside (joinAll (number more)) (joinAll rest) := by
    rw [hb.sequence_eq, List.nil_append, joinAll_append _ hb.standAlone]
  calc joinAll (sequence [] (as ++ bs)) =
        beside (joinAll (sequence [] as)) (joinAll (sequence [] bs))
      ↔ joinAll (number (digits ++ more)) = beside (joinAll (number digits)) (joinAll (number more)) := by
        rw [hboth, has, hbs, beside_assoc, beside_right_inj, ← beside_assoc, beside_left_inj]
    _ ↔ digits = [] ∨ more = [] := joinAll_number_append_iff ha.isDigit hb.isDigit
    _ ↔ ¬(endsInOpenDigit as = true ∧ startsWithDigit bs = true) := by
        rw [ha.eq_nil_iff, hb.eq_nil_iff, not_and_or, Bool.not_eq_true, Bool.not_eq_true]

end Speech

/-- Two texts with a space between them, or the other one if one of them is empty. -/
def joinedBySpace (s t : String) : String :=
  if s = "" then t else if t = "" then s else s ++ " " ++ t

theorem toList_joinedBySpace (s t : String) :
    (joinedBySpace s t).toList = Speech.beside s.toList t.toList := by
  unfold joinedBySpace Speech.beside
  simp only [String.toList_eq_nil_iff]
  split
  case isTrue => rfl
  case isFalse =>
    split
    case isTrue => rfl
    case isFalse => simp

/-- Speech is compositional: two sequences one after the other are said as the one and then the
other, except where a number goes on from the first one into the second. -/
theorem speak_append_eq_joinedBySpace_iff (as bs : List Atom) :
    speak (as ++ bs) = joinedBySpace (speak as) (speak bs) ↔
      ¬(Speech.endsInOpenDigit as = true ∧ Speech.startsWithDigit bs = true) := by
  rw [← Speech.joinAll_sequence_append_iff, ← String.toList_inj, toList_joinedBySpace]
  simp only [speak, String.toList_ofList]

end FormulaEditor

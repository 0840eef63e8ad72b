import FormulaEditor.Formula.Walk
import FormulaEditor.Proofs.Speech.Composing

/-!
# Speech of text

Text is said as the characters that stand in its body, and its scripts are said after that. What stands
in a group of the body is not said, although it is shown and written: text is said completely only if
its groups hold nothing but blanks.
-/

namespace FormulaEditor

namespace Text

/-- The characters of a text that are not blank. -/
def visible (text : List Char) : List Char :=
  text.filter fun c => !isBlank c

theorem visible_append (s t : List Char) : visible (s ++ t) = visible s ++ visible t :=
  List.filter_append ..

theorem visible_sublist (text : List Char) : (visible text).Sublist text :=
  List.filter_sublist

@[simp] theorem visible_visible (text : List Char) : visible (visible text) = visible text := by
  simp [visible]

theorem visible_reverse (text : List Char) : visible text.reverse = (visible text).reverse :=
  List.filter_reverse ..

theorem visible_trimStart (text : List Char) : visible (trimStart text) = visible text := by
  induction text with
  | nil => rfl
  | cons c text ih =>
      by_cases hc : isBlank c = true
      · simpa [trimStart, visible, hc] using ih
      · simp [trimStart, hc]

theorem visible_trim (text : List Char) : visible (trim text) = visible text := by
  rw [trim, trimEnd, visible_reverse]
  show (visible (trimStart (trimStart text).reverse)).reverse = visible text
  rw [visible_trimStart, visible_reverse, List.reverse_reverse, visible_trimStart]

end Text

namespace Atom

/-- The characters that an atom is written as. -/
def characters (a : Atom) : List Char :=
  (a.value.getD "").toList

/-- The characters of the leaves in a sequence and below it, in document order. -/
def leafText (atoms : List Atom) : List Char :=
  ((subatomsOfList atoms).filter isLeaf).flatMap characters

theorem leafText_cons (a : Atom) (rest : List Atom) :
    leafText (a :: rest) = leafText [a] ++ leafText rest := by
  simp [leafText, subatomsOfList]

/-- An atom as text is made of: a letter or another leaf like it, or a group of anything. -/
inductive IsTextPart (a : Atom) : Prop where
  | leaf : a.kind = .ordinary → a.branches = Branches.none → IsTextPart a
  | group : a.kind = .group → a.value = none → IsTextPart a

/-- The visible characters that stand in the groups of a body. -/
def inGroups (body : List Atom) : List Char :=
  (body.filter fun a => a.kind == .group).flatMap fun a => Text.visible (leafText [a])

theorem leafText_singleton (a : Atom) : leafText [a] =
    (if a.isLeaf = true then a.characters else []) ++ leafText a.children := by
  by_cases h : a.isLeaf = true <;> simp [leafText, subatomsOfList, subatoms_eq, h]

theorem leafText_leaf {a : Atom} (hkind : a.kind = .ordinary)
    (hbranches : a.branches = Branches.none) : leafText [a] = a.characters := by
  have hleaf : a.isLeaf = true := by
    simp [isLeaf, hkind, Kind.shape, hasScripts, branch, hbranches]
  have hchildren : a.children = [] := by
    simp [children, hbranches, Branches.toList]
  rw [leafText_singleton, if_pos hleaf, hchildren]
  exact List.append_nil _

variable {a : Atom} {body : List Atom}

theorem inGroups_cons_of_kind (h : a.kind = .group) :
    inGroups (a :: body) = Text.visible (leafText [a]) ++ inGroups body := by
  simp [inGroups, h]

theorem inGroups_cons_of_kind_ne (h : a.kind ≠ .group) : inGroups (a :: body) = inGroups body := by
  simp [inGroups, h]

theorem characters_of_value (h : a.value = none) : a.characters = [] := by
  rw [characters, h]
  rfl

/-- What stands in a body is part of the text of its leaves. -/
theorem visible_characters_sublist (h : ∀ a ∈ body, a.IsTextPart) :
    (Text.visible (body.flatMap characters)).Sublist (Text.visible (leafText body)) := by
  induction body with
  | nil => exact List.Sublist.refl _
  | cons a body ih =>
      obtain ⟨ha, hbody⟩ := List.forall_mem_cons.1 h
      rw [List.flatMap_cons, leafText_cons, Text.visible_append, Text.visible_append]
      apply List.Sublist.append _ (ih hbody)
      cases ha with
      | leaf hkind hbranches =>
          have hleaf := leafText_leaf hkind hbranches
          exact hleaf ▸ List.Sublist.refl _
      | group _ hvalue =>
          rw [characters_of_value hvalue]
          exact List.nil_sublist _

/-- Only what stands in the groups of a body is left of the text of its leaves. -/
theorem length_visible_leafText (h : ∀ a ∈ body, a.IsTextPart) :
    (Text.visible (leafText body)).length =
      (Text.visible (body.flatMap characters)).length + (inGroups body).length := by
  induction body with
  | nil => rfl
  | cons a body ih =>
      obtain ⟨ha, hbody⟩ := List.forall_mem_cons.1 h
      have hrest := ih hbody
      rw [List.flatMap_cons, leafText_cons, Text.visible_append, Text.visible_append,
        List.length_append, List.length_append, hrest]
      cases ha with
      | leaf hkind hbranches =>
          rw [leafText_leaf hkind hbranches,
            inGroups_cons_of_kind_ne (by rw [hkind]; decide), Nat.add_assoc]
      | group hkind hvalue =>
          have hnone : (Text.visible a.characters).length = 0 := by
            rw [characters_of_value hvalue]
            rfl
          rw [hnone, inGroups_cons_of_kind hkind, List.length_append]
          omega

/-- A text holds every visible character of its leaves exactly if nothing visible is in its groups. -/
theorem visible_leafText_sublist_iff (h : ∀ a ∈ body, a.IsTextPart) :
    (Text.visible (leafText body)).Sublist (Text.trim (body.flatMap characters)) ↔
      inGroups body = [] := by
  have hlength := length_visible_leafText h
  constructor
  · intro hall
    have hvisible : (Text.visible (leafText body)).Sublist (Text.visible (body.flatMap characters)) := by
      rw [← Text.visible_visible, ← Text.visible_trim (body.flatMap characters)]
      exact hall.filter _
    have hle := hvisible.length_le
    exact List.length_eq_zero_iff.1 (by omega)
  · intro hnil
    rw [hnil, List.length_nil, Nat.add_zero] at hlength
    rw [← (visible_characters_sublist h).eq_of_length hlength.symm, ← Text.visible_trim]
    exact Text.visible_sublist _

/-- The atom without its scripts. -/
def withoutScripts (a : Atom) : Atom :=
  (a.putBranch .superscript none).putBranch .subscript none

@[simp] theorem label_withoutScripts (a : Atom) : a.withoutScripts.label = a.label := rfl

@[simp] theorem body_withoutScripts (a : Atom) : a.withoutScripts.body = a.body := rfl

end Atom

namespace Speech

@[simp] theorem scripts_withoutScripts (a : Atom) : scripts a.withoutScripts = [] := rfl

variable {t : Atom}

theorem sequence_text (h : t.kind = .text) :
    sequence [] [t] = .word (t.body.flatMap Atom.characters) :: scripts t := by
  obtain ⟨label, body, sup, sub, numerator, denominator, index, radicand⟩ := t
  have hkind : label.kind = .text := h
  have hdigit : digit? label = none := by
    rw [digit?, if_neg (by rw [hkind]; decide)]
  rw [sequence, hdigit]
  simp only [atom, hkind]
  simp only [number, sequence, scripts, List.nil_append, List.append_nil, List.cons_append]
  rfl

theorem joinAll_sequence_text (h : t.kind = .text) : joinAll (sequence [] [t]) =
    beside (Text.trim (t.body.flatMap Atom.characters)) (joinAll (scripts t)) := by
  rw [sequence_text h]
  show joinAll ([.word (t.body.flatMap Atom.characters)] ++ scripts t) = _
  rw [joinAll_append _ (standAlone_scripts t)]
  simp [joinAll, join_word]

end Speech

/-- Text is said as it stands, and then its scripts. It is said completely, that is with all visible
characters of its leaves in their order, exactly if nothing visible is in its groups. -/
theorem speak_text {t : Atom} (hkind : t.kind = .text) (hbody : ∀ a ∈ t.body, a.IsTextPart) :
    speak [t] = joinedBySpace (speak [t.withoutScripts])
        (String.ofList (Speech.joinAll (Speech.scripts t))) ∧
      ((Text.visible (Atom.leafText t.body)).Sublist (speak [t.withoutScripts]).toList ↔
        Atom.inGroups t.body = []) := by
  have hbare : (speak [t.withoutScripts]).toList = Text.trim (t.body.flatMap Atom.characters) := by
    rw [speak, String.toList_ofList, Speech.joinAll_sequence_text (t := t.withoutScripts) hkind]
    exact Speech.beside_nil _
  constructor
  · rw [← String.toList_inj, toList_joinedBySpace, hbare, speak, String.toList_ofList,
      String.toList_ofList, Speech.joinAll_sequence_text hkind]
  · rw [hbare]
    exact Atom.visible_leafText_sublist_iff hbody

/-- A text of three letters with the second one in a group. -/
def letterInGroup : Atom :=
  let group := .node ⟨2, .group, none, none, Marks.none⟩
    { Branches.none with body := some [Atom.leaf 3 .ordinary (some "b") (some 'b')] }
  .node ⟨0, .text, some "\\text", none, Marks.none⟩
    { Branches.none with
      body := some [Atom.leaf 1 .ordinary (some "a") (some 'a'), group,
        Atom.leaf 4 .ordinary (some "c") (some 'c')] }

/-- The letter in the group is not said. -/
theorem speak_text_letterInGroup :
    letterInGroup.kind = .text ∧ (∀ a ∈ letterInGroup.body, a.IsTextPart) ∧
      speak [letterInGroup] = "ac" ∧ Atom.leafText letterInGroup.body = ['a', 'b', 'c'] ∧
      ¬(Text.visible (Atom.leafText letterInGroup.body)).Sublist
        (speak [letterInGroup.withoutScripts]).toList := by
  have hbody : ∀ a ∈ letterInGroup.body, a.IsTextPart := by
    intro a ha
    simp only [letterInGroup, Atom.body, Atom.branch, Branches.get, Atom.branches_node,
      Option.getD_some, List.mem_cons, List.not_mem_nil, or_false] at ha
    rcases ha with rfl | rfl | rfl
    · exact .leaf rfl rfl
    · exact .group rfl rfl
    · exact .leaf rfl rfl
  refine ⟨rfl, hbody, rfl, rfl, ?_⟩
  intro hall
  cases (speak_text rfl hbody).2.1 hall

end FormulaEditor

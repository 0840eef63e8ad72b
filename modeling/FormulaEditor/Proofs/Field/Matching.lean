import FormulaEditor.Proofs.Field.Substituting

/-!
# Which shortcut is complete

A text is completed by the longest configured trigger that it ends with, and only if there is none, by
the longest built-in one. So a configured trigger completes itself, and a built-in one does so unless
it ends with a configured one.
-/

namespace FormulaEditor

namespace Shortcut

variable {typed : List Char} {shortcuts : List Shortcut} {s t : Shortcut}

/-- Whether a shortcut is among others, and none after it has the same trigger. -/
def IsLast (t : Shortcut) (shortcuts : List Shortcut) : Prop :=
  ∃ before after, shortcuts = before ++ t :: after ∧ ∀ s ∈ after, s.trigger ≠ t.trigger

theorem IsLast.mem (h : t.IsLast shortcuts) : t ∈ shortcuts := by
  obtain ⟨before, after, rfl, -⟩ := h
  exact List.mem_append_right _ List.mem_cons_self

/-- Of the shortcuts with one trigger, there is a last one. -/
theorem exists_isLast {trigger : String} (h : ∃ s ∈ shortcuts, s.trigger = trigger) :
    ∃ t : Shortcut, t.IsLast shortcuts ∧ t.trigger = trigger := by
  induction shortcuts with
  | nil =>
      obtain ⟨s, hs, -⟩ := h
      cases hs
  | cons first rest ih =>
      by_cases hrest : ∃ s ∈ rest, s.trigger = trigger
      · obtain ⟨t, ⟨before, after, hsplit, hafter⟩, htrigger⟩ := ih hrest
        exact ⟨t, ⟨first :: before, after, congrArg _ hsplit, hafter⟩, htrigger⟩
      · obtain ⟨s, hs, hfirst⟩ := h
        rcases List.mem_cons.1 hs with rfl | hs
        · exact ⟨s, ⟨[], rest, rfl, fun u hu heq => hrest ⟨u, hu, heq.trans hfirst⟩⟩, hfirst⟩
        · exact absurd ⟨s, hs, hfirst⟩ hrest

theorem isLast_of_mem_builtIn (h : t ∈ builtIn) : t.IsLast builtIn := by
  have hnodup : (builtIn.map Shortcut.trigger).Nodup := by decide +kernel
  obtain ⟨before, after, hsplit⟩ := List.append_of_mem h
  refine ⟨before, after, hsplit, fun s hs heq => ?_⟩
  rw [hsplit, List.map_append, List.map_cons, List.nodup_append] at hnodup
  exact (List.nodup_cons.1 hnodup.2.1).1 (List.mem_map.2 ⟨s, hs, heq⟩)

theorem fits_iff (h : s.CanBeTyped) : fits typed s = true ↔ s.trigger.toList <:+ typed := by
  have hempty : s.trigger.isEmpty = false := by
    rw [Bool.eq_false_iff, Ne, String.isEmpty_iff]
    intro hnil
    exact h.1 (by rw [hnil]; rfl)
  simp [fits, hempty]

theorem foldl_longer_some (shortcuts : List Shortcut) (best : Shortcut) :
    ∃ t, shortcuts.foldl longer (some best) = some t := by
  induction shortcuts generalizing best with
  | nil => exact ⟨best, rfl⟩
  | cons s rest ih =>
      rw [List.foldl_cons, longer]
      split
      · exact ih best
      · exact ih s

theorem longest?_eq_none_iff (h : ∀ s ∈ shortcuts, s.CanBeTyped) :
    longest? typed shortcuts = none ↔ ∀ s ∈ shortcuts, ¬s.trigger.toList <:+ typed := by
  have hfilter : longest? typed shortcuts = none ↔ shortcuts.filter (fits typed) = [] := by
    unfold longest?
    cases shortcuts.filter (fits typed) with
    | nil => simp
    | cons s rest =>
        obtain ⟨t, ht⟩ := foldl_longer_some rest s
        rw [List.foldl_cons, longer, ht]
        simp
  rw [hfilter, List.filter_eq_nil_iff]
  exact forall₂_congr fun s hs => by rw [fits_iff (h s hs)]

theorem foldl_longer_eq_self (h : ∀ s ∈ shortcuts, s.length < t.length) :
    shortcuts.foldl longer (some t) = some t := by
  induction shortcuts with
  | nil => rfl
  | cons s rest ih =>
      obtain ⟨hs, hrest⟩ := List.forall_mem_cons.1 h
      rw [List.foldl_cons, longer, if_pos hs]
      exact ih hrest

/-- The last shortcut of a length that no other one exceeds is the longest. -/
theorem foldl_longer_eq {before after : List Shortcut} (hbefore : ∀ s ∈ before, s.length ≤ t.length)
    (hafter : ∀ s ∈ after, s.length < t.length) :
    (before ++ t :: after).foldl longer none = some t := by
  rw [List.foldl_append, List.foldl_cons]
  have hlonger : longer (before.foldl longer none) t = some t := by
    cases hbest : before.foldl longer none with
    | none => rfl
    | some b =>
        have hmem := (mem_of_foldl_longer hbest).resolve_right nofun
        rw [longer, if_neg (Nat.not_lt.2 (hbefore b hmem))]
  rw [hlonger]
  exact foldl_longer_eq_self hafter

theorem length_le_of_fits (h : fits t.trigger.toList s = true) : s.length ≤ t.length := by
  simp only [fits, Bool.and_eq_true, List.isSuffixOf_iff_suffix] at h
  simpa only [Shortcut.length, String.length_toList] using h.2.length_le

theorem trigger_eq_of_fits (h : fits t.trigger.toList s = true) (hlength : t.length ≤ s.length) :
    s.trigger = t.trigger := by
  have hle := length_le_of_fits h
  simp only [fits, Bool.and_eq_true, List.isSuffixOf_iff_suffix] at h
  refine String.toList_inj.1 (h.2.eq_of_length ?_)
  simp only [String.length_toList]
  exact Nat.le_antisymm hle hlength

/-- A trigger is completed by the last shortcut that has it. -/
theorem longest?_trigger (h : t.IsLast shortcuts) (ht : t.CanBeTyped) :
    longest? t.trigger.toList shortcuts = some t := by
  obtain ⟨before, after, rfl, hafter⟩ := h
  rw [longest?, List.filter_append, List.filter_cons_of_pos ((fits_iff ht).2 (List.suffix_refl _))]
  refine foldl_longer_eq (fun s hs => length_le_of_fits (List.mem_filter.1 hs).2) fun s hs => ?_
  obtain ⟨hmem, hfits⟩ := List.mem_filter.1 hs
  exact Nat.lt_of_not_le fun hle => hafter s hmem (trigger_eq_of_fits hfits hle)

end Shortcut

namespace ShortcutTable

variable {table : ShortcutTable} {typed : List Char} {s t : Shortcut}

/-- Whether a shortcut is in effect: one that is configured, or a built-in one whose trigger is not. -/
def InEffect (table : ShortcutTable) (t : Shortcut) : Prop :=
  t.IsLast table.configured ∨ table.configuredOnly = false ∧ t ∈ Shortcut.builtIn ∧
    ∀ s ∈ table.configured, s.trigger ≠ t.trigger

theorem CanBeTyped.of_inEffect (h : table.CanBeTyped) (ht : table.InEffect t) : t.CanBeTyped := by
  rcases ht with hlast | ⟨-, hbuiltIn, -⟩
  · exact h t hlast.mem
  · exact Shortcut.canBeTyped_builtIn t hbuiltIn

/-- No configured shortcut is complete if the text ends with none of the triggers that count. -/
theorem CanBeTyped.longest?_configured_eq_none_iff (h : table.CanBeTyped) (typed : List Char) :
    Shortcut.longest? typed table.configured = none ↔
      ∀ s : Shortcut, s.IsLast table.configured → ¬s.trigger.toList <:+ typed := by
  rw [Shortcut.longest?_eq_none_iff h]
  refine ⟨fun hnone s hs => hnone s hs.mem, fun hnone s hs => ?_⟩
  obtain ⟨t, ht, htrigger⟩ := Shortcut.exists_isLast ⟨s, hs, rfl⟩
  exact htrigger ▸ hnone t ht

/-- Nothing is completed by a text that ends with no trigger. -/
theorem CanBeTyped.matchEnd?_eq_none_iff (h : table.CanBeTyped) :
    table.matchEnd? typed = none ↔ ∀ s, table.InEffect s → ¬s.trigger.toList <:+ typed := by
  have hconfigured := h.longest?_configured_eq_none_iff typed
  unfold matchEnd?
  cases hlongest : Shortcut.longest? typed table.configured with
  | some t =>
      refine iff_of_false nofun fun hnone => ?_
      rw [hconfigured.2 fun s hs => hnone s (.inl hs)] at hlongest
      cases hlongest
  | none =>
      have hlast := hconfigured.1 hlongest
      cases honly : table.configuredOnly with
      | true =>
          refine iff_of_true rfl fun s hs => ?_
          rcases hs with hs | ⟨hfalse, -⟩
          · exact hlast s hs
          · rw [honly] at hfalse
            cases hfalse
      | false =>
          show Shortcut.longest? typed Shortcut.builtIn = none ↔ _
          rw [Shortcut.longest?_eq_none_iff Shortcut.canBeTyped_builtIn]
          constructor
          · rintro hnone s (hs | ⟨-, hbuiltIn, -⟩)
            · exact hlast s hs
            · exact hnone s hbuiltIn
          · intro hnone s hs hsuffix
            by_cases hshadowed : ∃ u ∈ table.configured, u.trigger = s.trigger
            · obtain ⟨u, hu, htrigger⟩ := Shortcut.exists_isLast hshadowed
              exact hlast u hu (htrigger ▸ hsuffix)
            · exact hnone s (.inr ⟨honly, hs, fun u hu heq => hshadowed ⟨u, hu, heq⟩⟩) hsuffix

/-- A trigger completes its own shortcut if that is configured, or if it ends with no configured
trigger. -/
theorem CanBeTyped.matchEnd?_trigger_iff (h : table.CanBeTyped) (ht : table.InEffect t) :
    table.matchEnd? t.trigger.toList = some t ↔ t.IsLast table.configured ∨
      ∀ s : Shortcut, s.IsLast table.configured → ¬s.trigger.toList <:+ t.trigger.toList := by
  have hconfigured := h.longest?_configured_eq_none_iff t.trigger.toList
  have htyped := h.of_inEffect ht
  unfold matchEnd?
  rcases ht with hlast | ⟨honly, hbuiltIn, hother⟩
  · rw [Shortcut.longest?_trigger hlast htyped]
    exact iff_of_true rfl (.inl hlast)
  · rw [or_iff_right fun hlast => hother t hlast.mem rfl, ← hconfigured]
    cases hlongest : Shortcut.longest? t.trigger.toList table.configured with
    | some s =>
        refine iff_of_false (fun heq => ?_) nofun
        cases heq
        exact hother t (Shortcut.mem_of_longest? hlongest).1 rfl
    | none =>
        simp only [honly, Bool.false_eq_true, if_false, iff_true]
        exact Shortcut.longest?_trigger (Shortcut.isLast_of_mem_builtIn hbuiltIn) htyped

/-- A shortcut is complete somewhere in a text if the text contains a trigger. -/
theorem CanBeTyped.exists_matchEnd?_take_iff (h : table.CanBeTyped) (typed : List Char) :
    (∃ n < typed.length, table.matchEnd? (typed.take (n + 1)) ≠ none) ↔
      ∃ s, table.InEffect s ∧ s.trigger.toList <:+: typed := by
  constructor
  · rintro ⟨n, -, hne⟩
    rw [Ne, h.matchEnd?_eq_none_iff] at hne
    obtain ⟨s, hs⟩ := Classical.not_forall.1 hne
    obtain ⟨heffect, hsuffix⟩ := Classical.not_imp.1 hs
    exact ⟨s, heffect, List.infix_iff_suffix_prefix.2
      ⟨_, Classical.not_not.1 hsuffix, List.take_prefix (n + 1) typed⟩⟩
  · rintro ⟨s, heffect, hinfix⟩
    obtain ⟨part, hsuffix, hprefix⟩ := List.infix_iff_suffix_prefix.1 hinfix
    obtain ⟨n, hn⟩ : ∃ n, part.length = n + 1 := by
      refine Nat.exists_eq_add_one.2 (Nat.lt_of_lt_of_le ?_ hsuffix.length_le)
      exact List.length_pos_iff.2 (h.of_inEffect heffect).1
    have htake : part = typed.take (n + 1) := hn ▸ List.prefix_iff_eq_take.1 hprefix
    refine ⟨n, Nat.lt_of_lt_of_le (hn ▸ Nat.lt_succ_self n) hprefix.length_le, fun hnone => ?_⟩
    exact h.matchEnd?_eq_none_iff.1 hnone s heffect (htake ▸ hsuffix)

/-- How a shortcut gets in the way of another one, when the trigger of that one is typed. -/
inductive Hinders (table : ShortcutTable) (s t : Shortcut) : Prop where
  /-- The trigger contains another one that is complete before the last character. -/
  | tooEarly (hs : table.InEffect s) (h : s.trigger.toList <:+: t.trigger.toList.dropLast)
  /-- The trigger is built-in and ends with a configured one. -/
  | overridden (hs : s.IsLast table.configured) (ht : ¬t.IsLast table.configured)
      (h : s.trigger.toList <:+ t.trigger.toList)

/-- Among the built-in shortcuts, one is out of reach: its trigger starts with another one. -/
theorem exists_hinders_builtIn_iff (ht : t ∈ Shortcut.builtIn) :
    (∃ s, Hinders ⟨[], false⟩ s t) ↔ t.trigger = "<=>" := by
  have hcontains : ∀ t ∈ Shortcut.builtIn, (∃ s ∈ Shortcut.builtIn,
      s.trigger.toList <:+: t.trigger.toList.dropLast) ↔ t.trigger = "<=>" := by decide +kernel
  have hnone (s : Shortcut) : ¬s.IsLast [] := fun hs => List.not_mem_nil hs.mem
  rw [← hcontains t ht]
  constructor
  · rintro ⟨s, ⟨hlast | ⟨-, hs, -⟩, hinfix⟩ | ⟨hlast, -, -⟩⟩
    · exact absurd hlast (hnone s)
    · exact ⟨s, hs, hinfix⟩
    · exact absurd hlast (hnone s)
  · rintro ⟨s, hs, hinfix⟩
    exact ⟨s, .tooEarly (.inr ⟨rfl, hs, nofun⟩) hinfix⟩

end ShortcutTable

end FormulaEditor

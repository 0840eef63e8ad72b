import FormulaEditor.Proofs.Latex.Identities
import FormulaEditor.Proofs.Latex.Readable

/-!
# Fragments that can be read back

What is read from a fragment can be read back, as long as no command in it lacks its arguments, starts
text, or begins an environment without a name. A command that takes arguments may come first, if the
arguments follow, each in braces.
-/

namespace FormulaEditor

open Atom (ConsistsOf Items)

namespace Latex

/-! ## Labels -/

variable {kind : Kind} {glyph : Option Char} {value name : String} {m : Meaning}

/-- Atoms of the kind have a look: neither text, nor a command being typed, nor what only gives a
formula its structure. -/
def hasLook : Kind → Bool
  | .fraction | .radical | .accent | .font => true
  | kind => kind.isSpelled

theorem hasLook_of_look? (h : look? value.toList = some (kind, glyph)) : hasLook kind = true := by
  rcases look?_cases h with ⟨name, m, -, hf, hm⟩ | ⟨-, -, -, -, rfl, -⟩ | ⟨c, -, -, -, -, rfl, -⟩
  · cases ha : m.action <;> simp only [ha, Action.look?, Option.some.injEq, Prod.mk.injEq,
      reduceCtorEq] at hm
    case symbol k glyph =>
      have hspelled := (Vocabulary.isSpelled_of_symbol hf ha).1
      rw [hm.1] at hspelled
      unfold hasLook
      split <;> first | rfl | exact hspelled
    all_goals
      rw [← hm.1]
      rfl
  · rfl
  · unfold Reader.newMathChar Reader.charKind
    repeat' split
    all_goals rfl

theorem isItem_of_hasLook (h : hasLook kind = true) : kind.isItem = true := by
  cases kind <;> first | rfl | cases h

end Latex

open Latex

theorem Label.unmarked_readable : Label.Unmarked Label.Readable where
  of_bare_eq h hl := by
    obtain ⟨hk, hv, hg⟩ := Atom.bare_label_iff.1 h
    unfold Label.Readable Label.isReadable at hl ⊢
    rw [← hk, ← hv, ← hg]
    exact hl
  placeholder _ := rfl

theorem Label.readable_of_look? {l : Label} {value : String} (hv : l.value = some value)
    (h : look? value.toList = some (l.kind, l.glyph)) : l.Readable := by
  have hlook := hasLook_of_look? h
  unfold Label.Readable Label.isReadable
  split <;> simp_all [hasLook, Kind.isSpelled]

theorem Label.lasting_readable : Label.Lasting Label.Readable :=
  Label.unmarked_readable.toLasting

/-- Neither text nor a command being typed can be read back. -/
theorem Label.Readable.kind_ne {l : Label} (h : l.Readable) : l.kind ≠ .text ∧ l.kind ≠ .command := by
  have hspelled (hk : l.kind = .text ∨ l.kind = .command) : False := by
    obtain ⟨value, hv, hlook⟩ : ∃ value, l.value = some value ∧
        look? value.toList = some (l.kind, l.glyph) := by
      unfold Label.Readable Label.isReadable at h
      rcases hk with hk | hk <;> simpa [hk, Option.bind_eq_some_iff] using h
    have hall := hasLook_of_look? hlook
    rcases hk with hk | hk <;> rw [hk] at hall <;> cases hall
  exact ⟨fun hk => hspelled (.inl hk), fun hk => hspelled (.inr hk)⟩

namespace Latex

/-- An item that can be read back. -/
def IsReadableItem (a : Atom) : Prop :=
  a.kind.isItem = true ∧ a.ConsistsOf Label.Readable

variable {kind : Kind} {glyph : Option Char} {value name : String} {m : Meaning}
  {args contents : List (List Atom)} {index : Option (List Atom)}

/-! ## Atoms -/

theorem isReadableItem_leaf (h : look? value.toList = some (kind, glyph)) (n : Nat) :
    IsReadableItem (Atom.leaf n kind (some value) glyph) :=
  ⟨isItem_of_hasLook (hasLook_of_look? h),
    Atom.consistsOf_leaf n kind (some value) glyph (Label.readable_of_look? rfl h)⟩

theorem look?_command (name : String) :
    look? (Vocabulary.command name).toList = commandLook? name := by
  rw [Writer.toList_command]
  exact congrArg commandLook? String.ofList_toList

theorem look?_of_find? (h : Vocabulary.find? name = some m) :
    look? (Vocabulary.command name).toList = m.action.look? := by
  rw [look?_command, commandLook?, h]

theorem isReadableItem_newMathChar {c : Char} (hm : isMathChar c = true) (hl : isLiteral c = true)
    (hq : c ≠ Text.Quoted.singleQuote) (n : Nat) : IsReadableItem (Reader.newMathChar c n).1 := by
  have hlook : look? (String.singleton c).toList =
      some ((Reader.newMathChar c 0).1.kind, (Reader.newMathChar c 0).1.glyph) := by
    have hbackslash : c ≠ '\\' := by
      rintro rfl
      cases hl
    rw [String.toList_singleton]
    unfold look? charLook?
    split
    · rename_i heq
      exact absurd (List.cons_eq_cons.1 heq).1 hbackslash
    · rename_i d _ heq
      rw [← (List.cons_eq_cons.1 heq).1]
      simp [hm, hl, hq]
    · rename_i hno
      exact absurd rfl (hno c)
  have hmade : (Reader.newMathChar c n).1 = Atom.leaf n (Reader.newMathChar c 0).1.kind
      (some (String.singleton c)) (Reader.newMathChar c 0).1.glyph := by
    unfold Reader.newMathChar
    rw [if_neg hq]
    split
    · rename_i htilde
      rw [htilde]
      rfl
    · rfl
  rw [hmade]
  exact isReadableItem_leaf hlook n

theorem isReadableItem_unknown (hf : Vocabulary.find? name = none)
    (hn : isProperName name.toList = true) (n : Nat) :
    IsReadableItem (Reader.newUnknownCommand (Vocabulary.command name) n).1 := by
  have hlook : look? (Vocabulary.command name).toList = some (.unknownCommand, none) := by
    rw [look?_command, commandLook?, hf]
    simp [hn]
  obtain ⟨hk, hleaf⟩ := isReadableItem_leaf hlook n
  exact ⟨hk, hleaf.of_bare_eq Label.unmarked_readable (Atom.bare_markError _).symm⟩

theorem isReadableItem_newWithArguments (hf : Vocabulary.find? name = some m)
    (ht : m.action.takesArguments = true) (htext : m.action ≠ .text)
    (hc : ∀ content ∈ contents, Items Label.Readable content)
    (hi : ∀ content, index = some content → Items Label.Readable content) (n : Nat) :
    IsReadableItem
      (Reader.newWithArguments m.action (Vocabulary.command name) contents index n).1 := by
  have hP := Label.lasting_readable
  have harg (i : Nat) : Items Label.Readable (contents.getD i []) := forall_getD hc i
  have hlook := look?_of_find? hf
  have hlabel (kind : Kind) (glyph : Option Char) (h : m.action.look? = some (kind, glyph))
      (n : Nat) : Label.Readable ⟨n, kind, some (Vocabulary.command name), glyph, Marks.none⟩ :=
    Label.readable_of_look? rfl (hlook.trans h)
  cases ha : m.action with
  | fraction =>
      rw [ha] at hlabel
      exact ⟨rfl, Atom.consistsOf_newFraction hP (hlabel _ _ rfl) (harg 0) (harg 1) n⟩
  | radical =>
      rw [ha, Vocabulary.name_of_radical hf ha] at hlabel
      exact ⟨rfl, Atom.consistsOf_newRadical hP (hlabel _ _ rfl) (harg 0) hi n⟩
  | accent glyph =>
      rw [ha] at hlabel
      refine ⟨rfl, (Atom.consistsOf_iff _).2 ⟨hlabel _ _ rfl _, fun slot atoms hb => ?_⟩⟩
      cases slot <;> cases hb
      exact (Atom.items_filled hP (harg 0) n).fits rfl
  | font =>
      rw [ha] at hlabel
      exact ⟨rfl, Atom.consistsOf_newWrapper_items hP rfl rfl (hlabel _ _ rfl) (harg 0) n⟩
  | text => exact absurd ha htext
  | _ =>
      rw [ha] at ht
      cases ht

theorem isReadableItem_group {atoms : List Atom} (h : Items Label.Readable atoms) (n : Nat) :
    IsReadableItem (Atom.newWrapper .group none atoms n).1 := by
  have hl (n : Nat) : Label.Readable ⟨n, .group, none, none, Marks.none⟩ := rfl
  exact ⟨rfl, Atom.consistsOf_newWrapper_items Label.lasting_readable rfl rfl hl h n⟩

theorem isReadableItem_newArray {rows : List (List (List Atom))}
    (hn : Vocabulary.isArrayEnvironment name = true) (hne : rows ≠ []) (hr : Rows IsReadableItem rows)
    (n : Nat) : IsReadableItem (Reader.newArray name rows n).1 := by
  have hpart (kind : Kind) (hk : kind = .row ∨ kind = .cell) (n : Nat) :
      Label.Readable ⟨n, kind, none, none, Marks.none⟩ := by
    rcases hk with rfl | rfl <;> rfl
  have hlabel (n : Nat) : Label.Readable ⟨n, .array, some name, none, Marks.none⟩ := by
    unfold Label.Readable Label.isReadable
    simpa using hn
  have hmade {α : Type} {f : α → Minting Atom} {as : List α} (hne : as ≠ []) (n : Nat) :
      (as.mapM f n).1 ≠ [] := by
    rw [← List.length_pos_iff, Minting.length_mapM]
    exact List.length_pos_iff.2 hne
  have hcell (content : List Atom) (h : Items Label.Readable content) (n : Nat) :
      (newCell content n).1.ConsistsOf Label.Readable :=
    Atom.consistsOf_newWrapper_items Label.lasting_readable rfl rfl (hpart .cell (.inr rfl)) h n
  have hrow (cells : List (List Atom)) (hmem : cells ∈ rows) (n : Nat) :
      (newRow cells n).1.ConsistsOf Label.Readable := by
    obtain ⟨hcells, hcontent⟩ := hr cells hmem
    exact Atom.consistsOf_newWrapper_grid rfl rfl (hpart .row (.inl rfl)) (hmade hcells n)
      (Minting.forall_mapM (fun content hc => hcell content (hcontent content hc)) n) _
  exact ⟨rfl, Atom.consistsOf_newWrapper_grid rfl rfl hlabel (hmade hne n)
    (Minting.forall_mapM hrow n) _⟩

/-! ## Tokens -/

/-- Whether a command has no meaning, or one that does not need anything to follow the command. -/
def standsAlone (name : String) : Bool :=
  (Vocabulary.find? name).all fun m => !m.action.takesArguments && m.action != .beginEnvironment

theorem standsAlone_iff (name : String) : standsAlone name = true ↔ ∀ m, Vocabulary.find? name = some m →
    m.action.takesArguments = false ∧ m.action ≠ .beginEnvironment := by
  simp [standsAlone, Option.all_eq_true]

/-- Whether only what can be read back is made from a token, whatever follows it. -/
def Token.isKept : Token → Bool
  | char c => isMathChar c && isLiteral c
  | control name => isProperName name.toList && standsAlone name
  | alignment => false
  | endOfInput | groupBegin | groupEnd | superscript | subscript | argument _ => true

theorem Token.isKept_control (h : (control name).isKept = true) :
    isProperName name.toList = true ∧ ∀ m, Vocabulary.find? name = some m →
      m.action.takesArguments = false ∧ m.action ≠ .beginEnvironment := by
  rw [isKept, Bool.and_eq_true, standsAlone_iff] at h
  exact h

/-- Reading in math what can be kept gives items that can be read back. -/
theorem readingClosed_isReadableItem (ha : ∀ atoms ∈ args, Items Label.Readable atoms) :
    ReadingClosed args False (fun t => t.isKept = true) fun mode a => mode = .math → IsReadableItem a
    where
  char n ht hq _ := by
    simp only [Token.isKept, Bool.and_eq_true] at ht
    exact isReadableItem_newMathChar ht.1 ht.2 hq n
  textChar n _ := nofun
  prime mode n _ := isReadableItem_leaf (look?_of_find? Vocabulary.find?_prime) n
  placeholder mode n _ := Atom.items_placeholder Label.lasting_readable n _ List.mem_cons_self
  group n h hm := isReadableItem_group (fun a ha => h a ha hm) n
  body {mode a} h hbare b hb hm := by
    have hkind : a.kind = .group := by simp_all [Atom.isBareGroup]
    exact forall_mem_body (fun slot atoms hs => (h hm).2.items hs (by rw [hkind]; rfl)) b hb
  script {mode a slot content} h hk hs hne hc hm := by
    have hitems : Items Label.Readable content := fun b hb => hc b hb hm
    exact ⟨(h hm).1, (h hm).2.putBranch (hitems.fits (Atom.isGridBody_of_isScript _ hs))⟩
  superscript h hsup b hb hm := (h hm).2.items hsup (Atom.isGridBody_of_isScript _ rfl) b hb
  argument mode hi a hmem _ := ha _ (List.mem_of_getElem? hi) a hmem
  copy mode n hi a hmem _ := (ha _ (List.mem_of_getElem? hi)).of_map_bare_eq Label.unmarked_readable
    (Reader.bares_relabelList _ n).symm a hmem
  alignment mode n _ ht := nomatch ht
  duplicate mode n _ _ := by
    obtain ⟨hk, hp⟩ := Atom.items_placeholder Label.lasting_readable n _ List.mem_cons_self
    exact ⟨hk, hp.of_bare_eq Label.unmarked_readable (Atom.bare_markError _).symm⟩
  unknown {name} mode n _ ht hmay hm := by
    obtain ⟨hn, hplain⟩ := Token.isKept_control ht
    cases hf : Vocabulary.find? name with
    | none => exact isReadableItem_unknown hf hn n
    | some m =>
        obtain ⟨htakes, hbegin⟩ := hplain m hf
        rcases hmay m hm hf with h | h
        · rw [htakes] at h
          cases h
        · exact absurd h hbegin
  symbol mode n _ hf ha _ := isReadableItem_leaf ((look?_of_find? hf).trans (by rw [ha]; rfl)) n
  function n _ hf ha _ := isReadableItem_leaf ((look?_of_find? hf).trans (by rw [ha]; rfl)) n
  space mode n _ hf ha _ := isReadableItem_leaf ((look?_of_find? hf).trans (by rw [ha]; rfl)) n
  array n hn hne hr _ := isReadableItem_newArray hn hne
    (fun cells hc => ⟨(hr cells hc).1, fun content hcontent a ha => (hr cells hc).2 content hcontent a ha rfl⟩) n
  withArguments {name m contents index} n ht hf htakes _ _ _ _ := by
    have hnot := ((Token.isKept_control ht).2 m hf).1
    rw [htakes] at hnot
    cases hnot

/-! ## Arguments in braces -/

/-- Whether a token is an item of its own. -/
def Token.isSingle : Token → Bool
  | char c => c != Text.Quoted.singleQuote
  | argument _ => true
  | _ => false

/-- Whether tokens start with a number of arguments, each a single token in braces, and what follows
them can be kept. -/
def suppliesArguments : Nat → List Token → Bool
  | 0, ts => ts.all Token.isKept
  | n + 1, .groupBegin :: t :: .groupEnd :: ts =>
      t.isSingle && t.isKept && suppliesArguments n ts
  | _ + 1, _ => false

theorem suppliesArguments_succ {n : Nat} {ts : List Token} (h : suppliesArguments (n + 1) ts = true) :
    ∃ t rest, ts = .groupBegin :: t :: .groupEnd :: rest ∧ t.isSingle = true ∧ t.isKept = true ∧
      suppliesArguments n rest = true := by
  unfold suppliesArguments at h
  split at h
  · rename_i heq
    cases heq
  · rename_i t rest hn
    cases hn
    simp only [Bool.and_eq_true] at h
    exact ⟨t, rest, rfl, h.1.1, h.1.2, h.2⟩
  · cases h

theorem all_isKept_of_suppliesArguments {n : Nat} {ts : List Token}
    (h : suppliesArguments n ts = true) : ts.all Token.isKept = true := by
  induction n generalizing ts with
  | zero => exact h
  | succ n ih =>
      obtain ⟨t, rest, rfl, -, ht, hrest⟩ := suppliesArguments_succ h
      rw [List.all_cons, List.all_cons, List.all_cons, ht, ih hrest]
      rfl

namespace Reader

variable {s : Reader} {t : Token} {ts k : List Token} {n : Nat}

theorem rest_substitute (args : List (List Atom)) (ref : ArgumentRef) (s : Reader) :
    (substitute args ref s).2.rest = s.rest := by
  have hindex (i : Nat) : (substitute args (.index i) s).2.rest = s.rest := by
    rw [substitute_index]
    split
    · rfl
    · split <;> rfl
  cases ref with
  | index i => exact hindex i
  | implicit => exact hindex 0
  | placeholder => rfl

theorem ahead_readItem_single (args : List (List Atom)) (ht : t.isSingle = true) (h : s.ahead = t :: ts) :
    (readItem args .math [] s).2.ahead = ts := by
  cases t with
  | char c =>
      rw [readItem_char h (by simpa [Token.isSingle] using ht)]
      exact ahead_skip h
  | argument ref =>
      obtain ⟨rest, used, problems, supply⟩ := s
      obtain ⟨u, rest, rfl, hu, hts⟩ := List.map_eq_cons_iff.1 h
      rw [readItem.eq_def]
      simp only [hu]
      rw [ahead, rest_substitute]
      exact hts
  | _ => cases ht

theorem readArgument_single (args : List (List Atom)) (ht : t.isSingle = true)
    (h : s.ahead = .groupBegin :: t :: .groupEnd :: k) :
    ∃ content s', readArgument args .math s = (some content, s') ∧ s'.ahead = k := by
  have hstop : Stop.group.endsAt t = false := by
    cases t <;> first | rfl | cases ht
  have hnext := ahead_skip h
  have hitem := ahead_readItem_single args ht hnext
  have hitems : readItems args .group .math [] s.skip =
      ((readItem args .math [] s.skip).1.reverse, (readItem args .math [] s.skip).2) := by
    rw [readItems_step hnext hstop rfl (Nat.le_of_eq (congrArg List.length hitem)),
      readItems_stop hitem rfl]
  exact ⟨(readItem args .math [] s.skip).1.reverse, _,
    readArgument_groupBegin h (readGroup_eq hitems hitem), ahead_skip hitem⟩

/-- Arguments that are supplied are found. -/
theorem readArguments_supplied (args : List (List Atom)) (h : suppliesArguments n s.ahead = true) :
    ∃ contents s', readArguments args .math n s = (.ok contents, s') := by
  induction n generalizing s with
  | zero =>
      refine ⟨[], s, ?_⟩
      rw [readArguments.eq_def]
  | succ n ih =>
      obtain ⟨t, ts, hahead, ht, -, hsupplied⟩ := suppliesArguments_succ h
      obtain ⟨content, s₁, hread, hrest⟩ := readArgument_single args ht hahead
      obtain ⟨contents, s', hreads⟩ := ih (s := s₁) (by rw [hrest]; exact hsupplied)
      refine ⟨content :: contents, s', readArguments_succ hread ?_ hreads⟩
      rw [hrest, hahead]
      simp only [List.length_cons]
      omega

/-! ## A command at the start -/

theorem forall_isKept (h : s.ahead.all Token.isKept = true) : ∀ t ∈ s.rest, t.token.isKept = true :=
  fun _ ht => List.all_eq_true.1 h _ (List.mem_map_of_mem ht)

theorem readIndex_groupBegin (h : s.ahead = .groupBegin :: ts) : readIndex args s = (none, s) := by
  obtain ⟨rest, used, problems, supply⟩ := s
  obtain ⟨u, rest, rfl, hu, -⟩ := List.map_eq_cons_iff.1 h
  rw [readIndex.eq_def]
  simp [hu]

/-- A command at the start is read, and then what follows it. -/
theorem readItems_control (args : List (List Atom)) (mode : ReadingMode) (done : List Atom) {stop : Stop}
    (h : s.ahead = .control name :: ts) (hstop : stop.endsAt (.control name) = false) :
    ∃ span, readItems args stop mode done s = readItems args stop mode
      (readCommand args name span mode done s.skip).1
      ((readCommand args name span mode done s.skip).2.capped ts.length) := by
  obtain ⟨span, hitem⟩ : ∃ span, readItem args mode done s = readCommand args name span mode done s.skip :=
    readItem_control h
  refine ⟨span, ?_⟩
  rw [← hitem]
  obtain ⟨rest, used, problems, supply⟩ := s
  obtain ⟨u, rest, rfl, hu, rfl⟩ := List.map_eq_cons_iff.1 h
  rw [readItems.eq_def, List.length_map]
  simp only [hu, hstop, Bool.false_eq_true, if_false]

/-- A command whose arguments are supplied makes an item that can be read back. -/
theorem readCommand_supplied (ha : ∀ atoms ∈ args, Items Label.Readable atoms)
    (hf : Vocabulary.find? name = some m) (ht : m.action.takesArguments = true)
    (htext : m.action ≠ .text) (hs : suppliesArguments m.arity s.ahead = true) (span : Span) :
    ∀ a ∈ (readCommand args name span .math [] s).1, IsReadableItem a := by
  have hc := readingClosed_isReadableItem ha
  have hkept := forall_isKept (all_isKept_of_suppliesArguments hs)
  have hmode : m.action.argumentMode = .math := if_neg htext
  have hindex : (if m.action = .radical then readIndex args s else (none, s)) = (none, s) := by
    obtain ⟨n, hn⟩ : ∃ n, m.arity = n + 1 := by
      rw [Vocabulary.arity_of_takesArguments hf ht]
      split <;> exact ⟨_, rfl⟩
    obtain ⟨t, rest, hahead, -⟩ := suppliesArguments_succ (hn ▸ hs)
    rw [readIndex_groupBegin hahead, ite_self]
  obtain ⟨contents, s', hcontents⟩ := readArguments_supplied args hs
  have hall := (reads_readArguments hc .math m.arity s hkept).2 False.elim contents (by rw [hcontents])
  rw [readCommand_withArguments hf ht hindex (Nat.le_refl _) (hmode ▸ hcontents)]
  intro a hmem
  rw [List.mem_singleton.1 hmem]
  exact isReadableItem_newWithArguments hf ht htext
    (fun content hc a ha => hall.2 content hc a ha rfl) (fun content h => by cases h) _

/-- An environment whose name is given makes an item that can be read back, known or not. -/
theorem readCommand_named (ha : ∀ atoms ∈ args, Items Label.Readable atoms)
    (hf : Vocabulary.find? name = some m) (hm : m.action = .beginEnvironment)
    (hn : s.peek = .groupBegin) (hk : ∀ t ∈ s.rest, t.token.isKept = true) (span : Span) :
    ∀ a ∈ (readCommand args name span .math [] s).1, IsReadableItem a := by
  have hc := readingClosed_isReadableItem ha
  obtain ⟨environment, s', hname⟩ : ∃ environment s', environmentName s = (some environment, s') := by
    unfold environmentName
    rw [hn]
    exact ⟨_, _, rfl⟩
  have hleads : s.LeadsTo s' := by
    have hl := leadsTo_environmentName (LeadsTo.refl s)
    rwa [hname] at hl
  have hrows (s₀ : Reader) (hl : s.LeadsTo s₀) :
      Rows IsReadableItem (readRows args environment span [] [] s₀).1 ∧
        (readRows args environment span [] [] s₀).1 ≠ [] := by
    have hread := reads_readRows hc environment span [] [] s₀
      (hl.forall_tokens (T := fun t => t.isKept = true) hk)
    obtain ⟨hrows, hne⟩ := hread.2 False.elim (by simp) (by simp [Rows])
    exact ⟨fun cells hcells => ⟨(hrows cells hcells).1, fun content hcontent a hmem =>
      (hrows cells hcells).2 content hcontent a hmem rfl⟩, hne⟩
  rw [readCommand.eq_def]
  simp only [filter_find? hf (.inl rfl), hm, hname]
  split
  · rename_i hknown
    obtain ⟨hall, hne⟩ := hrows _ (hleads.capped s.rest.length)
    intro a hmem
    rw [List.mem_singleton.1 hmem]
    exact isReadableItem_newArray hknown hne hall _
  · obtain ⟨hall, -⟩ := hrows _ ((hleads.report span (.unknownEnvironment environment)).capped
      s.rest.length)
    intro a hmem
    rw [List.mem_singleton.1 hmem]
    refine isReadableItem_group (fun b hb => ?_) _
    obtain ⟨content, hcontent, hb⟩ := List.mem_flatten.1 hb
    obtain ⟨cells, hcells, hcontent⟩ := List.mem_flatten.1 hcontent
    exact (hall cells hcells).2 content hcontent b hb

end Reader

/-! ## Whole fragments -/

/-- Whether tokens start with a command that takes arguments or begins an environment, and what it
needs follows. -/
def suppliesNeeds : List Token → Bool
  | .control name :: ts => (Vocabulary.find? name).any fun m =>
      m.action.takesArguments && m.action != .text && suppliesArguments m.arity ts ||
        m.action == .beginEnvironment && ts.head? == some .groupBegin && ts.all Token.isKept
  | _ => false

/-- Whether only what can be read back is made from tokens: all of them can be kept, or the first is a
command that is supplied with what it needs. -/
def isKeepable (ts : List Token) : Bool :=
  ts.all Token.isKept || suppliesNeeds ts

section

open Reader

variable {s : Reader} {ts : List Token}

theorem exists_of_suppliesNeeds (h : suppliesNeeds ts = true) :
    ∃ name m rest, ts = .control name :: rest ∧ Vocabulary.find? name = some m ∧
      rest.all Token.isKept = true ∧
        (m.action.takesArguments = true ∧ m.action ≠ .text ∧ suppliesArguments m.arity rest = true ∨
          m.action = .beginEnvironment ∧ rest.head? = some .groupBegin) := by
  unfold suppliesNeeds at h
  split at h
  · rename_i name rest
    obtain ⟨m, hf, hm⟩ := (Option.any_eq_true _ _).1 h
    simp only [Bool.or_eq_true, Bool.and_eq_true, bne_iff_ne, beq_iff_eq] at hm
    rcases hm with ⟨⟨ht, htext⟩, hs⟩ | ⟨⟨hb, hhead⟩, hall⟩
    · exact ⟨name, m, rest, rfl, hf, all_isKept_of_suppliesArguments hs, .inl ⟨ht, htext, hs⟩⟩
    · exact ⟨name, m, rest, rfl, hf, hall, .inr ⟨hb, hhead⟩⟩
  · cases h

theorem isReadableItem_readCommand (ha : ∀ atoms ∈ args, Items Label.Readable atoms)
    (hf : Vocabulary.find? name = some m) (hk : s.ahead.all Token.isKept = true)
    (h : m.action.takesArguments = true ∧ m.action ≠ .text ∧ suppliesArguments m.arity s.ahead = true ∨
      m.action = .beginEnvironment ∧ s.ahead.head? = some .groupBegin) (span : Span) :
    ∀ a ∈ (readCommand args name span .math [] s).1, IsReadableItem a := by
  rcases h with ⟨ht, htext, hs⟩ | ⟨hb, hs⟩
  · exact readCommand_supplied ha hf ht htext hs span
  · obtain ⟨rest, hahead⟩ := List.head?_eq_some_iff.1 hs
    exact readCommand_named ha hf hb (peek_of_ahead hahead) (forall_isKept hk) span

/-- What is read from a fragment that can be kept can be read back. -/
theorem items_parse (ha : ∀ atoms ∈ args, Items Label.Readable atoms) {tokens : List SpannedToken}
    (hk : isKeepable (tokens.map SpannedToken.token) = true) (n : Nat) :
    Items Label.Readable (parse tokens .math args n).1.atoms := by
  have hc := readingClosed_isReadableItem ha
  rcases Bool.or_eq_true_iff.1 hk with hall | hsupplied
  · exact fun a hmem => forall_parse hc (forall_isKept (s := start tokens n) hall) .math n False.elim a
      hmem rfl
  · obtain ⟨name, m, rest, htokens, hf, hrest, hneeds⟩ := exists_of_suppliesNeeds hsupplied
    have hahead : (start tokens n).ahead = .control name :: rest := htokens
    have hskip := ahead_skip hahead
    rw [← hskip] at hrest hneeds
    obtain ⟨span, hread⟩ := readItems_control args .math [] hahead
      (rfl : Stop.endsAt .endOfInput _ = false)
    have hleads := leadsTo_readCommand args name span .math [] (start tokens n).skip
    have hfirst := isReadableItem_readCommand ha hf hrest hneeds span
    have hkept := (hleads.capped rest.length).forall_tokens (T := fun t => t.isKept = true)
      (forall_isKept hrest)
    have hitems := reads_readItems hc .endOfInput .math
      (readCommand args name span .math [] (start tokens n).skip).1 _ hkept
    intro a hmem
    refine hitems.atoms False.elim (fun b hb _ => hfirst b hb) a ?_ rfl
    rw [← hread]
    exact hmem

end

/-! ## Sources -/

/-- Whether only what can be read back is made from a source. -/
def isKeepableSource (source : String) : Bool :=
  isKeepable ((tokenize source).tokens.map SpannedToken.token)

theorem items_parseFragment (ha : ∀ atoms ∈ args, Items Label.Readable atoms) {source : String}
    (hk : isKeepableSource source = true) (n : Nat) :
    Items Label.Readable (parseFragment source .math args n).1.atoms :=
  items_parse ha hk n

/-- No letter is a character that is not read as itself. -/
theorem ne_of_isLetter {c : Char} (h : Text.isLetter c = true) :
    c.toNat ≠ 0 ∧ ∀ d ∈ ['%', '{', '}', '\\', '#', '^', '_', '&', '$'], c ≠ d := by
  have hne (d : Char) (hd : Text.isLetter d = false) : c ≠ d := by
    rintro rfl
    rw [hd] at h
    cases h
  have hall : ['%', '{', '}', '\\', '#', '^', '_', '&', '$'].all (!Text.isLetter ·) = true := by
    decide
  refine ⟨fun hzero => hne (Char.ofNat 0) (by decide) ?_, fun d hd =>
    hne d (by simpa using List.all_eq_true.1 hall d hd)⟩
  rw [← hzero, Char.ofNat_toNat]

theorem isKept_char {c : Char} (hb : Text.isBlank c = false) (hz : c.toNat ≠ 0)
    (hne : ∀ d ∈ ['%', '{', '}', '\\', '#', '^', '_', '&', '$'], c ≠ d) :
    (Token.char c).isKept = true := by
  simp only [List.forall_mem_cons] at hne
  obtain ⟨h₁, h₂, h₃, h₄, h₅, h₆, h₇, h₈, h₉, -⟩ := hne
  simp [Token.isKept, isMathChar, isLiteral, Lexer.Place.keepsChar, Lexer.Place.start,
    Lexer.Mode.inText, Writer.special, hb, hz, h₁, h₂, h₃, h₄, h₅, h₆, h₇, h₈, h₉]

theorem isKept_char_of_isLetter {c : Char} (h : Text.isLetter c = true) :
    (Token.char c).isKept = true :=
  isKept_char (Text.isBlank_eq_false_of_isLetter h) (ne_of_isLetter h).1 (ne_of_isLetter h).2

/-- Outside of text letters are read one by one. -/
theorem all_isKept_read {letters : List Char} (h : ∀ c ∈ letters, Text.isLetter c = true)
    (offset : Nat) {mode : Lexer.Mode} (hm : mode.inText = false) :
    ((Lexer.read letters offset mode []).tokens.map SpannedToken.token).all Token.isKept = true := by
  induction letters generalizing offset mode with
  | nil =>
      rw [Lexer.read_nil]
      rfl
  | cons c rest ih =>
      obtain ⟨hc, hrest⟩ := List.forall_mem_cons.1 h
      obtain ⟨hzero, hne⟩ := ne_of_isLetter hc
      simp only [List.forall_mem_cons] at hne
      obtain ⟨h₁, h₂, h₃, h₄, h₅, h₆, h₇, h₈, h₉, -⟩ := hne
      have htoken : Lexer.plainToken mode c = .char c := by
        unfold Lexer.plainToken
        simp [hm, h₆, h₇, h₈]
      have hmode : mode.afterToken.inText = false := by
        cases mode <;> first | rfl | cases hm
      rw [Lexer.read_plain (Text.isBlank_eq_false_of_isLetter hc) hzero
        (by simp [h₁, h₂, h₃, h₄, h₅]), htoken]
      simp only [Tokens.cons, List.map_cons, List.all_cons, isKept_char_of_isLetter hc, Bool.true_and]
      exact ih hrest _ hmode

theorem skipBlank_of_isLetter {letters : List Char} (h : ∀ c ∈ letters, Text.isLetter c = true) :
    (Lexer.skipBlank letters).2 = letters := by
  cases letters with
  | nil => rfl
  | cons c rest =>
      have hblank := Text.isBlank_eq_false_of_isLetter (h c List.mem_cons_self)
      exact List.dropWhile_cons_of_neg (by simp [hblank])

/-- A command takes arguments or begins an environment only if its name consists of letters. -/
theorem isLetter_of_takesArguments (hf : Vocabulary.find? name = some m)
    (h : m.action.takesArguments = true ∨ m.action = .beginEnvironment) :
    ∀ c ∈ name.toList, Text.isLetter c = true := by
  have hall : (Vocabulary.all.all fun entry =>
      !(entry.2.action.takesArguments || entry.2.action == .beginEnvironment) ||
        entry.1.toList.all Text.isLetter) = true := by decide +kernel
  have hentry := List.all_eq_true.1 hall _ (Vocabulary.mem_of_find? hf)
  have hneeds : (m.action.takesArguments || m.action == .beginEnvironment) = true := by
    simpa using h
  simp only [hneeds, Bool.not_true, Bool.false_or] at hentry
  exact List.all_eq_true.1 hentry

theorem isProperName_of_isLetter {c : Char} {letters : List Char} (hc : Text.isLetter c = true)
    (hl : ∀ d ∈ letters, Text.isLetter d = true) : isProperName (c :: letters) = true := by
  have hall : (c :: letters).all Text.isLetter = true :=
    List.all_eq_true.2 (List.forall_mem_cons.2 ⟨hc, hl⟩)
  simp [isProperName, hall]

/-- The name after a backslash ends before letters, or with them. -/
theorem readName_cons {c : Char} {letters : List Char} (hl : ∀ d ∈ letters, Text.isLetter d = true) :
    Lexer.readName (c :: letters) =
      if Text.isLetter c then (c :: letters, []) else ([c], letters) := by
  split
  · rename_i hc
    exact Writer.readName_of_isProperName (isProperName_of_isLetter hc hl)
  · rename_i hc
    simp [Lexer.readName, hc]

theorem isKeepable_of_standsAlone {ts : List Token} (hn : isProperName name.toList = true)
    (hf : standsAlone name = true) (hts : ts.all Token.isKept = true) :
    isKeepable (.control name :: ts) = true := by
  refine Bool.or_eq_true_iff.2 (.inl ?_)
  rw [List.all_cons, hts, Token.isKept, hn, hf]
  rfl

theorem standsAlone_of_not_isLetter (h : ¬∀ c ∈ name.toList, Text.isLetter c = true) :
    standsAlone name = true := by
  refine (standsAlone_iff name).2 fun m hf => ?_
  have hplain (hn : m.action.takesArguments = true ∨ m.action = .beginEnvironment) : False :=
    h (isLetter_of_takesArguments hf hn)
  exact ⟨Bool.eq_false_iff.2 fun ht => hplain (.inl ht), fun hb => hplain (.inr hb)⟩

/-- A command that stands alone is a name and, if that is no letter, the letters that follow it. -/
theorem isKeepableSource_command {c : Char} {letters : List Char}
    (hl : ∀ d ∈ letters, Text.isLetter d = true)
    (hf : standsAlone (String.ofList (c :: letters)) = true) :
    isKeepableSource (Vocabulary.command (String.ofList (c :: letters))) = true := by
  have hsource : (Vocabulary.command (String.ofList (c :: letters))).toList =
      '\\' :: c :: letters := by
    rw [Writer.toList_command, String.toList_ofList]
  have htext (name : String) : (Lexer.Mode.math.afterCommand name).inText = false := by
    unfold Lexer.Mode.afterCommand
    split <;> rfl
  have hone : isProperName [c] = true := by simp [isProperName]
  unfold isKeepableSource tokenize
  rw [hsource, Lexer.read_control, readName_cons hl]
  split
  · rename_i hc
    have hrest (offset : Nat) :=
      all_isKept_read (List.forall_mem_nil _) offset (htext (String.ofList (c :: letters)))
    refine isKeepable_of_standsAlone ?_ hf (hrest _)
    rw [String.toList_ofList]
    exact isProperName_of_isLetter hc hl
  · rename_i hc
    have hrest (offset : Nat) := all_isKept_read hl offset (htext (String.ofList [c]))
    rw [skipBlank_of_isLetter hl]
    refine isKeepable_of_standsAlone (by rwa [String.toList_ofList]) ?_ (hrest _)
    refine standsAlone_of_not_isLetter fun hall => hc (hall c ?_)
    rw [String.toList_ofList]
    exact List.mem_cons_self

end Latex

end FormulaEditor

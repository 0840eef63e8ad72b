import FormulaEditor.Proofs.Formula.Regular
import FormulaEditor.Proofs.Latex.Spelling

/-!
# What is written around an atom

The pieces of an atom stand at one place among those of the formula, and what is written around them
does not depend on them. There is one exception: an index of a radical that holds a lone group has
braces of its own, so whether the atom is such a group is seen around it. Where braces are left out
of account, any atom with the same value may take its place.
-/

namespace FormulaEditor

namespace Atom

/-- The atom with another one at the end of some steps. -/
def putAt (a : Atom) (steps : List Step) (b : Atom) : Atom :=
  (a.modifyAt? (fun _ => b) steps).getD a

theorem putAt_cons {a child owner : Atom} {s : Step} {rest : List Step} {atoms : List Atom} {i : Nat}
    (hb : a.branch s.slot = some atoms) (hi : s.index? = some i) (hc : atoms[i]? = some child)
    (hd : child.descend? rest = some owner) (b : Atom) :
    a.putAt (s :: rest) b = a.putBranch s.slot (some (atoms.set i (child.putAt rest b))) := by
  obtain ⟨c, hm⟩ := Option.isSome_iff_exists.1 (modifyAt?_isSome hd fun _ => b)
  rw [putAt, modifyAt?_cons hb hi hc, putAt, hm]
  rfl

end Atom

namespace Latex

namespace Writer

variable {a b owner child c : Atom} {slot : Slot} {atoms content : List Atom} {p : Piece → Bool}
  {steps : List Step} {i : Nat}

/-! ## One branch of an atom -/

/-- The pieces of a branch, with the marks that are there only if the branch is. -/
def writtenBranch (kind : Kind) (slot : Slot) (branch : Option (List Atom)) : List Piece :=
  match slot with
  | .superscript => scriptPieces '^' branch
  | .subscript => scriptPieces '_' branch
  | .index => indexPieces branch
  | .body => if kind = .array then arrayPieces branch else branchPieces branch
  | _ => branchPieces branch

/-- Each branch that an atom may have is written once. -/
theorem exists_pieces_putBranch (a : Atom) (h : a.kind.allowsSlot slot = true) :
    ∃ before after, ∀ branch, pieces (a.putBranch slot branch) =
      before ++ writtenBranch a.kind slot branch ++ after := by
  obtain ⟨⟨id, kind, value, glyph, marks⟩,
    ⟨body, sup, sub, numerator, denominator, index, radicand⟩⟩ := a
  let value' := (value.getD "").toList
  let scripts := scriptPieces '_' sub ++ scriptPieces '^' sup
  let without (b : Branches Atom) : Atom := .node ⟨id, kind, value, glyph, marks⟩ b
  cases slot with
  | superscript =>
      refine ⟨pieces (without ⟨body, none, sub, numerator, denominator, index, radicand⟩), [], ?_⟩
      intro branch
      simp [without, pieces, Atom.putBranch, Branches.set, writtenBranch, scriptPieces]
  | subscript =>
      refine ⟨pieces (without ⟨body, none, none, numerator, denominator, index, radicand⟩),
        scriptPieces '^' sup, ?_⟩
      intro branch
      simp [without, pieces, Atom.putBranch, Branches.set, writtenBranch, scriptPieces]
  | numerator =>
      obtain rfl : kind = .fraction := by cases kind <;> first | rfl | cases h
      refine ⟨[.word value', mark '{'], mark '}' :: braced (branchPieces denominator) ++ scripts, ?_⟩
      intro branch
      simp [pieces, Atom.putBranch, Branches.set, writtenBranch, braced, scripts, value']
  | denominator =>
      obtain rfl : kind = .fraction := by cases kind <;> first | rfl | cases h
      refine ⟨.word value' :: braced (branchPieces numerator) ++ [mark '{'], mark '}' :: scripts, ?_⟩
      intro branch
      simp [pieces, Atom.putBranch, Branches.set, writtenBranch, braced, scripts, value']
  | index =>
      obtain rfl : kind = .radical := by cases kind <;> first | rfl | cases h
      refine ⟨[.word Atom.radicalCommand.toList], braced (branchPieces radicand) ++ scripts, ?_⟩
      intro branch
      simp [pieces, Atom.putBranch, Branches.set, writtenBranch, scripts]
  | radicand =>
      obtain rfl : kind = .radical := by cases kind <;> first | rfl | cases h
      refine ⟨.word Atom.radicalCommand.toList :: indexPieces index ++ [mark '{'], mark '}' :: scripts, ?_⟩
      intro branch
      simp [pieces, Atom.putBranch, Branches.set, writtenBranch, braced, scripts]
  | body =>
      cases kind with
      | root | row | cell =>
          refine ⟨[], scripts, fun branch => ?_⟩
          simp [pieces, Atom.putBranch, Branches.set, writtenBranch, scripts, Atom.kind]
      | group =>
          refine ⟨[mark '{'], mark '}' :: scripts, fun branch => ?_⟩
          simp [pieces, Atom.putBranch, Branches.set, writtenBranch, braced, scripts, Atom.kind]
      | accent | font | text =>
          refine ⟨[.word value', mark '{'], mark '}' :: scripts, fun branch => ?_⟩
          simp [pieces, Atom.putBranch, Branches.set, writtenBranch, braced, scripts, value', Atom.kind]
      | array =>
          refine ⟨[environmentMark "\\begin" value'], environmentMark "\\end" value' :: scripts, ?_⟩
          intro branch
          simp [pieces, Atom.putBranch, Branches.set, writtenBranch, scripts, value', Atom.kind]
      | _ => cases h

/-! ## One atom of a branch -/

theorem listPieces_set (atoms : List Atom) (hi : i < atoms.length) (c : Atom) :
    listPieces (atoms.set i c) =
      listPieces (atoms.take i) ++ pieces c ++ listPieces (atoms.drop (i + 1)) := by
  rw [List.set_eq_take_append_cons_drop, if_pos hi, listPieces_append, listPieces,
    ← List.append_assoc]

theorem exists_cellsPieces_set (first : Bool) (cells : List Atom) (hi : i < cells.length) :
    ∃ before after, ∀ c, cellsPieces first (cells.set i c) = before ++ pieces c ++ after := by
  induction cells generalizing first i with
  | nil => cases hi
  | cons cell rest ih =>
      cases i with
      | zero => exact ⟨if first then [] else [mark '&'], cellsPieces false rest, fun c => rfl⟩
      | succ i =>
          obtain ⟨before, after, h⟩ := ih false (Nat.lt_of_succ_lt_succ hi)
          refine ⟨(if first then [] else [mark '&']) ++ pieces cell ++ before, after, fun c => ?_⟩
          rw [List.set_cons_succ, cellsPieces, h]
          simp only [List.append_assoc]

theorem rowsPieces_cons (first : Bool) (row : Atom) (rest : List Atom) :
    rowsPieces first (row :: rest) = (if first then [] else [.exact ['\\', '\\']]) ++
      rowPieces (row.branch .body) ++ rowsPieces false rest := by
  cases row
  rfl

theorem exists_rowsPieces_set (first : Bool) (rows : List Atom) (hi : i < rows.length) :
    ∃ before after, ∀ c : Atom, rowsPieces first (rows.set i c) =
      before ++ rowPieces (c.branch .body) ++ after := by
  induction rows generalizing first i with
  | nil => cases hi
  | cons row rest ih =>
      cases i with
      | zero =>
          refine ⟨if first then [] else [.exact ['\\', '\\']], rowsPieces false rest, fun c => ?_⟩
          rw [List.set_cons_zero, rowsPieces_cons]
      | succ i =>
          obtain ⟨before, after, h⟩ := ih false (Nat.lt_of_succ_lt_succ hi)
          refine ⟨(if first then [] else [.exact ['\\', '\\']]) ++ rowPieces (row.branch .body) ++
            before, after, fun c => ?_⟩
          rw [List.set_cons_succ, rowsPieces_cons, h]
          simp only [List.append_assoc]

/-- Whether braces are left out of account. -/
def IgnoresBraces (p : Piece → Bool) : Prop :=
  p (mark '{') = false ∧ p (mark '}') = false

/-- What can take the place of an atom without a change around it. -/
structure Matches (p : Piece → Bool) (a b : Atom) : Prop where
  kind_eq : b.kind = a.kind
  value_eq : b.value = a.value
  isBareGroup_eq : b.isBareGroup = a.isBareGroup ∨ IgnoresBraces p

theorem isBareGroup_putBranch_some (hb : a.branch slot = some atoms) (content : List Atom) :
    (a.putBranch slot (some content)).isBareGroup = a.isBareGroup := by
  have hsome (other : Slot) :
      ((a.putBranch slot (some content)).branch other).isSome = (a.branch other).isSome := by
    by_cases heq : other = slot
    · rw [heq, Atom.branch_putBranch_self, hb]
      rfl
    · rw [Atom.branch_putBranch_of_ne a heq]
  rw [Atom.isBareGroup, Atom.hasScripts, hsome, hsome, Atom.kind_putBranch]
  rfl

/-- Other content in a branch. -/
theorem matches_putBranch (p : Piece → Bool) (hb : a.branch slot = some atoms)
    (content : List Atom) : Matches p a (a.putBranch slot (some content)) :=
  ⟨rfl, rfl, .inl (isBareGroup_putBranch_some hb content)⟩

theorem any_set {α : Type} (f : α → Bool) {xs : List α} {x y : α} (hx : xs[i]? = some x)
    (h : f y = f x) : (xs.set i y).any f = xs.any f := by
  have hmap : (xs.set i y).map f = xs.map f := by
    have hmapped : (xs.map f)[i]? = some (f x) := by rw [List.getElem?_map, hx, Option.map_some]
    obtain ⟨_, hget⟩ := List.getElem?_eq_some_iff.1 hmapped
    rw [List.map_set, h, ← hget, List.set_getElem_self]
  rw [← Function.id_comp f, ← List.any_map, hmap, List.any_map]

theorem needsBraces_set (hc : atoms[i]? = some child) (hv : c.value = child.value)
    (hg : c.isBareGroup = child.isBareGroup) : needsBraces (atoms.set i c) = needsBraces atoms := by
  have hany := any_set (fun a : Atom => a.value == some "]") (y := c) hc (by rw [hv])
  unfold needsBraces
  rw [hany]
  match atoms, i, hc with
  | [a], 0, hc =>
      cases hc
      simp only [List.set_cons_zero, hg]
  | a :: b :: rest, 0, _ => rfl
  | a :: b :: rest, i + 1, _ =>
      cases hset : (b :: rest).set i c with
      | nil => simp at hset
      | cons d ds => simp only [List.set_cons_succ, hset]

theorem filter_braced (hp : IgnoresBraces p) (ps : List Piece) :
    (braced ps).filter p = ps.filter p := by
  simp [braced, List.filter_append, hp.1, hp.2]

/-! ## The place of an atom in a formula -/

/-- The pieces of what takes the place of `owner` stand at one place of what is written. -/
def HasPlace (p : Piece → Bool) (owner : Atom) (write : Atom → List Piece) : Prop :=
  ∃ before after, ∀ o, Matches p owner o → (write o).filter p = before ++ (pieces o).filter p ++ after

theorem hasPlace_pieces (p : Piece → Bool) (owner : Atom) : HasPlace p owner pieces :=
  ⟨[], [], fun o _ => by simp⟩

theorem HasPlace.within {write write' : Atom → List Piece} (h : HasPlace p owner write)
    (before after : List Piece) (he : ∀ o, Matches p owner o →
      (write' o).filter p = (before ++ write o ++ after).filter p) : HasPlace p owner write' := by
  obtain ⟨before', after', h⟩ := h
  refine ⟨before.filter p ++ before', after' ++ after.filter p, fun o ho => ?_⟩
  rw [he o ho, List.filter_append, List.filter_append, h o ho]
  simp only [List.append_assoc]

theorem HasPlace.indexPieces {part : Atom → Atom} (h : HasPlace p owner fun o => pieces (part o))
    (hc : atoms[i]? = some child) (hm : ∀ o, Matches p owner o → Matches p child (part o)) :
    HasPlace p owner fun o => indexPieces (some (atoms.set i (part o))) := by
  have hset := listPieces_set atoms (Atom.lt_length_of_getElem?_eq_some hc)
  by_cases hp : IgnoresBraces p
  · refine h.within (mark '[' :: listPieces (atoms.take i))
      (listPieces (atoms.drop (i + 1)) ++ [mark ']']) fun o _ => ?_
    have hcontent (needed : Bool) (ps : List Piece) :
        (if needed then braced ps else ps).filter p = ps.filter p := by
      cases needed
      · rfl
      · exact filter_braced hp ps
    simp only [Writer.indexPieces, List.cons_append, List.filter_cons, List.filter_append, hcontent,
      hset, List.append_assoc]
  · have hneeds (o : Atom) (ho : Matches p owner o) :
        needsBraces (atoms.set i (part o)) = needsBraces atoms :=
      needsBraces_set hc (hm o ho).value_eq ((hm o ho).isBareGroup_eq.resolve_right hp)
    cases hb : needsBraces atoms with
    | true =>
        refine h.within (mark '[' :: mark '{' :: listPieces (atoms.take i))
          (listPieces (atoms.drop (i + 1)) ++ [mark '}', mark ']']) fun o ho => ?_
        simp [Writer.indexPieces, hneeds o ho, hb, hset, braced]
    | false =>
        refine h.within (mark '[' :: listPieces (atoms.take i))
          (listPieces (atoms.drop (i + 1)) ++ [mark ']']) fun o ho => ?_
        simp [Writer.indexPieces, hneeds o ho, hb, hset]

/-- What has a place in an atom of a branch has one in the branch. -/
theorem HasPlace.writtenBranch {part : Atom → Atom} {kind : Kind}
    (h : HasPlace p owner fun o => pieces (part o))
    (hrow : child.kind = .row → HasPlace p owner fun o => rowPieces ((part o).branch .body))
    (hc : atoms[i]? = some child) (hm : ∀ o, Matches p owner o → Matches p child (part o))
    (ha : kind.admits slot child.kind = true) :
    HasPlace p owner fun o => writtenBranch kind slot (some (atoms.set i (part o))) := by
  have hlt := Atom.lt_length_of_getElem?_eq_some hc
  have hset := listPieces_set atoms hlt
  have hlist (before after : List Piece) :
      HasPlace p owner fun o => before ++ listPieces (atoms.set i (part o)) ++ after :=
    h.within (before ++ listPieces (atoms.take i)) (listPieces (atoms.drop (i + 1)) ++ after)
      fun o _ => by simp only [hset, List.append_assoc]
  have hplain : HasPlace p owner fun o => branchPieces (some (atoms.set i (part o))) :=
    (hlist [] []).within [] [] fun o _ => by simp [branchPieces]
  cases slot with
  | superscript =>
      exact (hlist [mark '^', mark '{'] [mark '}']).within [] [] fun o _ => by
        simp [Writer.writtenBranch, scriptPieces, braced]
  | subscript =>
      exact (hlist [mark '_', mark '{'] [mark '}']).within [] [] fun o _ => by
        simp [Writer.writtenBranch, scriptPieces, braced]
  | index => exact h.indexPieces hc hm
  | body =>
      by_cases hk : kind = .array
      · subst hk
        obtain ⟨before, after, hrows⟩ := exists_rowsPieces_set true atoms hlt
        refine (hrow (eq_of_beq ha)).within before after fun o _ => ?_
        simp only [Writer.writtenBranch, if_true, arrayPieces, hrows]
      · exact hplain.within [] [] fun o _ => by simp [Writer.writtenBranch, hk]
  | numerator | denominator | radicand => exact hplain

/-- The place of an atom in a formula: in the pieces of the formula, and if the formula is a row in
those of the row as part of a grid. -/
theorem hasPlace_putAt (ha : a.Regular) (hd : a.descend? steps = some owner)
    (hrow : owner.kind ≠ .row) (p : Piece → Bool) :
    (∀ o, Matches p owner o → Matches p a (a.putAt steps o)) ∧
      (HasPlace p owner fun o => pieces (a.putAt steps o)) ∧
      (a.kind = .row → HasPlace p owner fun o => rowPieces ((a.putAt steps o).branch .body)) := by
  induction steps generalizing a with
  | nil =>
      cases hd
      exact ⟨fun o ho => ho, hasPlace_pieces p _, fun hk => absurd hk hrow⟩
  | cons s rest ih =>
      obtain ⟨atoms, i, child, hb, hi, hc, hd⟩ := Atom.descend?_cons_eq_some hd
      have hbranch := ha.branch hb
      have hmem := List.mem_of_getElem? hc
      obtain ⟨hm, hpieces, hrows⟩ := ih (hbranch.regular child hmem) hd
      have hput (o : Atom) := Atom.putAt_cons hb hi hc hd o
      simp only [hput]
      refine ⟨fun o ho => matches_putBranch p hb _, ?_, fun hk => ?_⟩
      · obtain ⟨before, after, hwritten⟩ := exists_pieces_putBranch _ hbranch.allowed
        exact (hpieces.writtenBranch hrows hc hm (hbranch.admitted child hmem)).within before after
          fun o _ => by rw [hwritten]
      · obtain ⟨before, after, hcells⟩ :=
          exists_cellsPieces_set true atoms (Atom.lt_length_of_getElem?_eq_some hc)
        have hslot : s.slot = .body := by
          have hallowed := hbranch.allowed
          rw [hk] at hallowed
          cases hs : s.slot <;> rw [hs] at hallowed <;> first | rfl | cases hallowed
        refine hpieces.within before after fun o _ => ?_
        rw [hslot, Atom.branch_putBranch_self, rowPieces, hcells]

/-! ## Counting characters -/

/-- How often a character occurs in pieces. -/
def charCount (c : Char) (ps : List Piece) : Nat :=
  (ps.flatMap Piece.text).count c

theorem charCount_append (c : Char) (ps qs : List Piece) :
    charCount c (ps ++ qs) = charCount c ps + charCount c qs := by
  rw [charCount, List.flatMap_append, List.count_append, charCount, charCount]

theorem count_append (c : Char) (hc : c ≠ ' ') (reversed : List Char) (x : Piece) :
    (append reversed x).count c = reversed.count c + x.text.count c := by
  cases x with
  | exact text => rw [append, List.count_append, List.count_reverse, Nat.add_comm, Piece.text]
  | word text =>
      have happend : append reversed (.word text) =
          if startsWithLetter text && endsWithControlWord reversed then
            text.reverse ++ ' ' :: reversed
          else text.reverse ++ reversed := rfl
      rw [happend, Piece.text]
      split
      · rw [List.count_append, List.count_cons_of_ne hc.symm, List.count_reverse, Nat.add_comm]
      · rw [List.count_append, List.count_reverse, Nat.add_comm]

/-- Putting pieces together adds nothing but spaces. -/
theorem count_assemble {c : Char} (hc : c ≠ ' ') (ps : List Piece) :
    (assemble ps).count c = charCount c ps := by
  have hfold (reversed : List Char) :
      (ps.foldl append reversed).count c = reversed.count c + charCount c ps := by
    induction ps generalizing reversed with
    | nil => rfl
    | cons x rest ih =>
        rw [List.foldl_cons, ih, count_append c hc, charCount, charCount, List.flatMap_cons,
          List.count_append, Nat.add_assoc]
  rw [assemble, List.count_reverse, hfold, List.count_nil, Nat.zero_add]

/-- Pieces that are not braces on their own. -/
def isNoBrace (x : Piece) : Bool :=
  x != mark '{' && x != mark '}'

theorem charCount_filter_isNoBrace {c : Char} (h : c ≠ '{') (h' : c ≠ '}') (ps : List Piece) :
    charCount c (ps.filter isNoBrace) = charCount c ps := by
  induction ps with
  | nil => rfl
  | cons x rest ih =>
      have hcons : charCount c (x :: rest) = x.text.count c + charCount c rest := by
        rw [charCount, List.flatMap_cons, List.count_append, charCount]
      have hskipped (d : Char) (hd : c ≠ d) : (mark d).text.count c = 0 := by
        simp [mark, Piece.text, hd.symm]
      rw [List.filter_cons, hcons]
      split
      · rw [charCount, List.flatMap_cons, List.count_append, ← charCount, ih]
      · rename_i hx
        have hx : x = mark '{' ∨ x = mark '}' := by simpa [isNoBrace, Classical.or_iff_not_imp_left] using hx
        rcases hx with rfl | rfl
        · rw [hskipped _ h, ih, Nat.zero_add]
        · rw [hskipped _ h', ih, Nat.zero_add]

end Writer

/-! ## One branch of a formula -/

section

open Writer

variable {root owner : Atom} {q : Path} {slot : Slot} {atoms content : List Atom}

/-- The pieces of a formula with a branch replaced or taken out. -/
def piecesWith (root : Atom) (q : Path) (slot : Slot) (branch : Option (List Atom)) : List Piece :=
  pieces (q.modifyAtom (fun a => a.putBranch slot branch) root)

/-- The top of a formula is written as its body. -/
theorem write_body (h : IsFormula root) :
    write root.body = String.ofList (assemble (pieces root)) := by
  obtain ⟨hk, hbody, hregular⟩ := h
  have hsup : root.branch .superscript = none := hregular.branch_eq_none (by rw [hk]; rfl)
  have hsub : root.branch .subscript = none := hregular.branch_eq_none (by rw [hk]; rfl)
  obtain ⟨⟨id, kind, value, glyph, marks⟩,
    ⟨body, sup, sub, numerator, denominator, index, radicand⟩⟩ := root
  obtain rfl : kind = .root := hk
  obtain rfl : sup = none := hsup
  obtain rfl : sub = none := hsub
  obtain ⟨atoms, rfl⟩ := Option.isSome_iff_exists.1 (hbody : body.isSome = true)
  simp [write, pieces, branchPieces, scriptPieces, Atom.body, Atom.branch, Branches.get]

/-- Where a branch of a formula is written. -/
theorem exists_place (hf : IsFormula root) (hb : IsBranch root q slot owner atoms)
    (p : Piece → Bool) :
    ∃ before after, ∀ branch, branch.isSome = true ∨ IgnoresBraces p →
      (piecesWith root q slot branch).filter p =
        before ++ (writtenBranch owner.kind slot branch).filter p ++ after := by
  have hallowed := ((hf.regular_owner hb).branch hb.branch_eq).allowed
  have hrow : owner.kind ≠ .row := by
    intro hk
    have hgrid := hb.not_grid
    rw [hk] at hallowed hgrid
    cases slot with
    | body => cases hgrid
    | _ => cases hallowed
  obtain ⟨-, ⟨before, after, hplace⟩, -⟩ := hasPlace_putAt hf.regular hb.atom?_eq hrow p
  obtain ⟨before', after', hwritten⟩ := exists_pieces_putBranch owner hallowed
  refine ⟨before ++ before'.filter p, after'.filter p ++ after, fun branch hbranch => ?_⟩
  have hmatches : Matches p owner (owner.putBranch slot branch) := by
    refine ⟨rfl, rfl, hbranch.imp (fun hsome => ?_) id⟩
    obtain ⟨content, rfl⟩ := Option.isSome_iff_exists.1 hsome
    exact isBareGroup_putBranch_some hb.branch_eq content
  have hput : q.modifyAtom (fun a => a.putBranch slot branch) root =
      root.putAt q.steps (owner.putBranch slot branch) :=
    Path.modifyAtom_congr (g := fun _ => owner.putBranch slot branch) hb.atom?_eq rfl
  rw [piecesWith, hput, hplace _ hmatches, hwritten]
  simp only [List.filter_append, List.append_assoc]

theorem piecesWith_self (hb : IsBranch root q slot owner atoms) :
    piecesWith root q slot (some atoms) = pieces root :=
  congrArg pieces hb.fill_self

theorem filter_all (ps : List Piece) : (ps.filter fun _ => true) = ps :=
  List.filter_eq_self.2 fun _ _ => rfl

/-- A formula is written alike if one branch of it is. -/
theorem pieces_fill_eq (hf : IsFormula root) (hb : IsBranch root q slot owner atoms)
    (h : writtenBranch owner.kind slot (some content) = writtenBranch owner.kind slot (some atoms)) :
    pieces (q.fill slot content root) = pieces root := by
  obtain ⟨before, after, hplace⟩ := exists_place hf hb fun _ => true
  have hcontent := hplace (some content) (.inl rfl)
  have hatoms := hplace (some atoms) (.inl rfl)
  rw [h, ← hatoms, piecesWith_self hb, filter_all, filter_all] at hcontent
  exact hcontent

/-- A formula is written differently if a character occurs more often in one branch of it. Braces may
be needed around a group that loses its scripts, so they tell nothing about a branch that is taken
out. -/
theorem assemble_pieces_ne (hf : IsFormula root) (hb : IsBranch root q slot owner atoms)
    {branch : Option (List Atom)} {c : Char} (hspace : c ≠ ' ')
    (hc : branch.isSome = true ∨ c ≠ '{' ∧ c ≠ '}')
    (h : charCount c (writtenBranch owner.kind slot branch) ≠
      charCount c (writtenBranch owner.kind slot (some atoms))) :
    assemble (piecesWith root q slot branch) ≠ assemble (pieces root) := by
  intro heq
  have hcount := congrArg (fun text : List Char => text.count c) heq
  simp only [count_assemble hspace, ← piecesWith_self hb] at hcount
  have hplaced (p : Piece → Bool) (hp : branch.isSome = true ∨ IgnoresBraces p)
      (hkept : ∀ ps : List Piece, charCount c (ps.filter p) = charCount c ps) :
      charCount c (writtenBranch owner.kind slot branch) =
        charCount c (writtenBranch owner.kind slot (some atoms)) := by
    obtain ⟨before, after, hplace⟩ := exists_place hf hb p
    rw [← hkept (piecesWith root q slot branch), ← hkept (piecesWith root q slot (some atoms)),
      hplace branch hp, hplace (some atoms) (.inl rfl)] at hcount
    simp only [charCount_append, hkept] at hcount
    omega
  rcases hc with hsome | ⟨hopen, hclose⟩
  · exact h (hplaced (fun _ => true) (.inl hsome) fun ps => by rw [filter_all])
  · exact h (hplaced isNoBrace (.inr ⟨rfl, rfl⟩) (charCount_filter_isNoBrace hopen hclose))

theorem write_ne (hf : IsFormula root) (hb : IsBranch root q slot owner atoms)
    {branch : Option (List Atom)} {root' : Atom} (hf' : IsFormula root')
    (hroot : root' = q.modifyAtom (fun a => a.putBranch slot branch) root) {c : Char}
    (hspace : c ≠ ' ') (hc : branch.isSome = true ∨ c ≠ '{' ∧ c ≠ '}')
    (h : charCount c (writtenBranch owner.kind slot branch) ≠
      charCount c (writtenBranch owner.kind slot (some atoms))) :
    write root'.body ≠ write root.body := by
  rw [write_body hf, write_body hf', hroot]
  exact fun heq => assemble_pieces_ne hf hb hspace hc h (String.ofList_injective heq)

theorem kind_ne_array (hb : IsBranch root q .body owner atoms) : owner.kind ≠ .array := by
  intro hk
  have hgrid := hb.not_grid
  rw [hk] at hgrid
  cases hgrid

/-- Where a branch comes to hold the same pieces, the formula is written as before unless the braces
of an index come or go. -/
theorem write_fill_iff (hf : IsFormula root) (hb : IsBranch root q slot owner atoms)
    (hf' : IsFormula (q.fill slot content root)) (h : listPieces content = listPieces atoms) :
    write (q.fill slot content root).body = write root.body ↔
      (slot = .index → needsBraces content = needsBraces atoms) := by
  have hsame (hwritten : writtenBranch owner.kind slot (some content) =
      writtenBranch owner.kind slot (some atoms)) :
      write (q.fill slot content root).body = write root.body := by
    rw [write_body hf, write_body hf', pieces_fill_eq hf hb hwritten]
  by_cases hslot : slot = .index
  · subst hslot
    by_cases hneeds : needsBraces content = needsBraces atoms
    · refine iff_of_true (hsame ?_) fun _ => hneeds
      simp only [writtenBranch, indexPieces, h, hneeds]
    · refine iff_of_false (write_ne hf hb hf' rfl (c := '{') (by decide) (.inl rfl) ?_)
        fun hall => hneeds (hall rfl)
      have hcount (index : List Atom) : charCount '{' (indexPieces (some index)) =
          charCount '{' (listPieces index) + (needsBraces index).toNat := by
        cases hb : needsBraces index <;>
          simp [indexPieces, hb, braced, charCount, mark, Piece.text]
      simp only [writtenBranch, hcount, h]
      cases hcontent : needsBraces content <;> cases hatoms : needsBraces atoms <;>
        simp_all
  · refine iff_of_true (hsame ?_) fun heq => absurd heq hslot
    cases slot with
    | body => simp only [writtenBranch, kind_ne_array hb, if_false, branchPieces, h]
    | index => exact absurd rfl hslot
    | _ => simp only [writtenBranch, scriptPieces, branchPieces, h]

/-- A branch that may be absent is seen where it is present. -/
theorem write_removed_ne (hf : IsFormula root) (hb : IsBranch root q slot owner atoms)
    (hopt : slot.isOptional = true) {root' : Atom} (hf' : IsFormula root')
    (hroot : root' = q.modifyAtom (fun a => a.putBranch slot none) root) :
    write root'.body ≠ write root.body := by
  have hmark (c : Char) (before ps : List Piece) : 0 < charCount c (mark c :: ps) := by
    simp [charCount, mark, Piece.text]
  cases slot with
  | superscript =>
      refine write_ne hf hb hf' hroot (c := '^') (by decide) (.inr (by decide)) ?_
      exact Nat.ne_of_lt (hmark '^' [] _)
  | subscript =>
      refine write_ne hf hb hf' hroot (c := '_') (by decide) (.inr (by decide)) ?_
      exact Nat.ne_of_lt (hmark '_' [] _)
  | index =>
      refine write_ne hf hb hf' hroot (c := '[') (by decide) (.inr (by decide)) ?_
      exact Nat.ne_of_lt (hmark '[' [] _)
  | _ => cases hopt

/-- A placeholder is seen where nothing was written before. -/
theorem write_refilled_ne (hf : IsFormula root) (hb : IsBranch root q slot owner atoms)
    (hopt : slot.isOptional = false) (hnone : listPieces atoms = []) {root' : Atom}
    (hf' : IsFormula root') {filler : Nat} (hroot : root' = q.fill slot [Atom.placeholder filler] root) :
    write root'.body ≠ write root.body := by
  refine write_ne hf hb hf' hroot (c := '\\') (by decide) (.inl rfl) ?_
  have hwritten (content : List Atom) :
      writtenBranch owner.kind slot (some content) = listPieces content := by
    cases slot with
    | body => simp only [writtenBranch, kind_ne_array hb, if_false, branchPieces]
    | superscript | subscript | index => cases hopt
    | _ => rfl
  have hplaceholder : listPieces [Atom.placeholder filler] =
      [.word "\\placeholder\x7b\x7d".toList] := rfl
  rw [hwritten, hwritten, hnone, hplaceholder]
  decide

end

end Latex

end FormulaEditor

/-!
# Branches

An atom holds its content in named slots. A slot may be absent, and a slot that is present holds a
sequence, which may be empty. The seven slots have one order, document order, which every walk over
a formula follows.
-/

namespace FormulaEditor

/-- The name of a branch. The order of the constructors is document order. -/
inductive Slot where
  | body
  | superscript
  | subscript
  | numerator
  | denominator
  | index
  | radicand
  deriving DecidableEq, Repr, Inhabited

namespace Slot

/-- The slots in document order. -/
def all : List Slot :=
  [body, superscript, subscript, numerator, denominator, index, radicand]

/-- The name of a slot in the text of a path. -/
def name : Slot → String
  | body => "body"
  | superscript => "superscript"
  | subscript => "subscript"
  | numerator => "numerator"
  | denominator => "denominator"
  | index => "index"
  | radicand => "radicand"

/-- The slot with a given name. -/
def ofName? (s : String) : Option Slot :=
  all.find? fun slot => slot.name == s

/-- The place of a slot in document order. -/
def rank : Slot → Nat
  | body => 0
  | superscript => 1
  | subscript => 2
  | numerator => 3
  | denominator => 4
  | index => 5
  | radicand => 6

/-- Whether the slot is a superscript or subscript. -/
def isScript : Slot → Bool
  | superscript | subscript => true
  | _ => false

/-- Whether the branch disappears when it is emptied. -/
def isOptional : Slot → Bool
  | superscript | subscript | index => true
  | _ => false

theorem mem_all (slot : Slot) : slot ∈ all := by
  cases slot <;> decide

theorem ofName?_name (slot : Slot) : ofName? slot.name = some slot := by
  cases slot <;> decide

theorem isOptional_of_isScript {slot : Slot} (h : slot.isScript = true) :
    slot.isOptional = true := by
  cases slot <;> first | rfl | cases h

end Slot

/-- What an atom holds in each of its slots. -/
structure Branches (α : Type) where
  body : Option (List α)
  superscript : Option (List α)
  subscript : Option (List α)
  numerator : Option (List α)
  denominator : Option (List α)
  index : Option (List α)
  radicand : Option (List α)

namespace Branches

variable {α : Type}

/-- No branch at all. -/
def none : Branches α :=
  ⟨.none, .none, .none, .none, .none, .none, .none⟩

/-- The branch in a slot. -/
def get (b : Branches α) : Slot → Option (List α)
  | .body => b.body
  | .superscript => b.superscript
  | .subscript => b.subscript
  | .numerator => b.numerator
  | .denominator => b.denominator
  | .index => b.index
  | .radicand => b.radicand

/-- The branches with one slot replaced. -/
def set (b : Branches α) (slot : Slot) (content : Option (List α)) : Branches α :=
  match slot with
  | .body => { b with body := content }
  | .superscript => { b with superscript := content }
  | .subscript => { b with subscript := content }
  | .numerator => { b with numerator := content }
  | .denominator => { b with denominator := content }
  | .index => { b with index := content }
  | .radicand => { b with radicand := content }

/-- The slots that hold a branch, in document order. -/
def slots (b : Branches α) : List Slot :=
  Slot.all.filter fun slot => (b.get slot).isSome

/-- The content of all branches in document order. -/
def toList (b : Branches α) : List α :=
  Slot.all.flatMap fun slot => (b.get slot).getD []

@[simp] theorem get_set_self (b : Branches α) (slot : Slot) (content : Option (List α)) :
    (b.set slot content).get slot = content := by
  cases slot <;> rfl

@[simp] theorem get_set_of_ne (b : Branches α) {slot other : Slot} (h : other ≠ slot)
    (content : Option (List α)) : (b.set slot content).get other = b.get other := by
  cases slot <;> cases other <;> first | rfl | exact absurd rfl h

@[simp] theorem set_get_self (b : Branches α) (slot : Slot) : b.set slot (b.get slot) = b := by
  cases slot <;> rfl

@[simp] theorem set_set_self (b : Branches α) (slot : Slot) (content content' : Option (List α)) :
    (b.set slot content).set slot content' = b.set slot content' := by
  cases slot <;> rfl

@[simp] theorem get_none (slot : Slot) : (Branches.none : Branches α).get slot = .none := by
  cases slot <;> rfl

theorem mem_slots {b : Branches α} {slot : Slot} : slot ∈ b.slots ↔ (b.get slot).isSome := by
  simp [slots, Slot.mem_all]

theorem ext_get {b c : Branches α} (h : ∀ slot, b.get slot = c.get slot) : b = c := by
  have h0 := h .body
  have h1 := h .superscript
  have h2 := h .subscript
  have h3 := h .numerator
  have h4 := h .denominator
  have h5 := h .index
  have h6 := h .radicand
  cases b
  cases c
  simp_all [get]

end Branches

end FormulaEditor

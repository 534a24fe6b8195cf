import PathInvariants.Environment
import PathInvariants.Path
import PathInvariants.Technique

/-!
# Nodes

What an analysis keeps for one block: the variables tracked there and, for each run, four slots.
-/

namespace PathInvariants

inductive Slot where
  /-- The current over-approximation. -/
  | stable
  /-- The value being narrowed. -/
  | descending
  /-- The value with which the node first became reachable. -/
  | initial
  /-- Properties known from elsewhere. -/
  | known
deriving DecidableEq, Repr

def Slot.render : Slot → String
  | stable => "Stable"
  | descending => "Descending"
  | initial => "Initial"
  | known => "Known"

structure Slots (α : Type) where
  stable : α
  descending : α
  initial : α
  known : α
deriving DecidableEq, Repr

namespace Slots

variable {α : Type}

def filled (a : α) : Slots α := ⟨a, a, a, a⟩

def get (s : Slots α) : Slot → α
  | .stable => s.stable
  | .descending => s.descending
  | .initial => s.initial
  | .known => s.known

def set (s : Slots α) (slot : Slot) (a : α) : Slots α :=
  match slot with
  | .stable => { s with stable := a }
  | .descending => { s with descending := a }
  | .initial => { s with initial := a }
  | .known => { s with known := a }

theorem get_set (s : Slots α) (slot slot' : Slot) (a : α) :
    (s.set slot a).get slot' = if slot' = slot then a else s.get slot' := by
  cases slot <;> cases slot' <;> rfl

end Slots

structure Node (α : Type) where
  block : Block
  env : Environment
  slots : List (Key × Slots α)

namespace Node

variable {α : Type}

def new (b : Block) : Node α := ⟨b, Environment.empty, []⟩

/-- Tracks symbols with the kinds that `kindOf` gives them. -/
def track (n : Node α) (kindOf : Symbol → VariableKind) (symbols : List Symbol) : Except Fault (Node α) :=
  return { n with env := ← symbols.foldlM (fun env s => Environment.add env s (kindOf s)) n.env }

def slots? (n : Node α) (key : Key) : Option (Slots α) := n.slots.lookup key

def hasSlots (n : Node α) (key : Key) : Bool := (n.slots? key).isSome

def dropSlots (n : Node α) (key : Key) : Node α := { n with slots := n.slots.filter fun e => e.1 != key }

def setSlots (n : Node α) (key : Key) (s : Slots α) : Node α :=
  { n with slots := (key, s) :: (n.dropSlots key).slots }

theorem slots?_dropSlots_of_ne (n : Node α) {key key' : Key} (ne : key' ≠ key) :
    (n.dropSlots key).slots? key' = n.slots? key' := by
  simp only [slots?, dropSlots]
  induction n.slots with
  | nil => rfl
  | cons e es ih =>
    obtain ⟨k, s⟩ := e
    by_cases hk : k = key
    · subst hk
      have : (key' == k) = false := by simpa using ne
      simp [List.lookup_cons, this, ih]
    · by_cases hk' : key' = k <;> simp [List.lookup_cons, hk, hk', ih]

@[simp] theorem slots?_setSlots (n : Node α) (key : Key) (s : Slots α) : (n.setSlots key s).slots? key = some s := by
  simp [slots?, setSlots]

/-- Runs under other keys are left alone. -/
theorem slots?_setSlots_of_ne (n : Node α) {key key' : Key} (s : Slots α) (ne : key' ≠ key) :
    (n.setSlots key s).slots? key' = n.slots? key' := by
  have : (key' == key) = false := by simpa using ne
  rw [← slots?_dropSlots_of_ne n ne]
  simp [slots?, setSlots, List.lookup_cons, this]

end Node

end PathInvariants

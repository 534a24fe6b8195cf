import PathInvariants.Value

/-!
# Finite unions of abstract values

A union is a non-empty list of disjuncts addressed by index. Lattice operations act on one disjunct
at a time: the caller decides which one a contribution goes to. Disjuncts past the end are bottom,
over the environment of the first one, and come into being when they are addressed.
-/

namespace PathInvariants

structure Disjunction where
  first : Value
  others : List Value
deriving DecidableEq

namespace Disjunction

def single (v : Value) : Disjunction := ⟨v, []⟩

def toList (d : Disjunction) : List Value := d.first :: d.others

/-- The given number of bottom disjuncts, but at least one. -/
def bottoms (domain : Domain) (env : Environment) (count : Nat) : Disjunction :=
  ⟨.bottom domain env, List.replicate (count - 1) (.bottom domain env)⟩

def size (d : Disjunction) : Nat := d.others.length + 1

def get? (d : Disjunction) (index : Nat) : Option Value := d.toList[index]?

/-- What stands for the disjuncts past the end. -/
def filler (d : Disjunction) : Value := .bottom d.first.domain d.first.env

def get (d : Disjunction) (index : Nat) : Value := (d.get? index).getD d.filler

/-- Adds bottom disjuncts until `index` is one of the disjuncts. -/
def grow (d : Disjunction) (index : Nat) : Disjunction :=
  { d with others := d.others ++ List.replicate (index - d.others.length) d.filler }

def set (d : Disjunction) (index : Nat) (v : Value) : Disjunction :=
  match index with
  | 0 => { d with first := v }
  | i + 1 => { d with others := (d.grow (i + 1)).others.set i v }

def update (d : Disjunction) (index : Nat) (f : Value → Value) : Disjunction := d.set index (f (d.get index))

/-- The update by an operation that may fail. -/
def updateM (d : Disjunction) (index : Nat) (f : Value → Except Fault Value) : Except Fault Disjunction :=
  return d.set index (← f (d.get index))

/-- Joins values into one disjunct, over `env`. -/
def joinOver (d : Disjunction) (env : Environment) (vs : List Value) (index : Nat) : Disjunction :=
  d.update index fun v => v.joinOver env vs

def setTop (d : Disjunction) (index : Nat) (env : Environment) : Disjunction :=
  d.update index fun v => .top v.domain env

def setBottom (d : Disjunction) (index : Nat) (env : Environment) : Disjunction :=
  d.update index fun v => .bottom v.domain env

def meet (d : Disjunction) (index : Nat) (w : Value) : Except Fault Disjunction := d.updateM index (·.meet w)

def narrow (d : Disjunction) (index : Nat) (w : Value) : Except Fault Disjunction := d.updateM index (·.narrow w)

def widenTo (thresholds : List LinearConstraint) (d : Disjunction) (index : Nat) (w : Value) :
    Except Fault Disjunction :=
  d.updateM index (Value.widenTo thresholds · w)

def widen (d : Disjunction) (index : Nat) (w : Value) : Except Fault Disjunction := d.widenTo [] index w

/-- The disjuncts that hold some state. -/
def live (d : Disjunction) : List Value := d.toList.filter fun v => !v.isBottom

def isBottom (d : Disjunction) : Bool := d.toList.all Value.isBottom

/-- Whether some disjunct is unconstrained. -/
def isTop (d : Disjunction) : Bool := d.toList.any Value.isTop

def isBottomAt (d : Disjunction) (index : Nat) : Bool := (d.get? index).all Value.isBottom

/-- The order of two disjuncts with the same index. -/
def leqAt (d e : Disjunction) (index : Nat) : Bool :=
  match d.get? index, e.get? index with
  | none, _ => true
  | some v, none => v.isBottom
  | some v, some w => v.leq w

/-- Whether the unions agree disjunct by disjunct. -/
def same (d e : Disjunction) : Bool :=
  (List.range (d.size + e.size)).all fun i => d.leqAt e i && e.leqAt d i

def withEnv (d : Disjunction) (env : Environment) : Disjunction :=
  ⟨d.first.withEnv env, d.others.map fun v => v.withEnv env⟩

/-- The join of all disjuncts, over their least common environment. -/
def hull (d : Disjunction) : Except Fault Value := do
  let env ← d.others.foldlM (fun env v => env.union v.env) d.first.env
  return d.first.joinOver env d.others

def render (d : Disjunction) : String :=
  let live := d.toList.zipIdx.filter fun p => !p.1.isBottom
  if live.isEmpty then "_|_"
  else " \\/ ".intercalate (live.map fun p => "#" ++ toString p.2 ++ ": " ++ p.1.render)

theorem size_set (d : Disjunction) (index : Nat) (v : Value) :
    (d.set index v).size = if index < d.size then d.size else index + 1 := by
  cases index with
  | zero => simp [set, size]
  | succ i =>
    simp only [set, grow, size, List.length_set, List.length_append, List.length_replicate]
    by_cases h : i + 1 < d.others.length + 1 <;> simp only [h, if_true, if_false] <;> omega

theorem get?_set (d : Disjunction) (index : Nat) (v : Value) : (d.set index v).get? index = some v := by
  cases index with
  | zero => rfl
  | succ i =>
    simp only [get?, toList, set, List.getElem?_cons_succ]
    rw [List.getElem?_set_self]
    simp [grow]
    omega

/-- The other disjuncts are left alone, those past the end being bottom. -/
theorem get?_set_of_ne (d : Disjunction) {index i : Nat} (v : Value) (ne : i ≠ index) (lt : i < d.size) :
    (d.set index v).get? i = d.get? i := by
  cases i with
  | zero =>
    cases index with
    | zero => exact absurd rfl ne
    | succ j => rfl
  | succ i =>
    cases index with
    | zero => rfl
    | succ j =>
      simp only [get?, toList, set, List.getElem?_cons_succ]
      rw [List.getElem?_set_ne (by omega), grow, List.getElem?_append_left (by simp only [size] at lt; omega)]

/-- What stands at an index after one disjunct has been set. -/
theorem get?_set_cases {d : Disjunction} {i j : Nat} {v w : Value} (h : (d.set i v).get? j = some w) :
    (j = i ∧ w = v) ∨ (j ≠ i ∧ d.get? j = some w) ∨ (j ≠ 0 ∧ w = d.filler) := by
  by_cases hj : j = i
  · subst hj
    rw [get?_set] at h
    exact .inl ⟨rfl, (Option.some.inj h).symm⟩
  · by_cases hlt : j < d.size
    · rw [get?_set_of_ne d v hj hlt] at h
      exact .inr (.inl ⟨hj, h⟩)
    · rw [size] at hlt
      obtain ⟨j, rfl⟩ : ∃ m, j = m + 1 := Nat.exists_eq_succ_of_ne_zero (by omega)
      obtain ⟨i, rfl⟩ : ∃ m, i = m + 1 := by
        cases i with
        | zero =>
          have hlen := (List.getElem?_eq_some_iff.mp h).1
          simp only [set, toList, List.length_cons] at hlen
          omega
        | succ i => exact ⟨i, rfl⟩
      refine .inr (.inr ⟨by omega, ?_⟩)
      simp only [set, get?, toList, List.getElem?_cons_succ] at h
      rw [List.getElem?_set_ne (by omega), grow, List.getElem?_append_right (by omega)] at h
      exact List.eq_of_mem_replicate (List.mem_of_getElem? h)

theorem mem_toList_set {d : Disjunction} {i : Nat} {v w : Value} (h : w ∈ (d.set i v).toList) :
    w = v ∨ w ∈ d.toList ∨ w = d.filler := by
  obtain ⟨j, hj⟩ := List.getElem?_of_mem h
  rcases get?_set_cases hj with ⟨-, hw⟩ | ⟨-, hw⟩ | ⟨-, hw⟩
  · exact .inl hw
  · exact .inr (.inl (List.mem_of_getElem? hw))
  · exact .inr (.inr hw)

end Disjunction

end PathInvariants

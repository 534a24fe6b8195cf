import PathInvariants.Interval.Membership

/-!
# Boxes

A box gives every symbol an interval; symbols without a binding are unbounded. A box with an empty
range describes no state at all and is the one bottom box, so no binding of a box is empty or
unbounded.
-/

namespace PathInvariants

inductive Box where
  | bottom
  | ranges (bindings : Sparse Interval.top) (inhabited : ∀ e ∈ bindings.entries, e.2 ≠ .bottom)
deriving DecidableEq

namespace Box

/-- The box with the given ranges, bottom when one of them is empty. -/
def make (bindings : Sparse Interval.top) : Box :=
  if h : ∀ e ∈ bindings.entries, e.2 ≠ .bottom then ranges bindings h else bottom

def top : Box := ranges (Sparse.const _) nofun

def isBottom : Box → Bool
  | bottom => true
  | ranges _ _ => false

def isTop : Box → Bool
  | bottom => false
  | ranges bindings _ => bindings.entries.isEmpty

/-- The explicit bindings in symbol order, none for the bottom box. -/
def bindings : Box → List (Symbol × Interval)
  | bottom => []
  | ranges bindings _ => bindings.entries

def size (b : Box) : Nat := b.bindings.length

def get : Box → Symbol → Interval
  | bottom, _ => .bottom
  | ranges bindings _, s => bindings.get s

def set : Box → Symbol → Interval → Box
  | bottom, _, _ => bottom
  | ranges bindings _, s, i => make (bindings.set s i)

/-- Makes a symbol unbounded. -/
def forget (b : Box) (s : Symbol) : Box := b.set s .top

def update (b : Box) (s : Symbol) (f : Interval → Interval) : Box := b.set s (f (b.get s))

/-- Keeps the bindings of the chosen symbols. -/
def restrict : Box → (Symbol → Bool) → Box
  | bottom, _ => bottom
  | ranges bindings _, keep => make (bindings.restrict keep)

def leq : Box → Box → Bool
  | bottom, _ => true
  | _, bottom => false
  | ranges f _, ranges g _ => g.entries.all fun e => (f.get e.1).leq e.2

def equals (a b : Box) : Bool := a.leq b && b.leq a

/-- Takes in a binding of the right operand of `above`. A symbol that the left operand leaves unbounded stays so. -/
def joinEntry (f : Interval → Interval → Interval) (x joined : Sparse Interval.top) (e : Symbol × Interval) :
    Sparse Interval.top :=
  if x.get e.1 = .top then joined
  else if f (x.get e.1) e.2 = .top then joined
  else joined.set e.1 (f (x.get e.1) e.2)

/-- Takes in a binding of the right operand of `below`, until a range is empty. A symbol that the left operand leaves
unbounded gets the range as it is. -/
def meetEntry (f : Interval → Interval → Interval) (x : Sparse Interval.top) (e : Symbol × Interval) :
    Option (Sparse Interval.top) :=
  if x.get e.1 = .top then some (x.set e.1 e.2)
  else if f (x.get e.1) e.2 = .bottom then none
  else some (x.set e.1 (f (x.get e.1) e.2))

theorem inhabited_set {x : Sparse Interval.top} {s : Symbol} {i : Interval} (hx : ∀ e ∈ x.entries, e.2 ≠ .bottom)
    (hi : i ≠ .bottom) : ∀ e ∈ (x.set s i).entries, e.2 ≠ .bottom := by
  intro e he
  rcases Sparse.mem_entries_set he with rfl | he
  · exact hi
  · exact hx e he

theorem inhabited_foldl_joinEntry {f : Interval → Interval → Interval} (hf : ∀ {i j n}, n ∈ i ∨ n ∈ j → n ∈ f i j)
    {x joined : Sparse Interval.top} {es : List (Symbol × Interval)} (hjoined : ∀ e ∈ joined.entries, e.2 ≠ .bottom)
    (hes : ∀ e ∈ es, e.2 ≠ .bottom) : ∀ e ∈ (es.foldl (joinEntry f x) joined).entries, e.2 ≠ .bottom := by
  induction es generalizing joined with
  | nil => exact hjoined
  | cons e es ih =>
    refine ih ?_ fun e' he' => hes e' (List.mem_cons_of_mem _ he')
    unfold joinEntry
    split
    · exact hjoined
    · split
      · exact hjoined
      · refine inhabited_set hjoined fun hbottom => ?_
        obtain ⟨n, hn⟩ := Interval.exists_mem (hes e List.mem_cons_self)
        exact Interval.not_mem_bottom (hbottom ▸ hf (.inr hn))

theorem inhabited_foldlM_meetEntry {f : Interval → Interval → Interval} {x z : Sparse Interval.top}
    {es : List (Symbol × Interval)} (hx : ∀ e ∈ x.entries, e.2 ≠ .bottom) (hes : ∀ e ∈ es, e.2 ≠ .bottom)
    (h : es.foldlM (meetEntry f) x = some z) : ∀ e ∈ z.entries, e.2 ≠ .bottom := by
  induction es generalizing x with
  | nil => exact Option.some.inj h ▸ hx
  | cons e es ih =>
    rw [List.foldlM_cons] at h
    obtain ⟨x', hx', h⟩ := Option.bind_eq_some_iff.mp h
    refine ih ?_ (fun e' he' => hes e' (List.mem_cons_of_mem _ he')) h
    unfold meetEntry at hx'
    split at hx'
    · exact Option.some.inj hx' ▸ inhabited_set hx (hes e List.mem_cons_self)
    · split at hx'
      · cases hx'
      · rename_i hbottom
        exact Option.some.inj hx' ▸ inhabited_set hx hbottom

/-- Combines two boxes, symbol by symbol of the right one, by an operation that keeps the elements of both ranges.
Bottom is neutral. -/
def above (f : Interval → Interval → Interval) (hf : ∀ {i j n}, n ∈ i ∨ n ∈ j → n ∈ f i j) : Box → Box → Box
  | bottom, b => b
  | a, bottom => a
  | ranges x _, ranges y hy =>
    ranges (y.entries.foldl (joinEntry f x) (Sparse.const _)) (inhabited_foldl_joinEntry hf nofun hy)

/-- Combines two boxes, symbol by symbol of the right one. Bottom absorbs. -/
def below (f : Interval → Interval → Interval) : Box → Box → Box
  | bottom, _ => bottom
  | _, bottom => bottom
  | ranges x hx, ranges y hy =>
    match h : y.entries.foldlM (meetEntry f) x with
    | none => bottom
    | some z => ranges z (inhabited_foldlM_meetEntry hx hy h)

def join : Box → Box → Box := above Interval.join Interval.mem_join

def meet : Box → Box → Box := below Interval.meet

def widen : Box → Box → Box := above Interval.widen Interval.mem_widenTo

def narrow : Box → Box → Box := below Interval.narrow

/-- Widening with candidate bounds for each symbol. -/
def widenTo (lower upper : Symbol → List Int) : Box → Box → Box
  | bottom, b => b
  | a, bottom => a
  | ranges x _, ranges y _ =>
    make (Sparse.ofFn _ x.support fun s => Interval.widenTo (lower s) (upper s) (x.get s) (y.get s))

def render : Box → String
  | bottom => "_|_"
  | ranges bindings _ =>
    "\x7b" ++ ", ".intercalate (bindings.entries.map fun e => e.1 ++ " -> " ++ e.2.render) ++ "\x7d"

end Box

end PathInvariants

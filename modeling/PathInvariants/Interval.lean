import PathInvariants.Fault

/-!
# Integer intervals

Ranges of integers whose bounds may be infinite. The empty range has one form, so intervals are
equal exactly when they hold the same integers. Every operation builds its result with
`Interval.make`, which empties crossed bounds.
-/

namespace PathInvariants

/-- Rounds the quotient up. -/
def ceilDiv (a b : Int) : Int := -((-a).fdiv b)

/-- Some integer lies between the bounds, where `none` is infinite. -/
def boundsOrdered : Option Int → Option Int → Bool
  | some l, some h => decide (l ≤ h)
  | _, _ => true

inductive Interval where
  | bottom
  | range (lo hi : Option Int) (ordered : boundsOrdered lo hi = true)
deriving DecidableEq

namespace Interval

/-- The interval between two bounds, empty when they cross. -/
def make (lo hi : Option Int) : Interval :=
  if h : boundsOrdered lo hi = true then range lo hi h else bottom

def top : Interval := range none none rfl

def point (n : Int) : Interval := make (some n) (some n)

def closed (lo hi : Int) : Interval := make (some lo) (some hi)

def atLeast (lo : Int) : Interval := make (some lo) none

def atMost (hi : Int) : Interval := make none (some hi)

/-- The lower bound, if there is a finite one. -/
def lo : Interval → Option Int
  | bottom => none
  | range lo _ _ => lo

/-- The upper bound, if there is a finite one. -/
def hi : Interval → Option Int
  | bottom => none
  | range _ hi _ => hi

def isBottom : Interval → Bool
  | bottom => true
  | range _ _ _ => false

def isTop : Interval → Bool
  | range none none _ => true
  | _ => false

/-- The only element, if there is exactly one. -/
def singleton? : Interval → Option Int
  | range (some l) (some h) _ => if l = h then some l else none
  | _ => none

def contains : Interval → Int → Bool
  | bottom, _ => false
  | range lo hi _, n => lo.all (fun l => decide (l ≤ n)) && hi.all (fun h => decide (n ≤ h))

instance : Membership Int Interval := ⟨fun i n => i.contains n = true⟩

/-- Order of lower bounds, where `none` is below every integer. -/
def lowerLe : Option Int → Option Int → Bool
  | none, _ => true
  | some _, none => false
  | some a, some b => decide (a ≤ b)

/-- Order of upper bounds, where `none` is above every integer. -/
def upperLe : Option Int → Option Int → Bool
  | _, none => true
  | none, some _ => false
  | some a, some b => decide (a ≤ b)

def addBounds : Option Int → Option Int → Option Int
  | some a, some b => some (a + b)
  | _, _ => none

def add : Interval → Interval → Interval
  | range l₁ h₁ _, range l₂ h₂ _ => make (addBounds l₁ l₂) (addBounds h₁ h₂)
  | _, _ => bottom

/-- The multiples by `k` of the elements, closed under what lies between them. -/
def scale (i : Interval) (k : Int) : Interval :=
  match i with
  | bottom => bottom
  | range lo hi _ =>
    if k = 0 then point 0
    else if 0 < k then make (lo.map (· * k)) (hi.map (· * k))
    else make (hi.map (· * k)) (lo.map (· * k))

/-- The range of those `x` for which `k * x` lies in the interval, for a non-zero `k`. Bounds are
rounded inwards for an integral `x` and outwards for a rational one. -/
def divide (i : Interval) (k : Int) (integral : Bool) : Interval :=
  match i with
  | bottom => bottom
  | range lo hi _ =>
    let below := if k < 0 then hi.map (- ·) else lo
    let above := if k < 0 then lo.map (- ·) else hi
    let d : Int := k.natAbs
    make (below.map fun l => if integral then ceilDiv l d else l.fdiv d)
      (above.map fun h => if integral then h.fdiv d else ceilDiv h d)

/-- Division that refuses zero, also for the empty interval. -/
def divide? (i : Interval) (k : Int) (integral : Bool) : Except Fault Interval :=
  if k = 0 then .error .divisionByZero else .ok (i.divide k integral)

def leq : Interval → Interval → Bool
  | bottom, _ => true
  | _, bottom => false
  | range l₁ h₁ _, range l₂ h₂ _ => lowerLe l₂ l₁ && upperLe h₁ h₂

def equals (a b : Interval) : Bool := a.leq b && b.leq a

/-- The order as a comparison, `none` for incomparable intervals. -/
def compare? (a b : Interval) : Option Ordering :=
  match a.leq b, b.leq a with
  | true, true => some .eq
  | true, false => some .lt
  | false, true => some .gt
  | false, false => none

def join : Interval → Interval → Interval
  | a, bottom => a
  | bottom, b => b
  | range l₁ h₁ _, range l₂ h₂ _ =>
    make (if lowerLe l₁ l₂ then l₁ else l₂) (if upperLe h₂ h₁ then h₁ else h₂)

def meet : Interval → Interval → Interval
  | bottom, _ => bottom
  | _, bottom => bottom
  | range l₁ h₁ _, range l₂ h₂ _ =>
    make (if lowerLe l₁ l₂ then l₂ else l₁) (if upperLe h₁ h₂ then h₁ else h₂)

/-- The largest candidate at or below a finite bound. -/
def greatestBelow (bound : Option Int) : List Int → Option Int
  | [] => none
  | c :: cs =>
    let best := greatestBelow bound cs
    if (bound.any fun n => decide (c ≤ n)) && best.all fun b => decide (b ≤ c) then some c else best

/-- The smallest candidate at or above a finite bound. -/
def leastAbove (bound : Option Int) : List Int → Option Int
  | [] => none
  | c :: cs =>
    let best := leastAbove bound cs
    if (bound.any fun n => decide (n ≤ c)) && best.all fun b => decide (c ≤ b) then some c else best

/-- Widening that moves an unstable bound to the closest candidate beyond the new one, and to
infinity when there is none. -/
def widenTo (lower upper : List Int) : Interval → Interval → Interval
  | bottom, b => b
  | a, bottom => a
  | range l₁ h₁ _, range l₂ h₂ _ =>
    make (if lowerLe l₁ l₂ then l₁ else greatestBelow l₂ lower)
      (if upperLe h₂ h₁ then h₁ else leastAbove h₂ upper)

def widen (a b : Interval) : Interval := widenTo [] [] a b

/-- Replaces the infinite bounds of the first interval by those of the second. -/
def narrow : Interval → Interval → Interval
  | bottom, _ => bottom
  | _, bottom => bottom
  | range l₁ h₁ _, range l₂ h₂ _ => make (l₁.or l₂) (h₁.or h₂)

def render : Interval → String
  | bottom => "_|_"
  | range lo hi _ =>
    "[" ++ (lo.elim "-oo" toString) ++ ", " ++ (hi.elim "+oo" toString) ++ "]"

end Interval

end PathInvariants

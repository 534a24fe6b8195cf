import PathInvariants.Sparse

/-!
# Linear expressions

Integer combinations of symbols plus a constant. Zero coefficients are never stored, so two
expressions are equal exactly when their coefficients and constants are.
-/

namespace PathInvariants

structure LinearExpr where
  coeffs : Sparse (0 : Int)
  constant : Int
deriving DecidableEq

namespace LinearExpr

def const (c : Int) : LinearExpr := ⟨Sparse.const 0, c⟩

def zero : LinearExpr := const 0

def term (c : Int) (s : Symbol) : LinearExpr := ⟨(Sparse.const 0).set s c, 0⟩

def var (s : Symbol) : LinearExpr := term 1 s

def coeff (e : LinearExpr) (s : Symbol) : Int := e.coeffs.get s

/-- The symbols with their non-zero coefficients, in symbol order. -/
def terms (e : LinearExpr) : List (Symbol × Int) := e.coeffs.entries

def symbols (e : LinearExpr) : List Symbol := e.coeffs.support

def mentions (e : LinearExpr) (s : Symbol) : Bool := e.coeff s != 0

def isConstant (e : LinearExpr) : Bool := e.coeffs.entries.isEmpty

def add (e f : LinearExpr) : LinearExpr := ⟨Sparse.zipWith (· + ·) e.coeffs f.coeffs, e.constant + f.constant⟩

def neg (e : LinearExpr) : LinearExpr := ⟨e.coeffs.map (- ·), -e.constant⟩

def sub (e f : LinearExpr) : LinearExpr := e.add f.neg

def scale (e : LinearExpr) (k : Int) : LinearExpr := ⟨e.coeffs.map (· * k), e.constant * k⟩

instance : Add LinearExpr := ⟨add⟩

instance : Neg LinearExpr := ⟨neg⟩

instance : Sub LinearExpr := ⟨sub⟩

def addTerm (e : LinearExpr) (c : Int) (s : Symbol) : LinearExpr :=
  ⟨e.coeffs.set s (e.coeff s + c), e.constant⟩

/-- The expression less its `s` term. -/
def without (e : LinearExpr) (s : Symbol) : LinearExpr := ⟨e.coeffs.erase s, e.constant⟩

/-- Puts `f` in the place of `s`. -/
def substitute (e : LinearExpr) (s : Symbol) (f : LinearExpr) : LinearExpr :=
  e.without s + f.scale (e.coeff s)

/-- The greatest common divisor of the coefficients, zero for a constant. -/
def content (e : LinearExpr) : Nat := e.terms.foldl (fun g t => g.gcd t.2.natAbs) 0

/-- Divides the coefficients by a common divisor. The constant is rounded down. -/
def divide (e : LinearExpr) (g : Nat) : LinearExpr := ⟨e.coeffs.map (· / g), e.constant.fdiv g⟩

/-- The value at a valuation of the symbols. -/
def eval (e : LinearExpr) (m : Symbol → Int) : Int := e.terms.foldr (fun t n => t.2 * m t.1 + n) e.constant

/-- One term as it stands in a sum; only the first one omits a plus sign. -/
def renderTerm (first : Bool) (s : Symbol) (c : Int) : String :=
  (if c < 0 then "-" else if first then "" else "+") ++ (if c.natAbs = 1 then "" else toString c.natAbs) ++ s

def render (e : LinearExpr) : String :=
  match e.terms with
  | [] => toString e.constant
  | t :: ts =>
    renderTerm true t.1 t.2 ++ String.join (ts.map fun u => renderTerm false u.1 u.2) ++
      (if e.constant < 0 then toString e.constant else if 0 < e.constant then "+" ++ toString e.constant else "")

end LinearExpr

end PathInvariants

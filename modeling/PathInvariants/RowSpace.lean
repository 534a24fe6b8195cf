/-!
# Row spaces of integer matrices

Exact elimination over the integers. Rows are kept primitive and pivots positive, so the reduced
form of a matrix depends on its rational row space only. A row may have more entries than the
number of columns under elimination; the extra ones are never combined, and count only for the
divisor of the whole row.
-/

namespace PathInvariants

abbrev Row := List Int

namespace Row

def entry (r : Row) (c : Nat) : Int := r.getD c 0

/-- The greatest common divisor of the entries. -/
def content (r : Row) : Nat := r.foldl (fun g x => g.gcd x.natAbs) 0

/-- Divides the entries by their greatest common divisor. -/
def primitive (r : Row) : Row :=
  let g := r.content
  if g = 0 ∨ g = 1 then r else r.map (· / (g : Int))

/-- Combines the first `n` entries of `r` with those of another row, which counts as zero past its
end. -/
def combine (f : Int → Int → Int) : (n : Nat) → (r other : Row) → Row
  | 0, r, _ => r
  | _ + 1, [], _ => []
  | n + 1, x :: r, other => f x (other.headD 0) :: combine f n r other.tail

/-- The combination of `r` and a pivot row that vanishes in column `c`, taken in the first `ncols`
columns. -/
def cancel (ncols c : Nat) (pivot r : Row) : Row :=
  let p := pivot.entry c
  let q := r.entry c
  combine (fun x y => p * x - q * y) ncols r pivot

/-- Clears column `c` of a row by a pivot row. -/
def eliminate (ncols c : Nat) (pivot r : Row) : Row :=
  if r.entry c = 0 then r else (cancel ncols c pivot r).primitive

/-- The primitive multiple of the row with a positive entry in column `c`. -/
def normalized (r : Row) (c : Nat) : Row := primitive (if r.entry c < 0 then r.map (- ·) else r)

end Row

/-- Rows with a pivot, in the order of their pivot columns, and the rows still without one. -/
structure Echelon where
  rows : List Row
  pivots : List Nat
  rest : List Row
deriving DecidableEq, Repr

namespace Echelon

/-- Makes the first remaining row with an entry in column `c` the next pivot row. The first of the
remaining rows takes its place. -/
def step (ncols : Nat) (m : Echelon) (c : Nat) : Echelon :=
  let before := m.rest.takeWhile fun r => r.entry c == 0
  match m.rest.dropWhile fun r => r.entry c == 0 with
  | [] => m
  | r :: after =>
    let pivot := r.normalized c
    { rows := m.rows.map (Row.eliminate ncols c pivot) ++ [pivot]
      pivots := m.pivots ++ [c]
      rest := (before.rotateLeft 1 ++ after).map (Row.eliminate ncols c pivot) }

/-- The reduced echelon form: each pivot is positive and alone in its column, and zero rows are
gone. -/
def ofRows (rows : List Row) (ncols : Nat) : Echelon :=
  (List.range ncols).foldl (step ncols) ⟨[], [], rows⟩

/-- The rows of the reduced form with their pivot columns. -/
def pivotRows (m : Echelon) : List (Row × Nat) := m.rows.zip m.pivots

/-- The primitive solution that is positive in the free column `f` and zero in the others. -/
def solution (m : Echelon) (ncols f : Nat) : Row :=
  let bound := m.pivotRows.filter fun p => p.1.entry f != 0
  let l : Nat := bound.foldl (fun l p => l.lcm (p.1.entry p.2).natAbs) 1
  let component (k : Nat) : Int :=
    if k = f then l
    else match bound.find? fun p => p.2 == k with
      | some p => -p.1.entry f * ((l : Int) / p.1.entry k)
      | none => 0
  Row.primitive ((List.range ncols).map component)

/-- Whether a row is a rational combination of the pivot rows. -/
def spans (m : Echelon) (row : Row) : Bool :=
  (m.pivotRows.foldl (fun r p => if r.entry p.2 = 0 then r else Row.cancel r.length p.2 p.1 r) row).all (· == 0)

end Echelon

namespace RowSpace

/-- A basis of the vectors orthogonal to every row, one for each free column. -/
def nullSpace (rows : List Row) (ncols : Nat) : List Row :=
  let m := Echelon.ofRows rows ncols
  ((List.range ncols).filter fun c => !m.pivots.contains c).map (m.solution ncols)

/-- The reduced basis of the intersection of two row spaces. -/
def intersect (a b : List Row) (ncols : Nat) : List Row :=
  (Echelon.ofRows (nullSpace (nullSpace a ncols ++ nullSpace b ncols) ncols) ncols).rows

end RowSpace

end PathInvariants

import PathInvariants.Proofs.EqualitySolutions

/-!
# Checked elimination

Elimination reads and writes entries of rows by their column and divides by pivots, without looking
whether the row is long enough or the pivot is zero. The checked forms look, and fail with a fault where
an index is out of range or a divisor is zero. They never do on the rows of a system of equalities: these
have one entry for every symbol and one for the constant, elimination keeps that width, pivot rows and
pivot columns are paired, and pivots are positive.
-/
namespace PathInvariants

theorem ok_bind {α β ε : Type} (a : α) (f : α → Except ε β) : (Except.ok a >>= f) = f a := rfl

/-- A fold of steps that succeed as long as an invariant holds, which they keep. -/
theorem foldlM_eq_ok_of_invariant {α β ε : Type} {f : β → α → Except ε β} {g : β → α → β} {I : β → Prop} {l : List α}
    (h : ∀ b, I b → ∀ a ∈ l, f b a = .ok (g b a) ∧ I (g b a)) {b : β} (hb : I b) :
    l.foldlM f b = .ok (l.foldl g b) := by
  induction l generalizing b with
  | nil => rfl
  | cons a l ih =>
    obtain ⟨hstep, hkept⟩ := h b hb a List.mem_cons_self
    rw [List.foldlM_cons, hstep, ok_bind, List.foldl_cons]
    exact ih (fun b hb a ha => h b hb a (List.mem_cons_of_mem _ ha)) hkept

/-- A fold of steps that succeed. -/
theorem foldlM_eq_ok {α β ε : Type} {f : β → α → Except ε β} {g : β → α → β} {l : List α}
    (h : ∀ b, ∀ a ∈ l, f b a = .ok (g b a)) (b : β) : l.foldlM f b = .ok (l.foldl g b) :=
  foldlM_eq_ok_of_invariant (I := fun _ => True) (fun b _ a ha => ⟨h b a ha, trivial⟩) trivial

theorem mapM_eq_ok {α β ε : Type} {f : α → Except ε β} {g : α → β} {l : List α} (h : ∀ a ∈ l, f a = .ok (g a)) :
    l.mapM f = .ok (l.map g) := by
  induction l with
  | nil => rfl
  | cons a l ih =>
    rw [List.mapM_cons, h a List.mem_cons_self, ok_bind, ih fun a ha => h a (List.mem_cons_of_mem _ ha)]
    rfl

namespace Row

variable {n c : ℕ} {r pivot : Row}

def column? (r : Row) (c : ℕ) : Except Fault ℤ :=
  match r[c]? with
  | some x => .ok x
  | none => .error (.indexOutOfRange r.length c)

def put? (r : Row) (c : ℕ) (x : ℤ) : Except Fault Row :=
  if c < r.length then .ok (r.set c x) else .error (.indexOutOfRange r.length c)

def quotient? (a b : ℤ) : Except Fault ℤ := if b = 0 then .error .zeroDivisor else .ok (a / b)

def primitive? (r : Row) : Except Fault Row :=
  let g := r.content
  if g = 0 ∨ g = 1 then .ok r else r.mapM (quotient? · g)

def cancel? (ncols c : ℕ) (pivot r : Row) : Except Fault Row := do
  let p ← pivot.column? c
  let q ← r.column? c
  let combined ← (List.range ncols).mapM fun k => do return p * (← r.column? k) - q * (← pivot.column? k)
  return combined ++ r.drop ncols

def eliminate? (ncols c : ℕ) (pivot r : Row) : Except Fault Row := do
  if (← r.column? c) = 0 then return r else (← cancel? ncols c pivot r).primitive?

def normalized? (r : Row) (c : ℕ) : Except Fault Row := do
  primitive? (if (← r.column? c) < 0 then r.map (- ·) else r)

theorem column?_eq (h : c < r.length) : r.column? c = .ok (r.entry c) := by
  simp [column?, entry, h]

theorem put?_eq (h : c < r.length) (x : ℤ) : r.put? c x = .ok (r.set c x) := if_pos h

theorem quotient?_eq {b : ℤ} (hb : b ≠ 0) (a : ℤ) : quotient? a b = .ok (a / b) := if_neg hb

theorem primitive?_eq (r : Row) : r.primitive? = .ok r.primitive := by
  simp only [primitive?, primitive]
  split
  · rfl
  · rename_i hg
    exact mapM_eq_ok fun x _ => quotient?_eq (by omega) x

/-- On rows of one width, a combination is taken entry by entry. -/
theorem combine_eq_map (f : ℤ → ℤ → ℤ) (hr : r.length = n) (pivot : Row) :
    combine f n r pivot = (List.range n).map fun k => f (r.entry k) (pivot.entry k) := by
  refine List.ext_getElem (by rw [length_combine, hr, List.length_map, List.length_range]) fun k hk _ => ?_
  have hlt : k < r.length := by rwa [length_combine] at hk
  have hentry : (combine f n r pivot).entry k = f (r.entry k) (pivot.entry k) := entry_combine hr.le hlt
  rw [entry, List.getD_eq_getElem _ _ hk] at hentry
  rw [hentry, List.getElem_map, List.getElem_range]

theorem cancel?_eq (hr : r.length = n) (hpivot : pivot.length = n) (hc : c < n) :
    cancel? n c pivot r = .ok (cancel n c pivot r) := by
  have hentries : (List.range n).mapM (fun k => do return pivot.entry c * (← r.column? k) - r.entry c * (← pivot.column? k)) =
      Except.ok ((List.range n).map fun k => pivot.entry c * r.entry k - r.entry c * pivot.entry k) := by
    refine mapM_eq_ok fun k hk => ?_
    have hk := List.mem_range.mp hk
    rw [column?_eq (hr ▸ hk), ok_bind, column?_eq (hpivot ▸ hk)]
    rfl
  rw [cancel?, column?_eq (hpivot ▸ hc), ok_bind, column?_eq (hr ▸ hc), ok_bind, hentries, ok_bind, cancel,
    combine_eq_map _ hr, List.drop_of_length_le hr.le, List.append_nil]
  rfl

theorem eliminate?_eq (hr : r.length = n) (hpivot : pivot.length = n) (hc : c < n) :
    eliminate? n c pivot r = .ok (eliminate n c pivot r) := by
  rw [eliminate?, column?_eq (hr ▸ hc), ok_bind, eliminate]
  split
  · rfl
  · rw [cancel?_eq hr hpivot hc, ok_bind, primitive?_eq]

theorem normalized?_eq (hc : c < r.length) : r.normalized? c = .ok (r.normalized c) := by
  rw [normalized?, column?_eq hc, ok_bind, primitive?_eq, normalized]

end Row

namespace Echelon

variable {n c f : ℕ} {m : Echelon} {rows : List Row}

/-- The rows before the first one with an entry in column `c`, and the rows from there on. -/
def split? (c : ℕ) : List Row → Except Fault (List Row × List Row)
  | [] => .ok ([], [])
  | r :: rows => do
    if (← r.column? c) = 0 then
      let (before, rest) ← split? c rows
      return (r :: before, rest)
    else return ([], r :: rows)

def step? (ncols : ℕ) (m : Echelon) (c : ℕ) : Except Fault Echelon := do
  let (before, rest) ← split? c m.rest
  match rest with
  | [] => return m
  | r :: after =>
    let pivot ← r.normalized? c
    let rows ← m.rows.mapM (Row.eliminate? ncols c pivot)
    let rest ← (before.rotateLeft 1 ++ after).mapM (Row.eliminate? ncols c pivot)
    return { rows := rows ++ [pivot], pivots := m.pivots ++ [c], rest }

def ofRows? (rows : List Row) (ncols : ℕ) : Except Fault Echelon :=
  (List.range ncols).foldlM (step? ncols) ⟨[], [], rows⟩

/-- The rows with their pivot columns, each row found by its place. -/
def pivotRows? (m : Echelon) : Except Fault (List (Row × ℕ)) :=
  m.pivots.zipIdx.mapM fun x =>
    match m.rows[x.2]? with
    | some r => .ok (r, x.1)
    | none => .error (.indexOutOfRange m.rows.length x.2)

/-- The common multiple of the pivots of the rows with an entry in column `f`. -/
def multiple? (rows : List (Row × ℕ)) (f : ℕ) : Except Fault ℕ :=
  rows.foldlM (fun l x => do if (← x.1.column? f) = 0 then return l else return l.lcm (← x.1.column? x.2).natAbs) 1

/-- Solves each row for its pivot, in a vector that has `l` in column `f`. -/
def solve? (rows : List (Row × ℕ)) (f l : ℕ) (v : Row) : Except Fault Row :=
  rows.foldlM (fun v x => do
    let a ← x.1.column? f
    if a = 0 then return v else v.put? x.2 (-a * (← Row.quotient? l (← x.1.column? x.2)))) v

def solution? (m : Echelon) (ncols f : ℕ) : Except Fault Row := do
  let rows ← m.pivotRows?
  let l ← multiple? rows f
  let v ← solve? rows f l (List.replicate ncols 0)
  (← v.put? f l).primitive?

def spans? (m : Echelon) (row : Row) : Except Fault Bool := do
  let r ← (← m.pivotRows?).foldlM
    (fun r x => do if (← r.column? x.2) = 0 then return r else Row.cancel? r.length x.2 x.1 r) row
  return r.all (· == 0)

theorem split?_eq (h : ∀ r ∈ rows, c < r.length) :
    split? c rows = .ok (rows.takeWhile (·.entry c == 0), rows.dropWhile (·.entry c == 0)) := by
  induction rows with
  | nil => rfl
  | cons r rows ih =>
    rw [split?, Row.column?_eq (h r List.mem_cons_self), ok_bind]
    by_cases hr : r.entry c = 0
    · rw [if_pos hr, ih fun r hr => h r (List.mem_cons_of_mem _ hr)]
      simp [hr, ok_bind, pure, Except.pure]
    · rw [if_neg hr]
      simp [hr, pure, Except.pure]

/-- A step of elimination on rows of full width passes its checks. -/
theorem Reduced.step?_eq {k : ℕ} (hm : Reduced n k m) (hc : c < n) : step? n m c = .ok (Echelon.step n m c) := by
  have hwidth : ∀ r ∈ m.rest, r.length = n := fun r hr => hm.width r (List.mem_append_right _ hr)
  have hsplit : m.rest.takeWhile (·.entry c == 0) ++ m.rest.dropWhile (·.entry c == 0) = m.rest :=
    List.takeWhile_append_dropWhile
  rw [step?, split?_eq fun r hr => (hwidth r hr).symm ▸ hc, ok_bind, Echelon.step]
  cases hrest : m.rest.dropWhile (·.entry c == 0) with
  | nil => rfl
  | cons r after =>
    rw [hrest] at hsplit
    have hbefore : ∀ s ∈ m.rest.takeWhile (·.entry c == 0), s.length = n := fun s hs =>
      hwidth s (hsplit ▸ List.mem_append_left _ hs)
    have hafter : ∀ s ∈ r :: after, s.length = n := fun s hs => hwidth s (hsplit ▸ List.mem_append_right _ hs)
    have hr := hafter r List.mem_cons_self
    have hpivot : (r.normalized c).length = n := (Row.length_normalized r c).trans hr
    have hrows : m.rows.mapM (Row.eliminate? n c (r.normalized c)) =
        .ok (m.rows.map (Row.eliminate n c (r.normalized c))) :=
      mapM_eq_ok fun s hs => Row.eliminate?_eq (hm.width s (List.mem_append_left _ hs)) hpivot hc
    have hothers : ((m.rest.takeWhile (·.entry c == 0)).rotateLeft 1 ++ after).mapM
        (Row.eliminate? n c (r.normalized c)) = .ok (((m.rest.takeWhile (·.entry c == 0)).rotateLeft 1 ++ after).map
        (Row.eliminate n c (r.normalized c))) := by
      refine mapM_eq_ok fun s hs => Row.eliminate?_eq ?_ hpivot hc
      rcases List.mem_append.mp hs with hs | hs
      · exact hbefore s ((mem_rotateLeft _ _).mp hs)
      · exact hafter s (List.mem_cons_of_mem _ hs)
    dsimp only
    rw [Row.normalized?_eq (hr.symm ▸ hc), ok_bind, hrows, ok_bind, hothers]
    rfl

theorem ofRows?_eq (h : ∀ r ∈ rows, r.length = n) : ofRows? rows n = .ok (ofRows rows n) := by
  have hcolumns : ∀ k ≤ n, (List.range k).foldlM (step? n) ⟨[], [], rows⟩ =
      .ok ((List.range k).foldl (step n) ⟨[], [], rows⟩) := by
    intro k hk
    induction k with
    | zero => rfl
    | succ k ih =>
      rw [List.range_succ, List.foldlM_append, ih (by omega), ok_bind, List.foldl_append]
      simp only [List.foldlM_cons, List.foldlM_nil, List.foldl_cons, List.foldl_nil]
      rw [(reduced_columns h k).1.step?_eq hk]
      rfl
  exact hcolumns n le_rfl

/-- Every pivot has its row. -/
theorem Reduced.pivotRows?_eq {k : ℕ} (hm : Reduced n k m) : m.pivotRows? = .ok m.pivotRows := by
  have hrows : m.pivotRows? = .ok (m.pivots.zipIdx.map fun x => (m.rows.getD x.2 [], x.1)) := by
    refine mapM_eq_ok fun x hx => ?_
    obtain ⟨-, hlt, -⟩ := List.mem_zipIdx hx
    have hlt : x.2 < m.rows.length := by
      have hpaired := hm.paired
      omega
    simp [hlt]
  rw [hrows, pivotRows]
  refine congrArg Except.ok (List.ext_getElem (by simp [hm.paired]) fun i hi hi' => ?_)
  have hlt : i < m.rows.length := by
    rw [List.length_zip] at hi'
    omega
  simp [hlt]

/-- What a reduced form promises of a pivot row: full width, a pivot column in range and a positive pivot. -/
theorem Reduced.of_mem_pivotRows (hm : Reduced n n m) {x : Row × ℕ} (hx : x ∈ m.pivotRows) :
    x.1.length = n ∧ x.2 < n ∧ 0 < x.1.entry x.2 :=
  ⟨hm.width _ (List.mem_append_left _ (mem_pivotRows hx).1), hm.bounded _ (mem_pivotRows hx).2, hm.positive x hx⟩

theorem multiple?_eq {rows : List (Row × ℕ)} (hf : f < n) (h : ∀ x ∈ rows, x.1.length = n ∧ x.2 < n) :
    multiple? rows f =
      .ok ((rows.filter fun x => x.1.entry f != 0).foldl (fun l x => l.lcm (x.1.entry x.2).natAbs) 1) := by
  rw [multiple?, List.foldl_filter]
  refine foldlM_eq_ok (fun l x hx => ?_) 1
  obtain ⟨hlength, hpivot⟩ := h x hx
  rw [Row.column?_eq (hlength.symm ▸ hf), ok_bind]
  by_cases hzero : x.1.entry f = 0
  · simp [hzero, pure, Except.pure]
  · rw [if_neg hzero, Row.column?_eq (hlength.symm ▸ hpivot)]
    simp [hzero, ok_bind, pure, Except.pure]

/-- The vector with one row solved for its pivot. -/
def solved (f l : ℕ) (v : Row) (x : Row × ℕ) : Row :=
  if x.1.entry f = 0 then v else v.set x.2 (-x.1.entry f * ((l : ℤ) / x.1.entry x.2))

theorem length_solved (f l : ℕ) (v : Row) (x : Row × ℕ) : (solved f l v x).length = v.length := by
  unfold solved
  split
  · rfl
  · exact List.length_set

theorem solve?_eq {rows : List (Row × ℕ)} {v : Row} (hf : f < n) (hv : v.length = n)
    (h : ∀ x ∈ rows, x.1.length = n ∧ x.2 < n ∧ 0 < x.1.entry x.2) (l : ℕ) :
    solve? rows f l v = .ok (rows.foldl (solved f l) v) := by
  refine foldlM_eq_ok_of_invariant (I := fun v => v.length = n) (fun v hv x hx => ?_) hv
  obtain ⟨hlength, hpivot, hpositive⟩ := h x hx
  refine ⟨?_, (length_solved f l v x).trans hv⟩
  rw [Row.column?_eq (hlength.symm ▸ hf), ok_bind, solved]
  split
  · rfl
  · rw [Row.column?_eq (hlength.symm ▸ hpivot), ok_bind, Row.quotient?_eq hpositive.ne', ok_bind,
      Row.put?_eq (hv.symm ▸ hpivot)]

/-- As pivots differ, each one keeps what its row gives it. -/
theorem getElem?_foldl_solved {rows : List (Row × ℕ)} {v : Row} {k : ℕ} (hk : k < v.length)
    (hnodup : (rows.map Prod.snd).Nodup) (l : ℕ) : (rows.foldl (solved f l) v)[k]? =
      match (rows.filter fun x => x.1.entry f != 0).find? fun x => x.2 == k with
      | some x => some (-x.1.entry f * ((l : ℤ) / x.1.entry k))
      | none => v[k]? := by
  induction rows generalizing v with
  | nil => rfl
  | cons x rows ih =>
    obtain ⟨hx, hnodup⟩ := List.nodup_cons.mp hnodup
    rw [List.foldl_cons, ih (by rwa [length_solved]) hnodup, List.filter_cons]
    by_cases hzero : x.1.entry f = 0
    · simp [hzero, solved]
    · rw [if_pos (by simpa using hzero), List.find?_cons]
      by_cases hxk : x.2 = k
      · subst hxk
        have hnone : ((rows.filter fun x => x.1.entry f != 0).find? fun y => y.2 == x.2) = none := by
          refine List.find?_eq_none.mpr fun y hy hyx => hx ?_
          rw [← beq_iff_eq.mp hyx]
          exact List.mem_map_of_mem (List.mem_filter.mp hy).1
        simp [hnone, solved, hzero, hk]
      · have hne : (x.2 == k) = false := by simpa using hxk
        have hother : (solved f l v x)[k]? = v[k]? := by simp [solved, hzero, hxk]
        rw [hne, hother]

theorem Reduced.solution?_eq (hm : Reduced n n m) (hf : f < n) (hfree : f ∉ m.pivots) :
    m.solution? n f = .ok (m.solution n f) := by
  have hrows : ∀ x ∈ m.pivotRows, x.1.length = n ∧ x.2 < n ∧ 0 < x.1.entry x.2 := fun x hx => hm.of_mem_pivotRows hx
  have hnodup : (m.pivotRows.map Prod.snd).Nodup := hm.map_snd ▸ hm.nodup_pivots
  let bound := m.pivotRows.filter fun x => x.1.entry f != 0
  let l : ℕ := bound.foldl (fun l x => l.lcm (x.1.entry x.2).natAbs) 1
  let v := m.pivotRows.foldl (solved f l) (List.replicate n 0)
  have hlength : v.length = n := by
    refine List.foldlRecOn (motive := fun v => List.length v = n) m.pivotRows (solved f l) (by simp) fun v hv x _ => ?_
    rw [length_solved, hv]
  have hl : multiple? m.pivotRows f = .ok l := multiple?_eq hf fun x hx => ⟨(hrows x hx).1, (hrows x hx).2.1⟩
  have hv : solve? m.pivotRows f l (List.replicate n 0) = .ok v := solve?_eq hf (by simp) hrows l
  rw [solution?, hm.pivotRows?_eq, ok_bind, hl, ok_bind, hv, ok_bind, Row.put?_eq (hlength.symm ▸ hf), ok_bind,
    Row.primitive?_eq, solution]
  refine congrArg (fun v => Except.ok (Row.primitive v)) (List.ext_getElem? fun k => ?_)
  by_cases hk : k < n
  · by_cases hkf : k = f
    · subst hkf
      simp [hlength, hk]
      rfl
    · rw [List.getElem?_set_ne (Ne.symm hkf), getElem?_foldl_solved (by simpa using hk) hnodup, List.getElem?_map,
        List.getElem?_range hk, Option.map_some, if_neg hkf]
      cases (m.pivotRows.filter fun x => x.1.entry f != 0).find? fun x => x.2 == k with
      | none => simp [hk]
      | some x => rfl
  · rw [List.getElem?_eq_none (by simp [hlength]; omega), List.getElem?_eq_none (by simp; omega)]

theorem Reduced.spans?_eq (hm : Reduced n n m) {row : Row} (hrow : row.length = n) : m.spans? row = .ok (m.spans row) := by
  have hfold : m.pivotRows.foldlM
      (fun r x => do if (← r.column? x.2) = 0 then return r else Row.cancel? r.length x.2 x.1 r) row =
      Except.ok (m.pivotRows.foldl (fun r x => if r.entry x.2 = 0 then r else Row.cancel r.length x.2 x.1 r) row) := by
    refine foldlM_eq_ok_of_invariant (I := fun r => r.length = n) (fun r hr x hx => ?_) hrow
    obtain ⟨hlength, hpivot, -⟩ := hm.of_mem_pivotRows hx
    rw [Row.column?_eq (hr.symm ▸ hpivot), ok_bind]
    split
    · exact ⟨rfl, hr⟩
    · exact ⟨Row.cancel?_eq rfl (hlength.trans hr.symm) (hr.symm ▸ hpivot), (Row.length_cancel _ _ _ _).trans hr⟩
  rw [spans?, hm.pivotRows?_eq, ok_bind, hfold, ok_bind, spans]
  rfl

end Echelon

namespace RowSpace

variable {n : ℕ} {rows a b : List Row}

def nullSpace? (rows : List Row) (ncols : ℕ) : Except Fault (List Row) := do
  let m ← Echelon.ofRows? rows ncols
  ((List.range ncols).filter fun c => !m.pivots.contains c).mapM (m.solution? ncols)

def intersect? (a b : List Row) (ncols : ℕ) : Except Fault (List Row) := do
  let basis ← nullSpace? ((← nullSpace? a ncols) ++ (← nullSpace? b ncols)) ncols
  return (← Echelon.ofRows? basis ncols).rows

theorem nullSpace?_eq (h : ∀ r ∈ rows, r.length = n) : nullSpace? rows n = .ok (nullSpace rows n) := by
  rw [nullSpace?, Echelon.ofRows?_eq h, ok_bind, nullSpace]
  refine mapM_eq_ok fun f hf => ?_
  obtain ⟨hlt, hfree⟩ := List.mem_filter.mp hf
  exact (Echelon.reduced_ofRows h).solution?_eq (List.mem_range.mp hlt) (by simpa using hfree)

theorem intersect?_eq (ha : ∀ r ∈ a, r.length = n) (hb : ∀ r ∈ b, r.length = n) :
    intersect? a b n = .ok (intersect a b n) := by
  rw [intersect?, nullSpace?_eq ha, ok_bind, nullSpace?_eq hb, ok_bind, nullSpace?_eq length_of_mem_nullSpaces, ok_bind,
    Echelon.ofRows?_eq fun _ hv => length_of_mem_nullSpace hv]
  rfl

end RowSpace

/-- The expression of a row, with a check that there is a constant. -/
def LinearExpr.ofRow? (row : Row) (symbols : List Symbol) : Except Fault LinearExpr := do
  let constant ← row.column? symbols.length
  return (symbols.zip row).foldl (fun e t => e.addTerm t.2 t.1) (.const constant)

theorem LinearExpr.ofRow?_eq {row : Row} {symbols : List Symbol} (h : row.length = symbols.length + 1) :
    ofRow? row symbols = .ok (ofRow row symbols) := by
  rw [ofRow?, Row.column?_eq (by omega)]
  rfl

namespace Equalities

def eliminate? (rows : List LinearExpr) (order : List Symbol) : Except Fault Equalities := do
  let m ← Echelon.ofRows? (rows.map (·.toRow order)) (order.length + 1)
  if m.pivots.getLast? = some order.length then return unsatisfiable
  else return ⟨← m.rows.mapM (LinearExpr.ofRow? · order)⟩

def ofRows? (rows : List LinearExpr) : Except Fault Equalities := eliminate? rows (symbolsOf rows)

def extend? (q : Equalities) (equations : List LinearExpr) : Except Fault Equalities := ofRows? (q.rows ++ equations)

def add? (q : Equalities) (e : LinearExpr) : Except Fault Equalities := q.extend? [e]

def meet? (p q : Equalities) : Except Fault Equalities := ofRows? (p.rows ++ q.rows)

def join? (p q : Equalities) : Except Fault Equalities :=
  if p.isUnsatisfiable then return q
  else if q.isUnsatisfiable then return p
  else do
    let symbols := symbolsOf (p.rows ++ q.rows)
    let rows ← RowSpace.intersect? (p.rows.map (·.toRow symbols)) (q.rows.map (·.toRow symbols)) (symbols.length + 1)
    ofRows? (← rows.mapM (LinearExpr.ofRow? · symbols))

def project? (q : Equalities) (s : Symbol) : Except Fault Equalities :=
  if q.rows.any (·.mentions s) then do
    let order := s :: (symbolsOf q.rows).filter (· != s)
    ofRows? ((← eliminate? q.rows order).rows.filter fun e => !e.mentions s)
  else return q

/-- Substitution with a check of the assignment and of the elimination that follows. -/
def substituteInvertible? (q : Equalities) (s : Symbol) (e : LinearExpr) : Except Fault Equalities :=
  if e.mentions s then
    ofRows? (q.rows.map fun row =>
      if row.mentions s then
        (row.without s).scale (e.coeff s) + .term (row.coeff s) s - (e.without s).scale (row.coeff s)
      else row)
  else .error (.notInvertible s)

def implies? (q : Equalities) (e : LinearExpr) : Except Fault Bool :=
  if q.isUnsatisfiable then return true
  else do
    let symbols := symbolsOf (q.rows ++ [e])
    (← Echelon.ofRows? (q.rows.map (·.toRow symbols)) (symbols.length + 1)).spans? (e.toRow symbols)

variable (p q : Equalities) (rows : List LinearExpr) (s : Symbol) (e : LinearExpr)

/-- Equations have full width, so their elimination passes all checks. -/
theorem eliminate?_eq (order : List Symbol) : eliminate? rows order = .ok (eliminate rows order) := by
  have hwidth : ∀ r ∈ rows.map (·.toRow order), r.length = order.length + 1 := length_of_mem_map_toRow
  have hm := Echelon.reduced_ofRows hwidth
  rw [eliminate?, Echelon.ofRows?_eq hwidth, ok_bind, eliminate]
  split
  · rfl
  · rw [mapM_eq_ok fun r hr => LinearExpr.ofRow?_eq (hm.width r (List.mem_append_left _ hr))]
    rfl

theorem ofRows?_eq : ofRows? rows = .ok (ofRows rows) := eliminate?_eq rows _

theorem extend?_eq (equations : List LinearExpr) : q.extend? equations = .ok (q.extend equations) := ofRows?_eq _

theorem add?_eq : q.add? e = .ok (q.add e) := extend?_eq q [e]

theorem meet?_eq : p.meet? q = .ok (p.meet q) := ofRows?_eq _

theorem join?_eq : p.join? q = .ok (p.join q) := by
  unfold join? join
  split
  · rfl
  · split
    · rfl
    · have hwidth : ∀ r ∈ RowSpace.intersect (p.rows.map (·.toRow (symbolsOf (p.rows ++ q.rows))))
          (q.rows.map (·.toRow (symbolsOf (p.rows ++ q.rows)))) ((symbolsOf (p.rows ++ q.rows)).length + 1),
          r.length = (symbolsOf (p.rows ++ q.rows)).length + 1 := fun r hr =>
        (Echelon.reduced_ofRows fun _ hv => RowSpace.length_of_mem_nullSpace hv).width r (List.mem_append_left _ hr)
      dsimp only
      rw [RowSpace.intersect?_eq length_of_mem_map_toRow length_of_mem_map_toRow, ok_bind,
        mapM_eq_ok fun r hr => LinearExpr.ofRow?_eq (hwidth r hr), ok_bind, ofRows?_eq]

theorem project?_eq : q.project? s = .ok (q.project s) := by
  unfold project? project
  split
  · dsimp only
    rw [eliminate?_eq, ok_bind, ofRows?_eq]
  · rfl

theorem substituteInvertible?_eq (h : e.mentions s = true) : q.substituteInvertible? s e = .ok (q.substitute s e) := by
  rw [substituteInvertible?, if_pos h, ofRows?_eq]
  rfl

theorem implies?_eq : q.implies? e = .ok (q.implies e) := by
  unfold implies? implies
  split
  · rfl
  · dsimp only
    rw [Echelon.ofRows?_eq length_of_mem_map_toRow, ok_bind,
      (Echelon.reduced_ofRows length_of_mem_map_toRow).spans?_eq (LinearExpr.length_toRow _ _)]

end Equalities

end PathInvariants

import PathInvariants.Proofs.BoxLattice

/-!
# Exact propagation

Division of a range by a coefficient loses nothing: rounded inwards it holds the integers whose multiples
lie in the range, and rounded outwards it is the least range around the rational quotients. So a row that
tightens a box revises the range of one integer symbol after the other exactly. An integer is kept if some
point of the box, as the symbols before have left it, gives the rest of the row a value that goes with it.
-/
namespace PathInvariants

namespace Interval

variable {i j : Interval} {k n : ℤ}

/-- A range reaches down to an integer exactly if its lower bound allows it. -/
theorem exists_mem_le_iff (hne : i ≠ bottom) : (∃ z, z ∈ i ∧ z ≤ n) ↔ Above i.lo n := by
  cases i with
  | bottom => exact absurd rfl hne
  | range lo hi o =>
    constructor
    · rintro ⟨z, hz, hle⟩
      cases lo with
      | none => trivial
      | some l => exact (mem_range.mp hz).1.trans hle
    · intro h
      cases lo with
      | some l => exact ⟨l, mem_range_lower, h⟩
      | none =>
        cases hi with
        | none => exact ⟨n, mem_range.mpr ⟨trivial, trivial⟩, le_rfl⟩
        | some u => exact ⟨min n u, mem_range.mpr ⟨trivial, min_le_right n u⟩, min_le_left n u⟩

theorem exists_le_mem_iff (hne : i ≠ bottom) : (∃ z, z ∈ i ∧ n ≤ z) ↔ Below i.hi n := by
  cases i with
  | bottom => exact absurd rfl hne
  | range lo hi o =>
    constructor
    · rintro ⟨z, hz, hle⟩
      cases hi with
      | none => trivial
      | some u => exact hle.trans (mem_range.mp hz).2
    · intro h
      cases hi with
      | some u => exact ⟨u, mem_range_upper, h⟩
      | none =>
        cases lo with
        | none => exact ⟨n, mem_range.mpr ⟨trivial, trivial⟩, le_rfl⟩
        | some l => exact ⟨max n l, mem_range.mpr ⟨le_max_right n l, trivial⟩, le_max_left n l⟩

theorem fdiv_le {a d : ℤ} (hd : 0 < d) : a.fdiv d ≤ n ↔ a ≤ d * n + d - 1 := by
  have h := le_fdiv (a := a) (n := n + 1) hd
  rw [mul_add, mul_one] at h
  omega

theorem le_ceilDiv {a d : ℤ} (hd : 0 < d) : n ≤ ceilDiv a d ↔ d * n - d + 1 ≤ a := by
  have h := ceilDiv_le (a := a) (n := n - 1) hd
  rw [mul_sub, mul_one] at h
  omega

/-- Division that rounds outwards goes no further than the quotients of two elements. -/
theorem exists_of_mem_divide_false (hk : 0 < k) (hn : n ∈ i.divide k false) :
    (∃ y, y ∈ i ∧ y.fdiv k ≤ n) ∧ ∃ z, z ∈ i ∧ n ≤ ceilDiv z k := by
  cases i with
  | bottom => exact absurd hn not_mem_bottom
  | range lo hi o =>
    have habs : (k.natAbs : ℤ) = k := Int.natAbs_of_nonneg hk.le
    simp only [divide, hk.not_gt, if_false, Bool.false_eq_true, habs, mem_make] at hn
    simp only [fdiv_le hk, le_ceilDiv hk]
    have hne : range lo hi o ≠ bottom := Interval.noConfusion
    refine ⟨(exists_mem_le_iff hne).mpr ?_, (exists_le_mem_iff hne).mpr ?_⟩
    · cases lo with
      | none => trivial
      | some l => exact (fdiv_le hk).mp hn.1
    · cases hi with
      | none => trivial
      | some u => exact (le_ceilDiv hk).mp hn.2

theorem divide_false_leq_of_pos (hk : 0 < k) (h : ∀ q : ℚ, i.Admits (k * q) → j.Admits q) :
    (i.divide k false).leq j = true := by
  have hk' : (0 : ℚ) < k := by exact_mod_cast hk
  -- The quotient of an element lies in `j`, and with it an integer on either side.
  have hquotient : ∀ z ∈ i, j.Admits (z / k) := by
    intro z hz
    refine h _ ?_
    rw [mul_div_cancel₀ _ hk'.ne']
    exact admits_of_mem hz
  refine leq_iff.mpr fun n hn => ?_
  obtain ⟨⟨y, hy, hyn⟩, z, hz, hnz⟩ := exists_of_mem_divide_false hk hn
  obtain ⟨a, -, ha, -, hay, -⟩ := hquotient y hy
  obtain ⟨-, b, -, hb, -, hzb⟩ := hquotient z hz
  have hay' : k * a ≤ y := by
    rw [le_div_iff₀ hk', mul_comm] at hay
    exact_mod_cast hay
  have hzb' : z ≤ k * b := by
    rw [div_le_iff₀ hk', mul_comm] at hzb
    exact_mod_cast hzb
  exact mem_of_le_of_le ha hb (((le_fdiv hk).mpr hay').trans hyn) (hnz.trans ((ceilDiv_le hk).mpr hzb'))

/-- A negative divisor turns the range around. -/
theorem divide_of_neg (hk : k < 0) (integral : Bool) : i.divide k integral = (i.scale (-1)).divide (-k) integral := by
  cases i with
  | bottom => rfl
  | range lo hi o =>
    have hordered : boundsOrdered (hi.map (- ·)) (lo.map (- ·)) = true := by
      cases lo <;> cases hi <;> simp_all [boundsOrdered]
    have hscale : (range lo hi o).scale (-1) = range (hi.map (- ·)) (lo.map (- ·)) hordered := by
      simp [scale, make, hordered]
    rw [hscale]
    simp only [divide, if_pos hk, if_neg (show ¬ -k < 0 by omega), Int.natAbs_neg]

/-- Division that rounds outwards is least. -/
theorem divide_false_leq (hk : k ≠ 0) (h : ∀ q : ℚ, i.Admits (k * q) → j.Admits q) :
    (i.divide k false).leq j = true := by
  rcases lt_or_gt_of_ne hk with hneg | hpos
  · rw [divide_of_neg hneg]
    refine divide_false_leq_of_pos (Int.neg_pos.mpr hneg) fun q hq => h q ?_
    obtain ⟨p, hp, hpq⟩ := exists_of_admits_scale hq
    have hp' : p = k * q := by
      push_cast at hpq
      linarith
    rwa [← hp']
  · exact divide_false_leq_of_pos hpos h

/-- Division by `k`, for integers and for rationals. -/
structure DividesExactly (i : Interval) (k : ℤ) : Prop where
  inwards : ∃ j, i.divide? k true = .ok j ∧ ∀ x : ℤ, x ∈ j ↔ k * x ∈ i
  outwards : ∃ j, i.divide? k false = .ok j ∧ (∀ q : ℚ, i.Admits (k * q) → j.Admits q) ∧
    ∀ j', (∀ q : ℚ, i.Admits (k * q) → j'.Admits q) → j.leq j' = true

theorem dividesExactly (i : Interval) (hk : k ≠ 0) : i.DividesExactly k where
  inwards := ⟨i.divide k true, if_neg hk, fun _ => mem_divide hk⟩
  outwards := ⟨i.divide k false, if_neg hk, fun _ => admits_divide_false hk, fun _ => divide_false_leq hk⟩

example : (closed (-3) 7).divide (-2) true = closed (-3) 1 ∧
    (closed (-3) 7).divide (-2) false = closed (-4) 2 := by decide

theorem scale_ne_bottom (hi : i ≠ bottom) (k : ℤ) : i.scale k ≠ bottom := by
  obtain ⟨n, hn⟩ := exists_mem hi
  intro hbottom
  have hmem := mem_scale (k := k) hn
  rw [hbottom] at hmem
  exact not_mem_bottom hmem

end Interval

namespace Box

variable {b b' b₁ b₂ : Box} {e : LinearExpr} {comparison : Comparison} {s t : Symbol} {i : Interval}
  {integral : Symbol → Bool} {x : ℤ}

theorem get_set_self (hb : b ≠ bottom) (s : Symbol) (i : Interval) : (b.set s i).get s = i := by
  refine Interval.ext fun n => ⟨fun hn => ?_, fun hn => ?_⟩
  · have hle := Interval.leq_iff.mp (get_set_leq b s s i) n hn
    rwa [if_pos rfl] at hle
  · obtain ⟨m, hm⟩ := exists_admits hb
    have hset : (b.set s i).Admits (Function.update m s n) := by
      refine (admits_set hb).mpr ⟨?_, fun t ht => ?_⟩
      · rw [Function.update_self]
        exact Interval.admits_of_mem hn
      · rw [Function.update_of_ne ht]
        exact hm t
    have hs := hset s
    rwa [Function.update_self, Interval.admits_intCast] at hs

theorem get_set_of_ne (hset : b.set s i ≠ bottom) (ht : t ≠ s) : (b.set s i).get t = b.get t := by
  cases b with
  | bottom => exact absurd rfl hset
  | ranges f hf =>
    rw [set, make] at hset ⊢
    split at hset
    · rename_i hinhabited
      rw [dif_pos hinhabited, get, get, Sparse.get_set, if_neg ht]
    · exact absurd rfl hset

/-- The range of an expression is the set of its values. -/
theorem admits_rangeOf_iff (hb : b ≠ bottom) {q : ℚ} : (b.rangeOf e).Admits q ↔ ∃ m, b.Admits m ∧ e.value m = q := by
  constructor
  · exact exists_of_admits_rangeOf hb
  · rintro ⟨m, hm, rfl⟩
    exact admits_rangeOf hm e

theorem rangeOf_ne_bottom (hb : b ≠ bottom) (e : LinearExpr) : b.rangeOf e ≠ .bottom := by
  obtain ⟨m, hm⟩ := exists_admits hb
  intro hbottom
  have hrange := admits_rangeOf hm e
  rw [hbottom] at hrange
  exact Interval.not_admits_bottom _ hrange

/-- What a comparison asks of one summand is what some value of the other allows. -/
theorem mem_targetOf_iff (hc : comparison ≠ .gt) (hi : i ≠ .bottom) :
    x ∈ targetOf comparison (i.scale (-1)) ↔ ∃ r : ℚ, i.Admits r ∧ comparison.HoldsAt (x + r) := by
  have hneg : ∀ {r : ℚ}, i.Admits r → (i.scale (-1)).Admits (-r) := by
    intro r hr
    simpa using Interval.admits_scale hr (-1)
  cases comparison with
  | gt => exact absurd rfl hc
  | eq =>
    constructor
    · intro hx
      obtain ⟨p, hp, hpx⟩ := Interval.exists_of_admits_scale (Interval.admits_of_mem hx)
      refine ⟨p, hp, ?_⟩
      change x + p = 0
      push_cast at hpx
      linarith
    · rintro ⟨r, hr, hzero⟩
      have hx : (x : ℚ) = -r := eq_neg_of_add_eq_zero_left hzero
      exact Interval.admits_intCast.mp (hx ▸ hneg hr)
  | ge =>
    have htarget : x ∈ targetOf .ge (i.scale (-1)) ↔ Interval.Above (i.scale (-1)).lo x := by
      unfold targetOf
      dsimp only
      cases (i.scale (-1)).lo with
      | none => exact iff_of_true Interval.mem_top trivial
      | some l => exact Interval.mem_atLeast
    rw [htarget, ← Interval.exists_mem_le_iff (Interval.scale_ne_bottom hi (-1))]
    constructor
    · rintro ⟨z, hz, hle⟩
      obtain ⟨p, hp, hpz⟩ := Interval.exists_of_admits_scale (Interval.admits_of_mem hz)
      refine ⟨p, hp, ?_⟩
      have hle' : (z : ℚ) ≤ x := by exact_mod_cast hle
      change 0 ≤ x + p
      push_cast at hpz
      linarith
    · rintro ⟨r, hr, hnonneg⟩
      obtain ⟨a, -, ha, -, har, -⟩ := hneg hr
      have hnonneg' : 0 ≤ x + r := hnonneg
      have hle : (a : ℚ) ≤ x := by linarith
      exact ⟨a, ha, by exact_mod_cast hle⟩

/-- Some point of the box gives the rest of the row a value with which the row holds for `x` in the place of
`s`. -/
def Supports (b : Box) (e : LinearExpr) (comparison : Comparison) (s : Symbol) (x : ℤ) : Prop :=
  ∃ m : Valuation, b.Admits m ∧ comparison.HoldsAt (e.coeff s * x + (e.without s).value m)

/-- The points of the box support what the range of the rest of the row does not exclude. -/
theorem supports_iff (hb : b ≠ bottom) : b.Supports e comparison s x ↔
    ∃ r : ℚ, (b.rangeOf (e.without s)).Admits r ∧ comparison.HoldsAt (e.coeff s * x + r) := by
  simp only [admits_rangeOf_iff hb]
  constructor
  · rintro ⟨m, hm, hholds⟩
    exact ⟨_, ⟨m, hm, rfl⟩, hholds⟩
  · rintro ⟨_, ⟨m, hm, rfl⟩, hholds⟩
    exact ⟨m, hm, hholds⟩

theorem mem_tighten_iff (hc : comparison ≠ .gt) (hs : e.coeff s ≠ 0) (hint : integral s = true) :
    x ∈ (b.tighten integral e comparison s (e.coeff s)).get s ↔ x ∈ b.get s ∧ b.Supports e comparison s x := by
  by_cases hb : b = bottom
  · subst hb
    exact iff_of_false Interval.not_mem_bottom fun h => Interval.not_mem_bottom h.1
  · rw [tighten, update, get_set_self hb, Interval.mem_meet, hint, Interval.mem_divide hs,
      mem_targetOf_iff hc (rangeOf_ne_bottom hb _), supports_iff hb, Int.cast_mul]

/-- A row has revised the range of `s`: its integers are those that the box supports, and the other ranges
are as they were, unless no integer is left. -/
structure Revision (e : LinearExpr) (comparison : Comparison) (s : Symbol) (b b' : Box) : Prop where
  kept : ∀ x : ℤ, x ∈ b'.get s ↔ x ∈ b.get s ∧ b.Supports e comparison s x
  others : b' ≠ bottom → ∀ t, t ≠ s → b'.get t = b.get t

/-- A row has revised the ranges of the listed symbols one after the other, each over the box that the one
before has left. -/
inductive Revisions (e : LinearExpr) (comparison : Comparison) : List Symbol → Box → Box → Prop
  | nil (b : Box) : Revisions e comparison [] b b
  | cons {s : Symbol} {ss : List Symbol} {b b₁ b' : Box} (first : Revision e comparison s b b₁)
      (rest : Revisions e comparison ss b₁ b') : Revisions e comparison (s :: ss) b b'

theorem revision_tighten (hc : comparison ≠ .gt) (hs : e.coeff s ≠ 0) (hint : integral s = true) :
    Revision e comparison s b (b.tighten integral e comparison s (e.coeff s)) where
  kept := fun _ => mem_tighten_iff hc hs hint
  others := fun hne _ ht => get_set_of_ne hne ht

/-- A revision leaves one box only. -/
theorem Revision.unique (h₁ : Revision e comparison s b b₁) (h₂ : Revision e comparison s b b₂) : b₁ = b₂ := by
  have hget : b₁.get s = b₂.get s := Interval.ext fun x => (h₁.kept x).trans (h₂.kept x).symm
  by_cases hb₁ : b₁ = bottom
  · subst hb₁
    by_contra hb₂
    exact get_ne_bottom (Ne.symm hb₂) s hget.symm
  · have hb₂ : b₂ ≠ bottom := by
      rintro rfl
      exact get_ne_bottom hb₁ s hget
    refine ext_get hb₁ hb₂ fun t => ?_
    by_cases ht : t = s
    · rw [ht, hget]
    · rw [h₁.others hb₁ t ht, h₂.others hb₂ t ht]

theorem Revisions.unique {ss : List Symbol} (h₁ : Revisions e comparison ss b b₁)
    (h₂ : Revisions e comparison ss b b₂) : b₁ = b₂ := by
  induction h₁ with
  | nil b =>
    cases h₂
    rfl
  | cons first _ ih =>
    cases h₂ with
    | cons first' rest' =>
      obtain rfl := first.unique first'
      exact ih rest'

theorem revisions_foldl (hc : comparison ≠ .gt) (hint : ∀ s ∈ e.symbols, integral s = true)
    {ts : List (Symbol × ℤ)} (hts : ∀ t ∈ ts, t ∈ e.terms) (b : Box) :
    Revisions e comparison (ts.map (·.1)) b (ts.foldl (fun b t => b.tighten integral e comparison t.1 t.2) b) := by
  induction ts generalizing b with
  | nil => exact .nil b
  | cons t ts ih =>
    obtain ⟨hcoeff, hne⟩ := LinearExpr.coeff_of_mem_terms (hts t List.mem_cons_self)
    rw [← hcoeff] at hne
    have hfirst := revision_tighten (b := b) hc hne (hint t.1 (LinearExpr.mem_symbols.mpr hne))
    rw [hcoeff] at hfirst
    exact .cons hfirst (ih (fun u hu => hts u (List.mem_cons_of_mem t hu)) _)

theorem revisions_propagate (hc : comparison ≠ .gt) (hint : ∀ s ∈ e.symbols, integral s = true) (b : Box) :
    Revisions e comparison e.symbols b (b.propagate integral e comparison) :=
  revisions_foldl hc hint (fun _ ht => ht) b

end Box

/-- Division by a coefficient is exact for integers and least for rationals, and propagation through a row of
integer symbols is the sequence of exact revisions of their ranges. -/
theorem propagation_exact :
    (∀ (i : Interval) (k : ℤ), k ≠ 0 → i.DividesExactly k) ∧
      ∀ (integral : Symbol → Bool) (e : LinearExpr) (comparison : Comparison) (b b' : Box),
        comparison ≠ .gt → (∀ s ∈ e.symbols, integral s = true) →
        (b.propagate integral e comparison = b' ↔ Box.Revisions e comparison e.symbols b b') := by
  refine ⟨fun i k hk => i.dividesExactly hk, fun integral e comparison b b' hc hint => ?_⟩
  have hpropagate := Box.revisions_propagate hc hint b
  constructor
  · rintro rfl
    exact hpropagate
  · exact hpropagate.unique

/-- The line `2 * x = 3 * y`. -/
def inclined : LinearExpr := .term 2 "x" - .term 3 "y"

def wideField : Box := (Box.top.set "x" (.closed 0 10)).set "y" (.closed 2 5)

def narrowField : Box := (Box.top.set "x" (.closed 3 7)).set "y" (.closed 2 4)

/-- The new range of `x` is what bounds `y` by `4`: the old one reaches up to `y = 6`. -/
theorem propagation_exact_inclined : (Interval.closed (-3) 7).DividesExactly (-2) ∧
    wideField.propagate (fun _ => true) inclined .eq = narrowField ∧
    Box.Revisions inclined .eq ["x", "y"] wideField narrowField := by
  have hpropagate : wideField.propagate (fun _ => true) inclined .eq = narrowField := by decide +kernel
  exact ⟨propagation_exact.1 _ _ (by decide), hpropagate,
    (propagation_exact.2 (fun _ => true) inclined .eq wideField narrowField (by decide) fun _ _ => rfl).mp hpropagate⟩

end PathInvariants

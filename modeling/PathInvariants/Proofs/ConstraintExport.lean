import PathInvariants.Proofs.Entailment

/-!
# Values as conjunctions

A value can be written down as a list of constraints and read back. The list holds the rows and the bounds of
each variable. Conjoining a constraint loses none of its solutions, but it adds only what rows and ranges can
say: an equation that becomes a row, or a bound with a unit coefficient, for which the division by the
coefficient rounds nothing. The constraints of a value are of these two forms, so they are read back exactly.
-/
namespace PathInvariants

namespace LinearExpr

variable {e : LinearExpr} {s : Symbol} {k : ℤ}

theorem terms_eq_singleton (hk : k ≠ 0) (h : ∀ t, e.coeff t = if t = s then k else 0) : e.terms = [(s, k)] := by
  have hcoeffs : e.coeffs = (term k s).coeffs := Sparse.ext fun t => (h t).trans (coeff_term k s t).symm
  rw [terms, hcoeffs]
  simp [term, Sparse.set, Sparse.const, Sparse.place, Sparse.link, hk]

theorem terms_var_sub (s : Symbol) (c : ℤ) : (var s - const c).terms = [(s, 1)] :=
  terms_eq_singleton one_ne_zero fun t => by rw [coeff_sub, var, coeff_term, coeff_const, sub_zero]

theorem terms_sub_var (s : Symbol) (c : ℤ) : (const c - var s).terms = [(s, -1)] := by
  refine terms_eq_singleton (by decide) fun t => ?_
  rw [coeff_sub, var, coeff_term, coeff_const]
  split <;> rfl

theorem without_of_terms (h : e.terms = [(s, k)]) : e.without s = const e.constant := by
  refine ext_coeff (fun t => ?_) rfl
  rw [coeff_without, coeff_const]
  split
  · rfl
  · rename_i hts
    by_contra hne
    have hmem : (t, e.coeff t) ∈ e.terms := Sparse.mem_entries.mpr ⟨rfl, hne⟩
    rw [h, List.mem_singleton] at hmem
    exact hts (congrArg Prod.fst hmem)

theorem value_of_terms (h : e.terms = [(s, k)]) (m : Valuation) : e.value m = k * m s + e.constant := by
  simp [value, h]

end LinearExpr

/-- Division by a unit rounds nothing. -/
theorem Interval.admits_of_divide {i : Interval} {k : ℤ} {integral : Bool} {q : ℚ} (hk : k.natAbs = 1)
    (h : (i.divide k integral).Admits q) : i.Admits (k * q) := by
  cases i with
  | bottom => exact absurd h (not_admits_bottom q)
  | range lo hi ordered =>
    have hmake : make lo hi = range lo hi ordered := dif_pos ordered
    have hceil : ∀ l : ℤ, ceilDiv l 1 = l := by simp [ceilDiv]
    simp only [divide, hk, Nat.cast_one, hceil, Int.fdiv_one, ite_self, Option.map_id'] at h
    rcases Int.natAbs_eq_iff.mp hk with rfl | rfl
    · rw [← hmake]
      simpa using h
    · have hneg := admits_make_neg h
      simpa [Function.comp_def, hmake] using hneg

namespace LinearConstraint

/-- A bound of one symbol with a unit coefficient, or a constraint on no symbol. -/
def IsBound (c : LinearConstraint) : Prop :=
  c.comparison ≠ .gt ∧ ∀ t ∈ c.expr.terms, c.expr.terms = [t] ∧ t.2.natAbs = 1

variable {c : LinearConstraint} {s : Symbol} {k : ℤ} {m : Valuation}

theorem isBound_of_terms (hk : k.natAbs = 1) (hc : c.comparison ≠ .gt) (h : c.expr.terms = [(s, k)]) : c.IsBound := by
  refine ⟨hc, fun t ht => ?_⟩
  rw [h] at ht ⊢
  obtain rfl := List.mem_singleton.mp ht
  exact ⟨rfl, hk⟩

theorem isBound_never : never.IsBound := ⟨by decide, nofun⟩

/-- A bound is in its strongest form already. -/
theorem IsBound.tightened_eq (hc : c.IsBound) : c.tightened = c := by
  obtain ⟨e, comparison⟩ := c
  have hcontent : e.content = 0 ∨ e.content = 1 := by
    cases ht : e.terms with
    | nil => exact .inl (by simp [LinearExpr.content, ht])
    | cons t ts =>
      obtain ⟨hterms, hunit⟩ := hc.2 t (by simp [ht])
      exact .inr (by simp [LinearExpr.content, hterms, hunit])
  cases comparison with
  | gt => exact absurd rfl hc.1
  | ge => exact if_pos hcontent
  | eq => exact if_pos hcontent

theorem holdsAt_of_constantTruth (h : c.constantTruth? = some true) (m : Valuation) : c.HoldsAt m := by
  obtain ⟨e, comparison⟩ := c
  unfold constantTruth? at h
  split at h
  · rename_i hconst
    have hterms : e.terms = [] := List.isEmpty_iff.mp hconst
    have hvalue : e.value m = e.constant := by simp [LinearExpr.value, hterms]
    have hholds : comparison.holds e.constant = true := Option.some.inj h
    rw [HoldsAt, hvalue]
    cases comparison <;> simpa [Comparison.HoldsAt, Comparison.holds] using hholds
  · cases h

/-- An equation stays one in its strongest form, unless it has no integral solution. -/
theorem comparison_tightened (hc : c.comparison = .eq) (h : c.tightened.constantTruth? = none) :
    c.tightened.comparison = .eq := by
  obtain ⟨e, comparison⟩ := c
  obtain rfl : comparison = .eq := hc
  change (reduced e .eq).constantTruth? = none at h
  change (reduced e .eq).comparison = .eq
  unfold reduced at h ⊢
  dsimp only at h ⊢
  split
  · rfl
  · rename_i hcontent
    rw [if_neg hcontent] at h
    split
    · rfl
    · rename_i hdivides
      rw [if_neg hdivides] at h
      cases h

end LinearConstraint

namespace Box

variable {b : Box} {e : LinearExpr} {comparison : Comparison} {s : Symbol} {k : ℤ} {integral : Symbol → Bool}
  {m : Valuation}

theorem holdsAt_of_targetOf {c : ℤ} {p : ℚ} (hc : comparison ≠ .gt)
    (h : (targetOf comparison ((Interval.point c).scale (-1))).Admits p) : comparison.HoldsAt (p + c) := by
  have hpoint : (Interval.point c).scale (-1) = .point (-c) := by
    simp [Interval.point, Interval.make, Interval.scale, boundsOrdered]
  rw [hpoint] at h
  cases comparison with
  | gt => exact absurd rfl hc
  | eq =>
    have hp := Interval.eq_of_singleton (c := -c) (by simp [targetOf, Interval.point, Interval.make,
      Interval.singleton?, boundsOrdered]) h
    rw [hp]
    simp [Comparison.HoldsAt]
  | ge =>
    have hp := Interval.lo_le (l := -c) (by simp [targetOf, Interval.point, Interval.make, Interval.lo,
      Interval.atLeast, boundsOrdered]) h
    push_cast at hp
    change 0 ≤ p + c
    linarith

/-- A box that a unit bound has tightened satisfies the bound. -/
theorem holdsAt_of_propagate (hc : comparison ≠ .gt) (he : e.terms = [(s, k)]) (hk : k.natAbs = 1)
    (h : (b.propagate integral e comparison).Admits m) : comparison.HoldsAt (e.value m) := by
  have hb : b ≠ bottom := ne_bottom (admits_of_admits_propagate h)
  rw [propagate, he, List.foldl_cons, List.foldl_nil] at h
  obtain ⟨hs, -⟩ := (admits_set hb).mp h
  have htarget := Interval.admits_of_divide hk (Interval.admits_meet.mp hs).2
  rw [LinearExpr.without_of_terms he] at htarget
  rw [LinearExpr.value_of_terms he]
  exact holdsAt_of_targetOf hc htarget

end Box

theorem Environment.track_of_contains {env : Environment} {symbols : List Symbol}
    (h : ∀ s ∈ symbols, env.contains s = true) : env.track symbols = env := by
  induction symbols with
  | nil => rfl
  | cons s ss ih =>
    rw [track, List.foldl_cons, if_pos (h s (by simp))]
    exact ih fun t ht => h t (by simp [ht])

namespace Value

variable {domain : Domain} {env : Environment} {v : Value} {c : LinearConstraint} {cs listed : List LinearConstraint}
  {m : Valuation} {s : Symbol}

/-- Reduction only tightens, whatever symbols are integral. -/
theorem allows_of_allows_reduce (h : v.reduce.Allows m) : v.Allows m := by
  unfold reduce at h
  dsimp only at h
  split at h
  · exact absurd h (not_allows_collapse v m)
  · split at h
    · exact h
    · split at h
      · exact absurd h (not_allows_collapse v m)
      · split at h
        · exact absurd h (not_allows_collapse v m)
        · have hbox := admits_of_foldl_propagate h.1
          exact ⟨hbox, fun hr => (solvedBy_allEqualities hbox).mp (h.2 hr)⟩

/-- The constraints that rows and ranges can express. -/
def Expresses (domain : Domain) (c : LinearConstraint) : Prop :=
  c.IsBound ∨ c.comparison = .eq ∧ domain = .intervalEqualities

theorem holdsAt_of_allows_constrain (hc : Expresses v.domain c) (h : (v.constrain c).Allows m) :
    v.Allows m ∧ ((v.track c.expr).sharpen c).HoldsAt m := by
  unfold constrain at h
  dsimp only at h
  split at h
  · rename_i hb
    exact absurd h (not_allows_of_isBottom hb m)
  · split at h
    · rename_i htrue
      exact ⟨h, LinearConstraint.holdsAt_of_constantTruth htrue m⟩
    · exact absurd h (not_allows_collapse _ m)
    · rename_i hopen
      obtain ⟨hbox, heqs⟩ := allows_of_allows_reduce h
      refine ⟨⟨Box.admits_of_admits_propagate hbox, fun hr => ?_⟩, ?_⟩
      · have hsolved := heqs hr
        dsimp only at hsolved
        split at hsolved
        · exact ((Equalities.solvedBy_add _ _ _).mp hsolved).1
        · exact hsolved
      · rcases hc with hbound | ⟨heq, hdomain⟩
        · -- The constraint is its own strongest form, and the box takes it in.
          have hsame : (v.track c.expr).sharpen c = c := by
            rw [sharpen, hbound.tightened_eq, ite_self]
          rw [hsame] at hbox hopen ⊢
          cases hterms : c.expr.terms with
          | nil =>
            have hconst : c.expr.isConstant = true := List.isEmpty_iff.mpr hterms
            simp [LinearConstraint.constantTruth?, hconst] at hopen
          | cons t ts =>
            obtain ⟨hsingle, hunit⟩ := hbound.2 t (by simp [hterms])
            exact Box.holdsAt_of_propagate hbound.1 hsingle hunit hbox
        · -- The equation becomes a row.
          have hcomparison : ((v.track c.expr).sharpen c).comparison = .eq := by
            unfold sharpen at hopen ⊢
            split
            · rename_i hall
              rw [if_pos hall] at hopen
              exact LinearConstraint.comparison_tightened heq hopen
            · exact heq
          have hr : (v.track c.expr).isRelational = true := by simp [isRelational, track, hdomain]
          have hsolved := heqs hr
          dsimp only at hsolved
          rw [if_pos ⟨hcomparison, hr⟩, Equalities.solvedBy_add] at hsolved
          rw [LinearConstraint.HoldsAt, hcomparison]
          exact hsolved.2

/-- Every symbol of the constraint is tracked. -/
def Covers (env : Environment) (c : LinearConstraint) : Prop := ∀ s, c.expr.coeff s ≠ 0 → env.contains s = true

theorem track_of_covers (hc : Covers v.env c) : v.track c.expr = v := by
  have henv : v.env.track c.expr.symbols = v.env :=
    Environment.track_of_contains fun s hs => hc s (LinearExpr.mem_symbols.mp hs)
  rw [track, henv]

theorem env_constrain_of_covers (hc : Covers v.env c) : (v.constrain c).env = v.env :=
  (env_constrain v c).trans (congrArg Value.env (track_of_covers hc))

/-- Conjoining a constraint on tracked symbols keeps its solutions. -/
theorem constrain_mem_concretization (hv : v.Formed domain) (hc : Covers v.env c) (hm : m ∈ v.concretization)
    (h : c.HoldsAt m) : m ∈ (v.constrain c).concretization := by
  have henv := env_constrain_of_covers hc
  have hscoped := hv.composed.scoped
  -- Nothing depends on the symbols that are not tracked, so they may be taken to be zero.
  let m' : Valuation := fun s => if v.env.contains s then m s else 0
  have hsame : ∀ s, v.env.contains s = true → m' s = m s := fun s hs => if_pos hs
  have hint : (v.constrain c).env.IntegralAt m' := by
    intro s hs
    rw [henv] at hs
    cases hcontains : v.env.contains s with
    | false => exact ⟨0, by simp [m', hcontains]⟩
    | true =>
      rw [hsame s hcontains]
      exact exists_int_of_mem_concretization hm hcontains (by simpa [isIntegral] using hs)
  have hallows : v.Allows m' := by
    refine Unbound.allows_congr (fun s => ?_) hm.2.allows
    cases hcontains : v.env.contains s with
    | false => exact .inr (hscoped s hcontains)
    | true => exact .inl (hsame s hcontains).symm
  have hholds : c.HoldsAt m' := by
    rw [LinearConstraint.HoldsAt, LinearExpr.value_congr fun s hs => hsame s (hc s hs)]
    exact h
  have hback : (v.constrain c).Allows m := by
    refine Unbound.allows_congr (fun s => ?_) (allows_constrain hint hholds hallows)
    cases hcontains : v.env.contains s with
    | false => exact .inr (hscoped.constrain c s (by rw [henv]; exact hcontains))
    | true => exact .inl (hsame s hcontains)
  refine ⟨fun s hs => hm.1 s (by rwa [henv] at hs), ?_⟩
  exact hback.admits (hv.constrain c).ordered.kind ValueKind.rowless_ofDomain

/-- Conjoining a constraint that rows and ranges can express is exact. -/
theorem mem_concretization_constrain (hv : v.Formed domain) (hc : Covers v.env c) (hexpr : Expresses domain c) :
    m ∈ (v.constrain c).concretization ↔ m ∈ v.concretization ∧ c.HoldsAt m := by
  refine ⟨fun hm => ?_, fun hm => constrain_mem_concretization hv hc hm.1 hm.2⟩
  have hdomain : v.domain = domain := hv.ordered.kind.1
  obtain ⟨hallows, hsharp⟩ := holdsAt_of_allows_constrain (by rwa [hdomain]) hm.2.allows
  have hmem : m ∈ v.concretization := by
    refine ⟨fun s hs => hm.1 s (by rwa [env_constrain_of_covers hc]), ?_⟩
    exact hallows.admits hv.ordered.kind ValueKind.rowless_ofDomain
  rw [track_of_covers hc] at hsharp
  exact ⟨hmem, holdsAt_of_sharpen hc hmem hsharp⟩

theorem mem_concretization_constrainAll (hv : v.Formed domain) (hcs : ∀ c ∈ cs, Covers v.env c ∧ Expresses domain c) :
    m ∈ (v.constrainAll cs).concretization ↔ m ∈ v.concretization ∧ ∀ c ∈ cs, c.HoldsAt m := by
  induction cs generalizing v with
  | nil => simp [constrainAll]
  | cons c cs ih =>
    obtain ⟨hcovers, hexpr⟩ := hcs c (by simp)
    have hrest : ∀ d ∈ cs, Covers (v.constrain c).env d ∧ Expresses domain d := by
      intro d hd
      rw [env_constrain_of_covers hcovers]
      exact hcs d (by simp [hd])
    rw [constrainAll, List.foldl_cons, List.forall_mem_cons, ← and_assoc, ← mem_concretization_constrain hv hcovers hexpr]
    exact ih (hv.constrain c) hrest

section Export

/-- The bounds of a symbol hold where its range allows, given the equations already listed. -/
theorem holdsAt_boundsOf_iff (hs : v.rangeOf s ≠ .bottom) (hlisted : ∀ c ∈ listed, c.HoldsAt m) :
    (∀ c ∈ v.boundsOf listed s, c.HoldsAt m) ↔ (v.rangeOf s).Admits (m s) := by
  have hpoint : ∀ n : ℤ, (LinearConstraint.eq (.var s - .const n)).HoldsAt m ↔ m s = n := by
    intro n
    simp [LinearConstraint.HoldsAt, LinearConstraint.eq, Comparison.HoldsAt, LinearExpr.value_sub, sub_eq_zero]
  unfold boundsOf
  dsimp only
  split
  · rename_i n hn
    have hadmits : (v.rangeOf s).Admits (m s) ↔ m s = n := by
      refine ⟨Interval.eq_of_singleton hn, fun h => ?_⟩
      rw [h, Interval.eq_point_of_singleton hn, Interval.admits_intCast, Interval.mem_point]
    split
    · rename_i hcontains
      refine iff_of_true (fun c hc => absurd hc List.not_mem_nil) (hadmits.mpr ?_)
      exact (hpoint n).mp (hlisted _ (List.contains_iff_mem.mp hcontains))
    · rw [hadmits, ← hpoint n, List.forall_mem_singleton]
  · cases hrange : v.rangeOf s with
    | bottom => exact absurd hrange hs
    | range lower upper _ =>
      rw [Interval.admits_range]
      cases lower <;> cases upper <;>
        simp [Interval.lo, Interval.hi, LinearConstraint.HoldsAt, LinearConstraint.ge, Comparison.HoldsAt,
          LinearExpr.value_sub]

theorem mem_boundsOf (hc : c ∈ v.boundsOf listed s) : c.IsBound ∧ ∀ t, c.expr.coeff t ≠ 0 → t = s := by
  have hterms : c.comparison ≠ .gt ∧ ∃ k : ℤ, k.natAbs = 1 ∧ c.expr.terms = [(s, k)] := by
    unfold boundsOf at hc
    dsimp only at hc
    split at hc
    · split at hc
      · cases hc
      · obtain rfl := List.mem_singleton.mp hc
        exact ⟨nofun, 1, rfl, LinearExpr.terms_var_sub s _⟩
    · rcases List.mem_append.mp hc with hc | hc
      · obtain ⟨lo, -, rfl⟩ := List.mem_map.mp hc
        exact ⟨nofun, 1, rfl, LinearExpr.terms_var_sub s lo⟩
      · obtain ⟨hi, -, rfl⟩ := List.mem_map.mp hc
        exact ⟨nofun, -1, rfl, LinearExpr.terms_sub_var s hi⟩
  obtain ⟨hgt, k, hk, hterms⟩ := hterms
  refine ⟨LinearConstraint.isBound_of_terms hk hgt hterms, fun t ht => ?_⟩
  have hmem : (t, c.expr.coeff t) ∈ c.expr.terms := Sparse.mem_entries.mpr ⟨rfl, ht⟩
  rw [hterms, List.mem_singleton] at hmem
  exact congrArg Prod.fst hmem

theorem holdsAt_foldl_boundsOf_iff {symbols : List Symbol} (hb : v.isBottom = false) :
    (∀ c ∈ symbols.foldl (fun listed s => listed ++ v.boundsOf listed s) listed, c.HoldsAt m) ↔
      (∀ c ∈ listed, c.HoldsAt m) ∧ ∀ s ∈ symbols, (v.rangeOf s).Admits (m s) := by
  induction symbols generalizing listed with
  | nil => simp
  | cons s ss ih =>
    have hrange : v.rangeOf s ≠ .bottom := Box.get_ne_bottom (isBottom_eq_false.mp hb) s
    rw [List.foldl_cons, ih, List.forall_mem_append, List.forall_mem_cons, ← and_assoc]
    refine and_congr_left' (and_congr_right fun hlisted => ?_)
    exact holdsAt_boundsOf_iff hrange hlisted

theorem mem_foldl_boundsOf {symbols : List Symbol}
    (hc : c ∈ symbols.foldl (fun listed s => listed ++ v.boundsOf listed s) listed) :
    c ∈ listed ∨ c.IsBound ∧ ∀ t, c.expr.coeff t ≠ 0 → t ∈ symbols := by
  induction symbols generalizing listed with
  | nil => exact .inl hc
  | cons s ss ih =>
    rcases ih hc with hc | ⟨hbound, hmem⟩
    · rcases List.mem_append.mp hc with hc | hc
      · exact .inl hc
      · obtain ⟨hbound, honly⟩ := mem_boundsOf hc
        exact .inr ⟨hbound, fun t ht => by simp [honly t ht]⟩
    · exact .inr ⟨hbound, fun t ht => by simp [hmem t ht]⟩

/-- The constraints of a value hold exactly where its ranges and equations do. -/
theorem holdsAt_toConstraints_iff (hv : v.Scoped) : (∀ c ∈ v.toConstraints, c.HoldsAt m) ↔ v.Admits m := by
  unfold toConstraints
  split
  · rename_i hb
    rw [List.forall_mem_singleton]
    exact iff_of_false (LinearConstraint.not_holdsAt_never m) fun h => not_allows_of_isBottom hb m h.allows
  · rename_i hb
    have hb : v.isBottom = false := by simpa using hb
    rw [holdsAt_foldl_boundsOf_iff hb, and_comm, List.forall_mem_map]
    refine and_congr ⟨fun h s => ?_, fun h s _ => h s⟩ Iff.rfl
    cases hs : v.env.contains s with
    | true => exact h s (Sparse.mem_support.mpr (Environment.contains_iff.mp hs))
    | false =>
      rw [(hv s hs).1.resolve_left (isBottom_eq_false.mp hb)]
      exact Interval.admits_top _

/-- The constraints of a value are on its variables, and rows and ranges can express them. -/
theorem covers_toConstraints (hv : v.Formed domain) (hc : c ∈ v.toConstraints) :
    Covers v.env c ∧ Expresses domain c := by
  unfold toConstraints at hc
  split at hc
  · obtain rfl := List.mem_singleton.mp hc
    exact ⟨fun s hs => absurd rfl hs, .inl LinearConstraint.isBound_never⟩
  · rcases mem_foldl_boundsOf hc with hc | ⟨hbound, hsymbols⟩
    · obtain ⟨row, hrow, rfl⟩ := List.mem_map.mp hc
      refine ⟨fun s hs => ?_, .inr ⟨rfl, ?_⟩⟩
      · cases hcontains : v.env.contains s with
        | true => rfl
        | false => exact absurd ((hv.composed.scoped s hcontains).2 row hrow) hs
      · cases hdomain : domain with
        | intervalEqualities => rfl
        | intervals =>
          rw [hv.ordered.kind.2 (by simp [ValueKind.ofDomain, hdomain])] at hrow
          cases hrow
    · exact ⟨fun s hs => Environment.contains_iff.mpr (Sparse.mem_support.mp (hsymbols s hs)), .inl hbound⟩

theorem mem_concretization_top : m ∈ (top domain env).concretization ↔
    ∀ s, env.kindOf s = some .int → ∃ n : ℤ, m s = n :=
  ⟨fun h => h.1, fun h => ⟨h, Box.admits_top m, Equalities.solvedBy_empty m⟩⟩

/-- The constraints of a value describe what the value describes, and so does the value that is built from them. -/
theorem toConstraints_roundtrip (hv : v ∈ Over domain env) :
    {m : Valuation | (∀ s, env.kindOf s = some .int → ∃ n : ℤ, m s = n) ∧ ∀ c ∈ v.toConstraints, c.HoldsAt m} =
        v.concretization ∧
      ((top domain env).constrainAll v.toConstraints).concretization = v.concretization := by
  obtain ⟨hformed, rfl⟩ := hv
  have hexport : ∀ m, m ∈ v.concretization ↔
      (∀ s, v.env.kindOf s = some .int → ∃ n : ℤ, m s = n) ∧ ∀ c ∈ v.toConstraints, c.HoldsAt m := fun m =>
    and_congr_right fun _ => (holdsAt_toConstraints_iff hformed.composed.scoped).symm
  have hcovers : ∀ c ∈ v.toConstraints, Covers (top domain v.env).env c ∧ Expresses domain c := fun c hc =>
    covers_toConstraints (v := v) hformed hc
  refine ⟨Set.ext fun m => (hexport m).symm, Set.ext fun m => ?_⟩
  rw [mem_concretization_constrainAll (.top v.env) hcovers, mem_concretization_top, hexport]

/-- Over a real and an integer, with `x = 2 r + 1` and `3 x ≥ 1`: the row is listed first, and then the bounds that
propagation has found for both variables. -/
theorem toConstraints_roundtrip_half :
    let v := ((top .intervalEqualities mixedEnv).constrain (.eq (.var "x" - .term 2 "r" - .const 1))).constrain
      (.ge (.term 3 "x" - .const 1))
    v ∈ Over .intervalEqualities mixedEnv ∧
      v.toConstraints = [.eq (.term 2 "r" - .var "x" + .const 1), .ge (.var "r"), .ge (.var "x" - .const 1)] ∧
      {m : Valuation | (∀ s, mixedEnv.kindOf s = some .int → ∃ n : ℤ, m s = n) ∧ ∀ c ∈ v.toConstraints, c.HoldsAt m} =
        v.concretization ∧
      ((top .intervalEqualities mixedEnv).constrainAll v.toConstraints).concretization = v.concretization := by
  intro v
  have hv : v ∈ Over .intervalEqualities mixedEnv := ⟨.constrain (.constrain (.top _) _) _, by decide +kernel⟩
  exact ⟨hv, by decide +kernel, toConstraints_roundtrip hv⟩

end Export

end Value

end PathInvariants

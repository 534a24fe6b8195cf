import PathInvariants.Value
import PathInvariants.Proofs.BoxPoints
import PathInvariants.Proofs.EqualitySolutions

/-!
# States of abstract values

The valuations an abstract value stands for, and what each operation does to them. Assignments,
havocs and constraints follow the states, joins and widenings keep the states of both sides, meets
and reductions are exact, and the order is inclusion.
-/
namespace PathInvariants

namespace Environment

/-- Integral on everything but the reals. -/
def IntegralAt (env : Environment) (m : Valuation) : Prop := ∀ s, env.kindOf s ≠ some .real → ∃ n : ℤ, m s = n

theorem integralAt_intCast (env : Environment) (σ : Symbol → ℤ) : env.IntegralAt fun s => (σ s : ℚ) :=
  fun s _ => ⟨σ s, rfl⟩

theorem contains_iff {env : Environment} {s : Symbol} : env.contains s = true ↔ env.get s ≠ none := by
  rw [contains, Option.isSome_iff_ne_none]

theorem contains_add {env env' : Environment} {s : Symbol} {kind : NumericKind} (h : env.add s (some kind) = .ok env') :
    env'.contains s = true ∧ ∀ t, env.contains t = true → env'.contains t = true := by
  have hset : env' = Sparse.set env s (some kind) := by
    cases kind <;> simp only [add] at h <;> split at h <;> simp_all
  subst hset
  simp only [contains_iff, Sparse.get_set]
  refine ⟨by simp, fun t ht => ?_⟩
  split
  · simp
  · exact ht

theorem contains_foldlM_add {kind : NumericKind} {symbols : List Symbol} {env env' : Environment}
    (h : symbols.foldlM (fun e s => add e s (some kind)) env = .ok env') :
    (∀ s ∈ symbols, env'.contains s = true) ∧ ∀ t, env.contains t = true → env'.contains t = true := by
  induction symbols generalizing env with
  | nil =>
    obtain rfl : env = env' := by simpa [pure, Except.pure] using h
    simp
  | cons s ss ih =>
    rw [List.foldlM_cons] at h
    cases hadd : add env s (some kind) with
    | error f =>
      rw [hadd] at h
      cases h
    | ok e =>
      rw [hadd] at h
      obtain ⟨hss, hkeep⟩ := ih h
      obtain ⟨hs, hkeep'⟩ := contains_add hadd
      refine ⟨fun t ht => ?_, fun t ht => hkeep t (hkeep' t ht)⟩
      rcases List.mem_cons.mp ht with rfl | ht
      · exact hkeep _ hs
      · exact hss t ht

/-- A union holds the variables of both sides. -/
theorem contains_union {env env' u : Environment} (h : env.union env' = .ok u) {s : Symbol}
    (hs : env.contains s = true ∨ env'.contains s = true) : u.contains s = true := by
  unfold union at h
  cases hints : env'.ints.foldlM (fun e s => add e s (some .int)) env with
  | error f =>
    rw [hints] at h
    cases h
  | ok withInts =>
    rw [hints] at h
    obtain ⟨hi, hkeep⟩ := contains_foldlM_add hints
    obtain ⟨hr, hkeep'⟩ := contains_foldlM_add h
    rcases hs with hs | hs
    · exact hkeep' s (hkeep s hs)
    · have hsupport : s ∈ Sparse.support env' := Sparse.mem_support.mpr (contains_iff.mp hs)
      cases hkind : Sparse.get env' s with
      | none => exact absurd hkind (contains_iff.mp hs)
      | some kind =>
        cases kind with
        | int => exact hkeep' s (hi s (List.mem_filter.mpr ⟨hsupport, by simp [hkind]⟩))
        | real => exact hr s (List.mem_filter.mpr ⟨hsupport, by simp [hkind]⟩)

/-- The given symbols are tracked as reals only, and all others as integers only. -/
def Respects (reals : Set Symbol) (env : Environment) : Prop :=
  ∀ s kind, env.kindOf s = some kind → (s ∈ reals ↔ kind = .real)

variable {reals : Set Symbol} {env env' : Environment} {symbols : List Symbol} {s : Symbol} {kind : NumericKind}

theorem Respects.set (h : env.Respects reals) (hs : s ∈ reals ↔ kind = .real) :
    Respects reals (Sparse.set env s (some kind)) := by
  intro t kind' ht
  rw [kindOf, Sparse.get_set] at ht
  split at ht
  · rename_i hts
    rw [hts, ← Option.some.inj ht]
    exact hs
  · exact h t kind' ht

theorem Respects.exists_add (h : env.Respects reals) (hs : s ∈ reals ↔ kind = .real) :
    ∃ u, env.add s (some kind) = .ok u ∧ u.Respects reals := by
  refine ⟨Sparse.set env s (some kind), ?_, h.set hs⟩
  cases kind with
  | int =>
    refine if_neg fun hreal => ?_
    exact absurd (hs.mp ((h s _ hreal).mpr rfl)) nofun
  | real =>
    refine if_neg fun hint => ?_
    exact absurd ((h s _ hint).mp (hs.mpr rfl)) nofun

theorem Respects.exists_foldlM_add {kinds : Symbol → VariableKind} (h : env.Respects reals)
    (hs : ∀ s ∈ symbols, ∀ kind, kinds s = some kind → (s ∈ reals ↔ kind = .real)) :
    ∃ u, symbols.foldlM (fun e s => add e s (kinds s)) env = .ok u ∧ u.Respects reals := by
  induction symbols generalizing env with
  | nil => exact ⟨env, rfl, h⟩
  | cons t ts ih =>
    obtain ⟨e, he, hrespects⟩ : ∃ e, env.add t (kinds t) = .ok e ∧ e.Respects reals := by
      cases hkind : kinds t with
      | none => exact ⟨env, rfl, h⟩
      | some kind => exact h.exists_add (hs t (by simp) kind hkind)
    obtain ⟨u, hu, hu'⟩ := ih hrespects fun s hmem => hs s (by simp [hmem])
    refine ⟨u, ?_, hu'⟩
    rw [List.foldlM_cons, he]
    exact hu

/-- Environments that agree on the reals have a common environment. -/
theorem Respects.exists_union (h : env.Respects reals) (h' : env'.Respects reals) :
    ∃ u, env.union env' = .ok u ∧ u.Respects reals := by
  have hints : ∀ s ∈ env'.ints, ∀ kind, some NumericKind.int = some kind → (s ∈ reals ↔ kind = .real) := by
    rintro s hs kind ⟨⟩
    exact h' s .int (eq_of_beq (List.mem_filter.mp hs).2)
  have hreals : ∀ s ∈ env'.reals, ∀ kind, some NumericKind.real = some kind → (s ∈ reals ↔ kind = .real) := by
    rintro s hs kind ⟨⟩
    exact h' s .real (eq_of_beq (List.mem_filter.mp hs).2)
  obtain ⟨withInts, hi, hwith⟩ := h.exists_foldlM_add hints
  obtain ⟨u, hu, hrespects⟩ := hwith.exists_foldlM_add hreals
  refine ⟨u, ?_, hrespects⟩
  rw [union, hi]
  exact hu

theorem add_of_kindOf {env : Environment} {s : Symbol} {kind : NumericKind} (h : env.kindOf s = some kind) :
    env.add s (some kind) = .ok env := by
  have hset : Sparse.set env s (some kind) = env := Sparse.ext fun t => by
    rw [Sparse.get_set]
    split
    · rename_i hts
      rw [hts]
      exact h.symm
    · rfl
  have hget : Sparse.get env s = some kind := h
  cases kind <;> simp [add, hget, hset]

theorem foldlM_add_of_kindOf {env : Environment} {symbols : List Symbol} {kind : NumericKind}
    (h : ∀ s ∈ symbols, env.kindOf s = some kind) : symbols.foldlM (fun e s => add e s (some kind)) env = .ok env := by
  induction symbols with
  | nil => rfl
  | cons s ss ih =>
    rw [List.foldlM_cons, add_of_kindOf (h s (by simp))]
    exact ih fun t ht => h t (by simp [ht])

@[simp] theorem union_self (env : Environment) : env.union env = .ok env := by
  have hints : env.ints.foldlM (fun e s => add e s (some .int)) env = .ok env :=
    foldlM_add_of_kindOf fun s hs => eq_of_beq (List.mem_filter.mp hs).2
  have hreals : env.reals.foldlM (fun e s => add e s (some .real)) env = .ok env :=
    foldlM_add_of_kindOf fun s hs => eq_of_beq (List.mem_filter.mp hs).2
  rw [union, hints]
  exact hreals

end Environment

/-- A family of values that the operations stay in: one domain, and for intervals on request no
equations. -/
structure ValueKind where
  domain : Domain
  rowless : Bool
  intervals : rowless = true → domain = .intervals

namespace Value

/-- Every range and every equation holds. -/
def Admits (v : Value) (m : Valuation) : Prop := v.box.Admits m ∧ v.eqs.SolvedBy m

/-- Every range holds, and every equation of a value that keeps equations. -/
def Allows (v : Value) (m : Valuation) : Prop := v.box.Admits m ∧ (v.isRelational = true → v.eqs.SolvedBy m)

def OfKind (k : ValueKind) (v : Value) : Prop := v.domain = k.domain ∧ (k.rowless = true → v.eqs = .empty)

variable {k : ValueKind} {v w : Value} {m : Valuation}

theorem Admits.allows (h : v.Admits m) : v.Allows m := ⟨h.1, fun _ => h.2⟩

/-- The equations of a relational value hold where it allows, and a rowless one has none. -/
theorem Allows.admits (h : v.Allows m) (hv : v.OfKind k) (hk : k.domain = .intervals → k.rowless = true) :
    v.Admits m := by
  refine ⟨h.1, ?_⟩
  cases hd : k.domain with
  | intervals =>
    rw [hv.2 (hk hd)]
    exact Equalities.solvedBy_empty m
  | intervalEqualities => exact h.2 (by rw [isRelational, hv.1, hd]; rfl)

theorem not_allows_of_isBottom (h : v.isBottom = true) (m : Valuation) : ¬ v.Allows m := fun hv =>
  Box.ne_bottom hv.1 (Box.isBottom_iff.mp h)

theorem allows_top (domain : Domain) (env : Environment) (m : Valuation) : (top domain env).Allows m :=
  ⟨Box.admits_top m, fun _ => Equalities.solvedBy_empty m⟩

theorem ofKind_top (env : Environment) : (top k.domain env).OfKind k := ⟨rfl, fun _ => rfl⟩

theorem ofKind_bottom (env : Environment) : (bottom k.domain env).OfKind k := ⟨rfl, fun _ => rfl⟩

theorem OfKind.collapse (hv : v.OfKind k) : v.collapse.OfKind k := ⟨hv.1, fun _ => rfl⟩

theorem not_allows_collapse (v : Value) (m : Valuation) : ¬ v.collapse.Allows m :=
  not_allows_of_isBottom rfl m

theorem OfKind.relational (hv : v.OfKind k) (hw : w.OfKind k) : v.isRelational = w.isRelational := by
  rw [isRelational, isRelational, hv.1, hw.1]

/-- A rowless kind is not relational. -/
theorem OfKind.not_rowless (hv : v.OfKind k) (hr : v.isRelational = true) : ¬ k.rowless = true := by
  intro hk
  rw [isRelational, hv.1, k.intervals hk] at hr
  exact absurd hr (by decide)

theorem solvedBy_fixedSymbols (h : v.box.Admits m) : ∀ e ∈ v.fixedSymbols, e.value m = 0 := by
  intro e he
  obtain ⟨⟨s, i⟩, hs, hi⟩ := List.mem_filterMap.mp he
  obtain ⟨c, hc, rfl⟩ := Option.map_eq_some_iff.mp hi
  have hget : v.box.get s = i := by
    cases hb : v.box with
    | bottom => simp [hb, Box.bindings] at hs
    | ranges f hf =>
      rw [hb] at hs
      exact (Sparse.mem_entries.mp hs).1
  have hadmits := h s
  rw [hget] at hadmits
  simp [LinearExpr.value_sub, Interval.eq_of_singleton hc hadmits]

theorem solvedBy_allEqualities (h : v.box.Admits m) : v.allEqualities.SolvedBy m ↔ v.eqs.SolvedBy m := by
  unfold allEqualities
  split
  · rfl
  · rw [Equalities.solvedBy_extend]
    exact and_iff_left (solvedBy_fixedSymbols h)

theorem env_reduce (v : Value) : v.reduce.env = v.env := by
  unfold reduce
  dsimp only
  split
  · rfl
  · split
    · rfl
    · split
      · rfl
      · split <;> rfl

theorem OfKind.reduce (hv : v.OfKind k) : v.reduce.OfKind k := by
  unfold Value.reduce
  dsimp only
  split
  · exact hv.collapse
  · split
    · exact hv
    · rename_i hr
      split
      · exact hv.collapse
      · split
        · exact hv.collapse
        · exact ⟨hv.1, fun hk => absurd hk (hv.not_rowless (by simpa using hr))⟩

theorem admits_foldl_propagate {integral : Symbol → Bool} {rows : List LinearExpr} {b : Box}
    (hm : ∀ s, integral s = true → ∃ n : ℤ, m s = n) (hb : b.Admits m) (hrows : ∀ e ∈ rows, e.value m = 0) :
    (rows.foldl (fun b row => b.propagate integral row .eq) b).Admits m := by
  induction rows generalizing b with
  | nil => exact hb
  | cons e rows ih =>
    exact ih (Box.admits_propagate hb hm (hrows e (by simp))) fun f hf => hrows f (by simp [hf])

theorem admits_of_foldl_propagate {integral : Symbol → Bool} {rows : List LinearExpr} {b : Box}
    (h : (rows.foldl (fun b row => b.propagate integral row .eq) b).Admits m) : b.Admits m := by
  induction rows generalizing b with
  | nil => exact h
  | cons e rows ih => exact Box.admits_of_admits_propagate (ih h)

theorem integral_of_integralAt (hm : v.env.IntegralAt m) : ∀ s, v.isIntegral s = true → ∃ n : ℤ, m s = n :=
  fun s hs => hm s (by simpa [isIntegral] using hs)

/-- Reduction is exact. -/
theorem allows_reduce (hm : v.env.IntegralAt m) : v.reduce.Allows m ↔ v.Allows m := by
  unfold reduce
  dsimp only
  split
  · rename_i hb
    exact iff_of_false (not_allows_collapse v m) (not_allows_of_isBottom hb m)
  · split
    · rfl
    · rename_i hr
      have hr : v.isRelational = true := by simpa using hr
      have hall : v.Allows m → v.allEqualities.SolvedBy m := fun h => (solvedBy_allEqualities h.1).mpr (h.2 hr)
      have hbox : v.Allows m → (v.allEqualities.rows.foldl (fun b row => b.propagate v.isIntegral row .eq)
          v.box).Admits m := fun h => admits_foldl_propagate (integral_of_integralAt hm) h.1 (hall h)
      split
      · rename_i hu
        exact iff_of_false (not_allows_collapse v m) fun h =>
          Equalities.not_solvedBy_of_isUnsatisfiable hu m (hall h)
      · split
        · rename_i hb
          exact iff_of_false (not_allows_collapse v m) fun h =>
            Box.ne_bottom (hbox h) (Box.isBottom_iff.mp hb)
        · constructor
          · intro h
            have hv := admits_of_foldl_propagate h.1
            exact ⟨hv, fun _ => (solvedBy_allEqualities hv).mp (h.2 hr)⟩
          · exact fun h => ⟨hbox h, fun _ => hall h⟩

theorem env_assign (v : Value) (s : Symbol) (e : LinearExpr) :
    (v.assign s e).env = v.env.track (e + .var s).symbols := by
  unfold assign
  dsimp only
  split
  · rfl
  · rw [env_reduce]
    rfl

theorem OfKind.assign (hv : v.OfKind k) (s : Symbol) (e : LinearExpr) : (v.assign s e).OfKind k := by
  unfold Value.assign
  dsimp only
  split
  · exact hv
  · refine OfKind.reduce ⟨hv.1, fun hk => ?_⟩
    dsimp only
    split
    · exact hv.2 hk
    · rename_i hr
      have hr : (v.track (e + .var s)).isRelational = true := by simpa using hr
      exact absurd hk (OfKind.not_rowless (v := v) hv hr)

/-- An assignment takes the states to their successors. -/
theorem allows_assign {s : Symbol} {e : LinearExpr}
    (hm : (v.assign s e).env.IntegralAt (Function.update m s (e.value m))) (h : v.Allows m) :
    (v.assign s e).Allows (Function.update m s (e.value m)) := by
  rw [env_assign] at hm
  unfold assign
  dsimp only
  split
  · rename_i hb
    exact absurd h (not_allows_of_isBottom hb m)
  · refine (allows_reduce hm).mpr ⟨?_, fun hr => ?_⟩
    · have hoff : ∀ t, t ≠ s → Function.update m s (e.value m) t = m t := fun t ht => Function.update_of_ne ht _ _
      have hforget := Box.admits_forget hoff h.1
      refine (Box.admits_set (Box.ne_bottom hforget)).mpr ⟨?_, fun t _ => hforget t⟩
      rw [Function.update_self]
      exact Box.admits_rangeOf h.1 e
    · have hr : v.isRelational = true := hr
      have hsolved := h.2 hr
      dsimp only
      rw [show (v.track (e + .var s)).isRelational = true from hr]
      simp only [Bool.not_true, Bool.false_eq_true, if_false]
      split
      · exact Equalities.solvedBy_substitute hsolved
      · rename_i hmention
        have hc : e.coeff s = 0 := by
          by_contra hne
          exact hmention (LinearExpr.mentions_iff.mpr hne)
        rw [Equalities.solvedBy_add]
        refine ⟨Equalities.solvedBy_project (fun t ht => Function.update_of_ne ht _ _) hsolved, ?_⟩
        rw [LinearExpr.value_sub, LinearExpr.value_var, Function.update_self, LinearExpr.value_update hc, sub_self]

theorem OfKind.forget (hv : v.OfKind k) (s : Symbol) : (v.forget s).OfKind k := by
  refine ⟨hv.1, fun hk => ?_⟩
  change v.eqs.project s = .empty
  rw [hv.2 hk]
  rfl

/-- A havoc frees one symbol. -/
theorem allows_forget {s : Symbol} {m' : Valuation} (hm : ∀ t, t ≠ s → m' t = m t) (h : v.Allows m) :
    (v.forget s).Allows m' :=
  ⟨Box.admits_forget hm h.1, fun hr => Equalities.solvedBy_project hm (h.2 hr)⟩

theorem env_constrain (v : Value) (c : LinearConstraint) : (v.constrain c).env = v.env.track c.expr.symbols := by
  unfold constrain
  dsimp only
  split
  · rfl
  · split
    · rfl
    · rfl
    · rw [env_reduce]
      rfl

theorem OfKind.constrain (hv : v.OfKind k) (c : LinearConstraint) : (v.constrain c).OfKind k := by
  have htrack : (v.track c.expr).OfKind k := hv
  unfold Value.constrain
  dsimp only
  split
  · exact htrack
  · split
    · exact htrack
    · exact htrack.collapse
    · refine OfKind.reduce ⟨hv.1, fun hk => ?_⟩
      dsimp only
      split
      · rename_i hr
        exact absurd hk (htrack.not_rowless hr.2)
      · exact hv.2 hk

theorem holdsAt_sharpen {c : LinearConstraint} (hm : v.env.IntegralAt m) (h : c.HoldsAt m) :
    (v.sharpen c).HoldsAt m := by
  unfold sharpen
  split
  · rename_i hall
    refine (LinearConstraint.holdsAt_tightened fun s hs => ?_).mpr h
    exact integral_of_integralAt hm s (List.all_eq_true.mp hall s (LinearExpr.mem_symbols.mpr hs))
  · exact h

theorem constantTruth_of_holdsAt {c : LinearConstraint} (h : c.HoldsAt m) : c.constantTruth? ≠ some false := by
  unfold LinearConstraint.constantTruth?
  split
  · rename_i hc
    rw [LinearExpr.isConstant, List.isEmpty_iff] at hc
    have hv : c.expr.value m = c.expr.constant := by
      rw [LinearExpr.value, LinearExpr.terms, hc]
      simp
    unfold LinearConstraint.HoldsAt at h
    rw [hv] at h
    intro hfalse
    have hfalse : c.comparison.holds c.expr.constant = false := Option.some.inj hfalse
    cases hcmp : c.comparison <;> rw [hcmp] at h hfalse <;>
      simp only [Comparison.HoldsAt, Comparison.holds, decide_eq_false_iff_not] at h hfalse <;>
      exact hfalse (by exact_mod_cast h)
  · exact (Option.some_ne_none false).symm

/-- A constraint keeps the states that satisfy it. -/
theorem allows_constrain {c : LinearConstraint} (hm : (v.constrain c).env.IntegralAt m) (hc : c.HoldsAt m)
    (h : v.Allows m) : (v.constrain c).Allows m := by
  rw [env_constrain] at hm
  have hc' : ((v.track c.expr).sharpen c).HoldsAt m := holdsAt_sharpen (v := v.track c.expr) hm hc
  unfold constrain
  dsimp only
  split
  · exact h
  · split
    · exact h
    · rename_i hfalse
      exact absurd hfalse (constantTruth_of_holdsAt hc')
    · refine (allows_reduce hm).mpr
        ⟨Box.admits_propagate h.1 (integral_of_integralAt (v := v.track c.expr) hm) hc', fun hr => ?_⟩
      dsimp only
      split
      · rename_i heq
        rw [Equalities.solvedBy_add]
        refine ⟨h.2 hr, ?_⟩
        have hvalue := hc'
        rw [LinearConstraint.HoldsAt, heq.1] at hvalue
        exact hvalue
      · exact h.2 hr

theorem OfKind.constrainAll (hv : v.OfKind k) (cs : List LinearConstraint) : (v.constrainAll cs).OfKind k := by
  unfold Value.constrainAll
  induction cs generalizing v with
  | nil => exact hv
  | cons c cs ih => exact ih (hv.constrain c)

theorem OfKind.withEnv (hv : v.OfKind k) (env : Environment) : (v.withEnv env).OfKind k := by
  unfold Value.withEnv
  generalize (v.env.symbols.filter fun s => !env.contains s) = dropped
  induction dropped generalizing v with
  | nil => exact hv
  | cons s ss ih => exact ih (hv.forget s)

theorem allows_withEnv {env : Environment} (h : v.Allows m) : (v.withEnv env).Allows m := by
  unfold withEnv
  generalize (v.env.symbols.filter fun s => !env.contains s) = dropped
  induction dropped generalizing v with
  | nil => exact h
  | cons s ss ih => exact ih (allows_forget (fun _ _ => rfl) h)

/-- Nothing is dropped on the way to a larger environment. -/
theorem withEnv_of_subset {env : Environment} (h : ∀ s, v.env.contains s = true → env.contains s = true) :
    v.withEnv env = { v with env } := by
  have hnil : (v.env.symbols.filter fun s => !env.contains s) = [] := by
    refine List.filter_eq_nil_iff.mpr fun s hs => ?_
    simp [h s (Environment.contains_iff.mpr (Sparse.mem_support.mp hs))]
  unfold withEnv
  rw [hnil]
  rfl

theorem solvedBy_join_allEqualities (hv : v.OfKind k) (hw : w.OfKind k) (hr : v.isRelational = true)
    (h : v.Allows m ∨ w.Allows m) : (v.allEqualities.join w.allEqualities).SolvedBy m := by
  refine Equalities.solvedBy_join (h.imp (fun h => ?_) fun h => ?_)
  · exact (solvedBy_allEqualities h.1).mpr (h.2 hr)
  · exact (solvedBy_allEqualities h.1).mpr (h.2 (by rw [hw.relational hv]; exact hr))

theorem OfKind.joinAligned (hv : v.OfKind k) (hw : w.OfKind k) : (v.joinAligned w).OfKind k := by
  unfold Value.joinAligned
  split
  · exact hv
  · split
    · exact ⟨hv.1, hw.2⟩
    · refine ⟨hv.1, fun hk => ?_⟩
      dsimp only
      split
      · rename_i hr
        exact absurd hk (hv.not_rowless hr)
      · exact hv.2 hk

theorem allows_joinAligned (hv : v.OfKind k) (hw : w.OfKind k) (h : v.Allows m ∨ w.Allows m) :
    (v.joinAligned w).Allows m := by
  unfold joinAligned
  split
  · rename_i hb
    exact h.resolve_right (not_allows_of_isBottom hb m)
  · split
    · rename_i hb
      have hwm := h.resolve_left (not_allows_of_isBottom hb m)
      exact ⟨hwm.1, fun hr => hwm.2 (by rw [hw.relational hv]; exact hr)⟩
    · refine ⟨Box.admits_join (h.imp (·.1) (·.1)), fun hr => ?_⟩
      have hr : v.isRelational = true := hr
      dsimp only
      rw [if_pos hr]
      exact solvedBy_join_allEqualities hv hw hr h

theorem OfKind.joinOver {ws : List Value} (hv : v.OfKind k) (hws : ∀ w ∈ ws, w.OfKind k) (env : Environment) :
    (v.joinOver env ws).OfKind k := by
  unfold Value.joinOver
  have hstart := hv.withEnv env
  generalize v.withEnv env = u at hstart
  induction ws generalizing u with
  | nil => exact hstart
  | cons w ws ih =>
    exact ih (fun x hx => hws x (by simp [hx])) _ (hstart.joinAligned ((hws w (by simp)).withEnv env))

/-- A join keeps the states of all its parts. -/
theorem allows_joinOver {ws : List Value} {env : Environment} (hv : v.OfKind k) (hws : ∀ w ∈ ws, w.OfKind k)
    (h : v.Allows m ∨ ∃ w ∈ ws, w.Allows m) : (v.joinOver env ws).Allows m := by
  unfold joinOver
  have hstart := hv.withEnv env
  replace h : (v.withEnv env).Allows m ∨ ∃ w ∈ ws, w.Allows m := h.imp_left allows_withEnv
  generalize v.withEnv env = u at hstart h
  induction ws generalizing u with
  | nil => simpa using h
  | cons w ws ih =>
    have hw := (hws w (by simp)).withEnv env
    refine ih (fun x hx => hws x (by simp [hx])) _ (hstart.joinAligned hw) ?_
    rcases h with h | ⟨x, hx, hxm⟩
    · exact .inl (allows_joinAligned hstart hw (.inl h))
    · rcases List.mem_cons.mp hx with rfl | hx
      · exact .inl (allows_joinAligned hstart hw (.inr (allows_withEnv hxm)))
      · exact .inr ⟨x, hx, hxm⟩

theorem join_eq {u : Value} (h : v.join w = .ok u) : ∃ env, u = v.joinOver env [w] := by
  unfold join at h
  cases hu : v.env.union w.env with
  | error f =>
    rw [hu] at h
    cases h
  | ok env =>
    rw [hu] at h
    exact ⟨env, (Except.ok.inj h).symm⟩

theorem OfKind.join {u : Value} (hv : v.OfKind k) (hw : w.OfKind k) (h : v.join w = .ok u) : u.OfKind k := by
  obtain ⟨env, rfl⟩ := join_eq h
  exact hv.joinOver (by simpa using hw) env

theorem allows_join {u : Value} (hv : v.OfKind k) (hw : w.OfKind k) (h : v.join w = .ok u)
    (hm : v.Allows m ∨ w.Allows m) : u.Allows m := by
  obtain ⟨env, rfl⟩ := join_eq h
  exact allows_joinOver hv (by simpa using hw) (by simpa using hm)

theorem OfKind.widenAligned (hv : v.OfKind k) (hw : w.OfKind k) (thresholds : List LinearConstraint) :
    (Value.widenAligned thresholds v w).OfKind k := by
  unfold Value.widenAligned
  split
  · exact hv
  · split
    · exact ⟨hv.1, hw.2⟩
    · refine ⟨hv.1, fun hk => ?_⟩
      dsimp only
      split
      · rename_i hr
        exact absurd hk (hv.not_rowless hr)
      · exact hv.2 hk

theorem allows_widenAligned (hv : v.OfKind k) (hw : w.OfKind k) (thresholds : List LinearConstraint)
    (h : v.Allows m ∨ w.Allows m) : (widenAligned thresholds v w).Allows m := by
  unfold widenAligned
  split
  · rename_i hb
    exact h.resolve_right (not_allows_of_isBottom hb m)
  · split
    · rename_i hb
      have hwm := h.resolve_left (not_allows_of_isBottom hb m)
      exact ⟨hwm.1, fun hr => hwm.2 (by rw [hw.relational hv]; exact hr)⟩
    · refine ⟨Box.admits_widenTo (.inr (Box.admits_join (h.imp (·.1) (·.1)))), fun hr => ?_⟩
      have hr : v.isRelational = true := hr
      dsimp only
      rw [if_pos hr]
      exact solvedBy_join_allEqualities hv hw hr h

/-- An operation that needs a common environment runs on the two values over their union. -/
theorem align_eq {p : Value × Value} (h : v.align w = .ok p) :
    ∃ env, v.env.union w.env = .ok env ∧ p = ({ v with env }, { w with env }) := by
  unfold align at h
  cases hu : v.env.union w.env with
  | error f =>
    rw [hu] at h
    cases h
  | ok env =>
    rw [hu] at h
    refine ⟨env, rfl, ?_⟩
    have hp : (v.withEnv env, w.withEnv env) = p := Except.ok.inj h
    rw [← hp, withEnv_of_subset fun s hs => Environment.contains_union hu (.inl hs),
      withEnv_of_subset fun s hs => Environment.contains_union hu (.inr hs)]

theorem widenTo_eq {thresholds : List LinearConstraint} {u : Value} (h : v.widenTo thresholds w = .ok u) :
    ∃ env, u = widenAligned thresholds { v with env } { w with env } := by
  unfold widenTo at h
  cases ha : v.align w with
  | error f =>
    rw [ha] at h
    cases h
  | ok p =>
    rw [ha] at h
    obtain ⟨env, -, rfl⟩ := align_eq ha
    exact ⟨env, (Except.ok.inj h).symm⟩

theorem OfKind.widenTo {thresholds : List LinearConstraint} {u : Value} (hv : v.OfKind k) (hw : w.OfKind k)
    (h : Value.widenTo thresholds v w = .ok u) : u.OfKind k := by
  obtain ⟨env, rfl⟩ := widenTo_eq h
  exact OfKind.widenAligned (v := { v with env }) (w := { w with env }) hv hw thresholds

/-- A widening keeps the states of both sides. -/
theorem allows_widenTo {thresholds : List LinearConstraint} {u : Value} (hv : v.OfKind k) (hw : w.OfKind k)
    (h : Value.widenTo thresholds v w = .ok u) (hm : v.Allows m ∨ w.Allows m) : u.Allows m := by
  obtain ⟨env, rfl⟩ := widenTo_eq h
  exact allows_widenAligned (v := { v with env }) (w := { w with env }) hv hw thresholds hm

theorem meet_eq {u : Value} (h : v.meet w = .ok u) :
    ∃ env, u.env = env ∧ u = if v.isBottom then { v with env } else
      reduce { v with env, box := v.box.meet w.box, eqs := v.eqs.meet w.eqs } := by
  unfold meet at h
  cases ha : v.align w with
  | error f =>
    rw [ha] at h
    cases h
  | ok p =>
    rw [ha] at h
    obtain ⟨env, -, rfl⟩ := align_eq ha
    have hu := (Except.ok.inj h).symm
    refine ⟨env, ?_, hu⟩
    rw [hu]
    change (if v.isBottom then _ else _ : Value).env = env
    split
    · rfl
    · rw [env_reduce]

theorem OfKind.meet {u : Value} (hv : v.OfKind k) (hw : w.OfKind k) (h : v.meet w = .ok u) : u.OfKind k := by
  obtain ⟨env, -, rfl⟩ := meet_eq h
  split
  · exact hv
  · refine OfKind.reduce ⟨hv.1, fun hk => ?_⟩
    change v.eqs.meet w.eqs = .empty
    rw [hv.2 hk, hw.2 hk]
    rfl

/-- A meet holds exactly the common states. -/
theorem allows_meet {u : Value} (hv : v.OfKind k) (hw : w.OfKind k) (h : v.meet w = .ok u)
    (hm : u.env.IntegralAt m) : u.Allows m ↔ v.Allows m ∧ w.Allows m := by
  obtain ⟨env, henv, rfl⟩ := meet_eq h
  split
  · rename_i hb
    exact iff_of_false (not_allows_of_isBottom (v := { v with env }) hb m) fun h => not_allows_of_isBottom hb m h.1
  · rename_i hb
    rw [if_neg hb, env_reduce] at hm
    refine (allows_reduce hm).trans ?_
    have hrel : w.isRelational = v.isRelational := hw.relational hv
    change ((v.box.meet w.box).Admits m ∧ (v.isRelational = true → (v.eqs.meet w.eqs).SolvedBy m)) ↔ _
    rw [Box.admits_meet, Equalities.solvedBy_meet, Allows, Allows, hrel]
    tauto

theorem narrow_eq {u : Value} (h : v.narrow w = .ok u) :
    ∃ env, u.env = env ∧ u = if v.isBottom then { v with env } else if w.isBottom then collapse { v with env } else
      reduce { v with env, box := v.box.narrow w.box, eqs := v.eqs.meet w.eqs } := by
  unfold narrow at h
  cases ha : v.align w with
  | error f =>
    rw [ha] at h
    cases h
  | ok p =>
    rw [ha] at h
    obtain ⟨env, -, rfl⟩ := align_eq ha
    have hu := (Except.ok.inj h).symm
    refine ⟨env, ?_, hu⟩
    rw [hu]
    change (if v.isBottom then _ else if w.isBottom then _ else _ : Value).env = env
    split
    · rfl
    · split
      · rfl
      · rw [env_reduce]

theorem OfKind.narrow {u : Value} (hv : v.OfKind k) (hw : w.OfKind k) (h : v.narrow w = .ok u) : u.OfKind k := by
  obtain ⟨env, -, rfl⟩ := narrow_eq h
  split
  · exact hv
  · split
    · exact OfKind.collapse (v := { v with env }) hv
    · refine OfKind.reduce ⟨hv.1, fun hk => ?_⟩
      change v.eqs.meet w.eqs = .empty
      rw [hv.2 hk, hw.2 hk]
      rfl

/-- A narrowing lies between the meet and the first value. -/
theorem allows_narrow {u : Value} (hv : v.OfKind k) (hw : w.OfKind k) (h : v.narrow w = .ok u)
    (hm : u.env.IntegralAt m) : (v.Allows m → w.Allows m → u.Allows m) ∧ (u.Allows m → v.Allows m) := by
  obtain ⟨env, henv, rfl⟩ := narrow_eq h
  split
  · exact ⟨fun hvm _ => hvm, id⟩
  · rename_i hb
    split
    · rename_i hwb
      exact ⟨fun _ hwm => absurd hwm (not_allows_of_isBottom hwb m), fun hu =>
        absurd hu (not_allows_collapse { v with env } m)⟩
    · rename_i hwb
      rw [if_neg hb, if_neg hwb, env_reduce] at hm
      rw [allows_reduce hm]
      have hrel : w.isRelational = v.isRelational := hw.relational hv
      change (v.Allows m → w.Allows m → (v.box.narrow w.box).Admits m ∧
          (v.isRelational = true → (v.eqs.meet w.eqs).SolvedBy m)) ∧
        ((v.box.narrow w.box).Admits m ∧ (v.isRelational = true → (v.eqs.meet w.eqs).SolvedBy m) → v.Allows m)
      simp only [Equalities.solvedBy_meet]
      exact ⟨fun hvm hwm => ⟨Box.admits_narrow hvm.1 hwm.1, fun hr => ⟨hvm.2 hr, hwm.2 (hrel.trans hr)⟩⟩,
        fun hu => ⟨Box.admits_of_admits_narrow hu.1, fun hr => (hu.2 hr).1⟩⟩

/-- The order is inclusion. -/
theorem allows_of_leq (hv : v.OfKind k) (hw : w.OfKind k) (h : v.leq w = true) (hm : v.Allows m) : w.Allows m := by
  unfold leq at h
  split at h
  · rename_i hb
    exact absurd hm (not_allows_of_isBottom hb m)
  · split at h
    · exact absurd h (by decide)
    · rw [Bool.and_eq_true, Bool.or_eq_true] at h
      refine ⟨Box.admits_of_leq h.1 hm.1, fun hr e he => ?_⟩
      have hr : v.isRelational = true := by rw [hv.relational hw]; exact hr
      rcases h.2 with hempty | hall
      · rw [Equalities.isEmpty, List.isEmpty_iff] at hempty
        simp [hempty] at he
      · exact Equalities.value_of_implies (List.all_eq_true.mp hall e he)
          ((solvedBy_allEqualities hm.1).mpr (hm.2 hr))

theorem env_joinAligned (v w : Value) : (v.joinAligned w).env = v.env := by
  unfold joinAligned
  split
  · rfl
  · split <;> rfl

theorem env_widenAligned (thresholds : List LinearConstraint) (v w : Value) :
    (widenAligned thresholds v w).env = v.env := by
  unfold widenAligned
  split
  · rfl
  · split <;> rfl

/-- Over a common environment nothing is dropped. -/
theorem align_of_union {env : Environment} (hu : v.env.union w.env = .ok env) :
    v.align w = .ok ({ v with env }, { w with env }) := by
  rw [align, hu, ← withEnv_of_subset fun s hs => Environment.contains_union hu (.inl hs),
    ← withEnv_of_subset fun s hs => Environment.contains_union hu (.inr hs)]
  rfl

theorem env_of_meet {u : Value} {env : Environment} (ha : v.align w = .ok ({ v with env }, { w with env })) (h : v.meet w = .ok u) :
    u.env = env := by
  simp only [meet, ha] at h
  obtain rfl := Except.ok.inj h
  split
  · rfl
  · exact env_reduce _

theorem env_of_narrow {u : Value} {env : Environment} (ha : v.align w = .ok ({ v with env }, { w with env }))
    (h : v.narrow w = .ok u) : u.env = env := by
  simp only [narrow, ha] at h
  obtain rfl := Except.ok.inj h
  split
  · rfl
  · split
    · rfl
    · exact env_reduce _

/-- The value read as one of another domain. -/
def recast (v : Value) (domain : Domain) : Value := { v with domain }

theorem OfKind.recast (hv : v.OfKind k) : v.recast k.domain = v := by
  obtain ⟨domain, env, box, eqs⟩ := v
  obtain rfl : domain = k.domain := hv.1
  rfl

/-- A meet does not look at the domain of its second operand. -/
theorem meet_recast (v w : Value) (domain : Domain) : v.meet (w.recast domain) = v.meet w := by
  unfold meet
  cases hu : v.env.union w.env with
  | error f =>
    have hu' : v.env.union (w.recast domain).env = .error f := hu
    rw [align, align, hu, hu']
    rfl
  | ok env =>
    rw [align_of_union hu, align_of_union (w := w.recast domain) hu]
    rfl

theorem env_joinOver (v : Value) (env : Environment) (ws : List Value) : (v.joinOver env ws).env = env := by
  unfold joinOver
  have hstart : (v.withEnv env).env = env := rfl
  generalize v.withEnv env = u at hstart
  induction ws generalizing u with
  | nil => exact hstart
  | cons w ws ih => exact ih _ ((env_joinAligned _ _).trans hstart)

theorem withEnv_self (v : Value) : v.withEnv v.env = v := withEnv_of_subset fun _ hs => hs

section SameEnvironment

variable (henv : v.env = w.env)

include henv

theorem union_of_env : v.env.union w.env = .ok v.env := by rw [← henv, Environment.union_self]

theorem align_of_env : v.align w = .ok (v, w) := by
  have hw : { w with env := v.env } = w := by rw [henv]
  rw [align_of_union (union_of_env henv), hw]

theorem joinOver_of_env : v.joinOver v.env [w] = v.joinAligned w := by
  simp only [joinOver, List.foldl_cons, List.foldl_nil, withEnv_self]
  rw [henv, withEnv_self]

theorem join_of_env : v.join w = .ok (v.joinAligned w) := by
  rw [join, union_of_env henv, ← joinOver_of_env henv]
  rfl

theorem widenTo_of_env (thresholds : List LinearConstraint) :
    v.widenTo thresholds w = .ok (widenAligned thresholds v w) := by
  rw [widenTo, align_of_env henv]
  rfl

theorem exists_meet_of_env : ∃ u, v.meet w = .ok u ∧ u.env = v.env := by
  obtain ⟨u, hu⟩ : ∃ u, v.meet w = .ok u := by
    rw [meet, align_of_env henv]
    exact ⟨_, rfl⟩
  exact ⟨u, hu, env_of_meet (align_of_union (union_of_env henv)) hu⟩

end SameEnvironment

end Value

end PathInvariants

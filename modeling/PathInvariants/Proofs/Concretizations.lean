import PathInvariants.Proofs.ValueLattice

/-!
# Concretizations

A value describes the valuations that lie in its box, solve its equalities and are integral on its
integer variables. No operation says anything of a symbol that its result does not track, not even an
assignment that leaves its own target untracked: there the assigned expression is unbounded, because
the target was. So what a value says, it says of its variables.
-/
namespace PathInvariants

theorem Environment.contains_track_of_mem {env : Environment} {symbols : List Symbol} {s : Symbol} (h : s ∈ symbols) :
    (env.track symbols).contains s = true := by
  induction symbols generalizing env with
  | nil => cases h
  | cons t ts ih =>
    rcases List.mem_cons.mp h with rfl | h
    · rw [track, List.foldl_cons]
      refine contains_track ?_
      split
      · assumption
      · rw [contains, Sparse.get_set, if_pos rfl]
        rfl
    · exact ih h

/-- An expression is unbounded on a box that leaves one of its symbols unbounded. -/
theorem Box.rangeOf_eq_top {b : Box} {s : Symbol} {e : LinearExpr} (hb : b ≠ bottom) (hs : b.Unbound s)
    (he : e.coeff s ≠ 0) : b.rangeOf e = .top := by
  have htop : b.get s = .top := hs.resolve_left hb
  obtain ⟨m, hm, -⟩ := exists_of_mem_get (b := b) (s := s) (n := 0) (by rw [htop]; exact Interval.mem_top)
  refine Interval.ext fun n => iff_of_true ?_ Interval.mem_top
  -- The symbol alone can bring the expression to the value `n`.
  let q : ℚ := m s + (n - e.value m) / e.coeff s
  have hmoved : b.Admits (Function.update m s q) := hm.update (by rw [htop]; exact Interval.admits_top q)
  have hvalue : e.value (Function.update m s q) = n := by
    have hne : (e.coeff s : ℚ) ≠ 0 := by exact_mod_cast he
    rw [LinearExpr.value_update_eq]
    simp only [q, add_sub_cancel_left]
    rw [mul_div_cancel₀ _ hne]
    ring
  have hrange := admits_rangeOf hmoved e
  rwa [hvalue, Interval.admits_intCast] at hrange

/-- A substitution for a symbol that no row mentions leaves the rows alone. -/
theorem Equalities.Unbound.substitute_self {q : Equalities} {s : Symbol} (h : q.Unbound s) (e : LinearExpr) :
    (q.substitute s e).Unbound s := by
  refine unbound_ofRows fun f hf => ?_
  obtain ⟨row, hrow, rfl⟩ := List.mem_map.mp hf
  have hfree : ¬ row.mentions s = true := fun hs => LinearExpr.mentions_iff.mp hs (h row hrow)
  rw [if_neg hfree]
  exact h row hrow

namespace Value

variable {domain : Domain} {env : Environment} {u v w : Value} {ws : List Value} {m : Valuation} {s t : Symbol}
  {e : LinearExpr}

/-- The valuations that the value describes. -/
def concretization (v : Value) : Set Valuation :=
  {m | (∀ s, v.env.kindOf s = some .int → ∃ n : ℤ, m s = n) ∧ v.Admits m}

/-- An assignment that inverts an unbound symbol leaves it unbound. -/
theorem Unbound.assign_self (h : v.Unbound s) (he : e.coeff s ≠ 0) : (v.assign s e).Unbound s := by
  unfold Value.assign
  dsimp only
  split
  · exact h
  · rename_i hb
    have hne : v.box ≠ .bottom := isBottom_eq_false.mp (by simpa [Value.isBottom, track] using hb)
    have htop : v.box.rangeOf e = .top := Box.rangeOf_eq_top hne h.1 he
    refine Unbound.reduce ⟨(h.1.set (.inr rfl)).set (.inr htop), ?_⟩
    dsimp only
    split
    · exact h.2
    · rw [if_pos (LinearExpr.mentions_iff.mpr he)]
      exact h.2.substitute_self e

/-- The value says nothing of symbols that it does not track. -/
def Scoped (v : Value) : Prop := ∀ s, v.env.contains s = false → v.Unbound s

theorem coeff_eq_zero_of_track (h : (env.track e.symbols).contains s = false) : e.coeff s = 0 := by
  by_contra hne
  rw [Environment.contains_track_of_mem (LinearExpr.mem_symbols.mpr hne)] at h
  cases h

/-- Operands that have been aligned have a common environment. -/
theorem exists_union_of_align {f : Value × Value → Except Fault Value} (h : v.align w >>= f = .ok u) :
    ∃ env, v.env.union w.env = .ok env := by
  cases hu : v.env.union w.env with
  | error fault =>
    rw [align, hu] at h
    cases h
  | ok env => exact ⟨env, rfl⟩

namespace Scoped

theorem assign (hv : v.Scoped) (s : Symbol) (e : LinearExpr) : (v.assign s e).Scoped := by
  intro t ht
  rw [env_assign] at ht
  have hfree := hv t (free_of_track ht)
  have hsum := coeff_eq_zero_of_track ht
  rw [LinearExpr.coeff_add, LinearExpr.var, LinearExpr.coeff_term] at hsum
  by_cases hts : t = s
  · subst hts
    rw [if_pos rfl] at hsum
    exact hfree.assign_self (by omega)
  · rw [if_neg hts, add_zero] at hsum
    exact hfree.assign hsum hts

theorem forget (hv : v.Scoped) (s : Symbol) : (v.forget s).Scoped := fun t ht => (hv t ht).forget s

theorem constrain (hv : v.Scoped) (c : LinearConstraint) : (v.constrain c).Scoped := by
  intro t ht
  rw [env_constrain] at ht
  exact (hv t (free_of_track ht)).constrain (coeff_eq_zero_of_track ht)

theorem withEnv (hv : v.Scoped) (env : Environment) : (v.withEnv env).Scoped := by
  intro t ht
  refine unbound_withEnv ?_
  cases hc : v.env.contains t with
  | false => exact .inl (hv t hc)
  | true => exact .inr ⟨rfl, ht⟩

theorem joinOver (hv : v.Scoped) (hws : ∀ w ∈ ws, w.Scoped) (env : Environment) : (v.joinOver env ws).Scoped := by
  intro t ht
  rw [env_joinOver] at ht
  unfold Value.joinOver
  have hstart := hv.withEnv env t ht
  generalize v.withEnv env = u at hstart
  induction ws generalizing u with
  | nil => exact hstart
  | cons w ws ih =>
    exact ih (fun x hx => hws x (by simp [hx])) _ (hstart.joinAligned ((hws w (by simp)).withEnv env t ht))

theorem join (hv : v.Scoped) (hw : w.Scoped) (h : v.join w = .ok u) : u.Scoped := by
  obtain ⟨env, rfl⟩ := join_eq h
  exact hv.joinOver (by simpa using hw) env

/-- An operation over the common environment stays in scope when it binds what the two sides bind. -/
theorem of_union (hv : v.Scoped) (hw : w.Scoped) (henv : v.env.union w.env = .ok env) (hu : u.env = env)
    (hbinds : ∀ s, v.Unbound s → w.Unbound s → u.Unbound s) : u.Scoped := by
  intro t ht
  rw [hu] at ht
  obtain ⟨hfv, hfw⟩ := free_of_union henv ht
  exact hbinds t (hv t hfv) (hw t hfw)

theorem meet (hv : v.Scoped) (hw : w.Scoped) (h : v.meet w = .ok u) : u.Scoped := by
  obtain ⟨env, henv⟩ := exists_union_of_align h
  have halign := align_of_union henv
  refine hv.of_union hw henv (env_of_meet halign h) fun s hvs hws => ?_
  simp only [Value.meet, halign] at h
  obtain rfl := Except.ok.inj h
  split
  · exact hvs
  · exact Unbound.reduce ⟨hvs.1.below Interval.neutral_meet hws.1, hvs.2.meet hws.2⟩

theorem narrow (hv : v.Scoped) (hw : w.Scoped) (h : v.narrow w = .ok u) : u.Scoped := by
  obtain ⟨env, henv⟩ := exists_union_of_align h
  have halign := align_of_union henv
  refine hv.of_union hw henv (env_of_narrow halign h) fun s hvs hws => ?_
  simp only [Value.narrow, halign] at h
  obtain rfl := Except.ok.inj h
  split
  · exact hvs
  · split
    · exact unbound_collapse _ s
    · exact Unbound.reduce ⟨hvs.1.below Interval.neutral_narrow hws.1, hvs.2.meet hws.2⟩

theorem widenTo {thresholds : List LinearConstraint} (hv : v.Scoped) (hw : w.Scoped)
    (h : v.widenTo thresholds w = .ok u) : u.Scoped := by
  obtain ⟨env, henv⟩ := exists_union_of_align h
  simp only [Value.widenTo, align_of_union henv] at h
  obtain rfl := Except.ok.inj h
  refine hv.of_union hw henv (env_widenAligned _ _ _) fun s hvs hws => ?_
  exact Unbound.widenAligned (v := { v with env }) (w := { w with env }) thresholds hvs hws

end Scoped

/-- The values that the operations build, from operands of any domain. -/
inductive Composed : Value → Prop
  | top (domain : Domain) (env : Environment) : Composed (top domain env)
  | bottom (domain : Domain) (env : Environment) : Composed (bottom domain env)
  | assign {v : Value} (hv : Composed v) (s : Symbol) (e : LinearExpr) : Composed (v.assign s e)
  | forget {v : Value} (hv : Composed v) (s : Symbol) : Composed (v.forget s)
  | constrain {v : Value} (hv : Composed v) (c : LinearConstraint) : Composed (v.constrain c)
  | withEnv {v : Value} (hv : Composed v) (env : Environment) : Composed (v.withEnv env)
  | joinOver {v : Value} {ws : List Value} (hv : Composed v) (hws : ∀ w ∈ ws, Composed w) (env : Environment) :
      Composed (v.joinOver env ws)
  | join {v w u : Value} (hv : Composed v) (hw : Composed w) (h : v.join w = .ok u) : Composed u
  | meet {v w u : Value} (hv : Composed v) (hw : Composed w) (h : v.meet w = .ok u) : Composed u
  | narrow {v w u : Value} (hv : Composed v) (hw : Composed w) (h : v.narrow w = .ok u) : Composed u
  | widenTo {v w u : Value} {thresholds : List LinearConstraint} (hv : Composed v) (hw : Composed w)
      (h : v.widenTo thresholds w = .ok u) : Composed u

theorem Formed.composed (h : Formed domain v) : v.Composed := by
  induction h with
  | top env => exact .top domain env
  | bottom env => exact .bottom domain env
  | assign _ s e ih => exact ih.assign s e
  | forget _ s ih => exact ih.forget s
  | constrain _ c ih => exact ih.constrain c
  | withEnv _ env ih => exact ih.withEnv env
  | joinOver _ _ env ih ihs => exact ih.joinOver ihs env
  | join _ _ h ihv ihw => exact ihv.join ihw h
  | meet _ _ h ihv ihw => exact ihv.meet ihw h
  | narrow _ _ h ihv ihw => exact ihv.narrow ihw h
  | widenTo _ _ h ihv ihw => exact ihv.widenTo ihw h

theorem Composed.canonical (h : v.Composed) : v.eqs.Canonical := by
  induction h with
  | top => exact Equalities.canonical_empty
  | bottom => exact Equalities.canonical_empty
  | assign _ s e ih => exact canonical_assign ih s e
  | forget _ s ih => exact canonical_forget ih s
  | constrain _ c ih => exact canonical_constrain ih c
  | withEnv _ env ih => exact canonical_withEnv ih env
  | joinOver _ _ env ih ihs => exact canonical_joinOver ih ihs env
  | join _ _ h ihv ihw => exact canonical_join ihv ihw h
  | meet _ _ h ihv _ => exact canonical_meet ihv h
  | narrow _ _ h ihv _ => exact canonical_narrow ihv h
  | widenTo _ _ h ihv ihw => exact canonical_widenTo ihv ihw h

theorem Composed.scoped (h : v.Composed) : v.Scoped := by
  induction h with
  | top domain env => exact fun s _ => unbound_top domain env s
  | bottom domain env => exact fun s _ => unbound_bottom domain env s
  | assign _ s e ih => exact ih.assign s e
  | forget _ s ih => exact ih.forget s
  | constrain _ c ih => exact ih.constrain c
  | withEnv _ env ih => exact ih.withEnv env
  | joinOver _ _ env ih ihs => exact ih.joinOver ihs env
  | join _ _ h ihv ihw => exact ihv.join ihw h
  | meet _ _ h ihv ihw => exact ihv.meet ihw h
  | narrow _ _ h ihv ihw => exact ihv.narrow ihw h
  | widenTo _ _ h ihv ihw => exact ihv.widenTo ihw h

/-- What lies above a value describes its valuations. -/
theorem admits_of_leq (hv : v.eqs.Canonical) (h : v.leq w = true) (hm : v.Admits m) : w.Admits m := by
  obtain ⟨hbox, heqs⟩ := (leq_iff hv).mp h
  refine ⟨Box.admits_of_leq hbox hm.1, heqs (isBottom_eq_false.mpr (Box.ne_bottom hm.1)) m ?_⟩
  exact (solvedBy_allEqualities hm.1).mpr hm.2

/-- A tracked symbol that is treated as an integer is one. -/
theorem exists_int_of_mem_concretization (hm : m ∈ v.concretization) (hs : v.env.contains s = true)
    (hint : v.isIntegral s = true) : ∃ n : ℤ, m s = n := by
  refine hm.1 s ?_
  obtain ⟨kind, hkind⟩ := Option.isSome_iff_exists.mp hs
  have hget : v.env.kindOf s = some kind := hkind
  cases kind with
  | int => exact hget
  | real => simp [isIntegral, hget] at hint

end Value

end PathInvariants

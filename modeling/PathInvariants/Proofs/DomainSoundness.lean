import PathInvariants.Proofs.UnboundSymbols

/-!
# Soundness of the value domain

The states of a value when some symbols are real and all others are integers. Whatever operations a
value was built by, assignments, havocs, constraints, joins and widenings lose no state, meets are
exact, narrowings lie between the meet and the first value, and the order is inclusion.

Values round for integers at every symbol that is not tracked as a real, so also at a real symbol
that they do not track. They never bind such a symbol, which is the invariant `Value.Regular`: a state
may be moved to an integer there and back (`Environment.exists_integralAt`).
-/
namespace PathInvariants

/-- Integral on everything but the given symbols. -/
def Valuation.IntegralOff (reals : Set Symbol) (m : Valuation) : Prop := ∀ s ∉ reals, ∃ n : ℤ, m s = n

namespace Environment

variable {reals : Set Symbol} {env env' : Environment} {symbols : List Symbol} {s : Symbol} {kind : NumericKind}

theorem contains_set (h : env.contains s = true) (t : Symbol) : contains (Sparse.set env t (some kind)) s = true := by
  rw [contains_iff, Sparse.get_set]
  split
  · simp
  · exact contains_iff.mp h

theorem contains_track (h : env.contains s = true) : (env.track symbols).contains s = true := by
  unfold track
  induction symbols generalizing env with
  | nil => exact h
  | cons t ts ih =>
    rw [List.foldl_cons]
    split
    · exact ih h
    · exact ih (contains_set h t)

/-- Symbols that get a kind on the way are integers. -/
theorem Respects.track (h : env.Respects reals) (hs : ∀ s ∈ symbols, s ∈ reals → env.contains s = true) :
    (env.track symbols).Respects reals := by
  unfold Environment.track
  induction symbols generalizing env with
  | nil => exact h
  | cons t ts ih =>
    rw [List.foldl_cons]
    split
    · exact ih h fun s hmem => hs s (by simp [hmem])
    · rename_i hfree
      have ht : t ∉ reals := fun hmem => hfree (hs t (by simp) hmem)
      exact ih (h.set (by simp [ht])) fun s hmem hreal => contains_set (hs s (by simp [hmem]) hreal) t

/-- An admissible valuation is integral for the environment, but at reals that it does not track. -/
theorem Respects.exists_integralAt (h : env.Respects reals) {m : Valuation} (hm : m.IntegralOff reals) :
    ∃ m' : Valuation, env.IntegralAt m' ∧ ∀ s, m s = m' s ∨ s ∈ reals ∧ env.contains s = false := by
  classical
  refine ⟨fun s => if s ∈ reals ∧ env.contains s = false then 0 else m s, fun s hs => ?_, fun s => ?_⟩
  · dsimp only
    split
    · exact ⟨0, by simp⟩
    · rename_i hfree
      refine hm s fun hreal => ?_
      cases hkind : env.kindOf s with
      | none => exact hfree ⟨hreal, by simpa [contains, kindOf] using hkind⟩
      | some kind => exact hs (by rw [hkind, (h s kind hkind).mp hreal])
  · dsimp only
    split
    · rename_i hfree
      exact .inr hfree
    · exact .inl rfl

end Environment

/-- The kind of the values of a domain that its own operations build. -/
def ValueKind.ofDomain (domain : Domain) : ValueKind := ⟨domain, domain == .intervals, by simp⟩

theorem ValueKind.rowless_ofDomain {domain : Domain} (h : (ofDomain domain).domain = .intervals) :
    (ofDomain domain).rowless = true := by
  simpa [ofDomain] using h

namespace Value

/-- The admissible valuations in the box that solve the equations. -/
def states (reals : Set Symbol) (v : Value) : Set Valuation := {m | m.IntegralOff reals ∧ v.Admits m}

/-- The value tracks every real symbol of the expression. -/
def Tracks (reals : Set Symbol) (v : Value) (e : LinearExpr) : Prop :=
  ∀ s ∈ reals, e.coeff s ≠ 0 → v.env.contains s = true

/-- The values of one domain that the operations build. -/
inductive Built (reals : Set Symbol) (domain : Domain) : Value → Prop
  | top {env : Environment} (henv : env.Respects reals) : Built reals domain (top domain env)
  | bottom {env : Environment} (henv : env.Respects reals) : Built reals domain (bottom domain env)
  | assign {v : Value} {s : Symbol} {e : LinearExpr} (hv : Built reals domain v) (he : v.Tracks reals e)
      (hs : v.Tracks reals (.var s)) : Built reals domain (v.assign s e)
  | forget {v : Value} (hv : Built reals domain v) (s : Symbol) : Built reals domain (v.forget s)
  | constrain {v : Value} {c : LinearConstraint} (hv : Built reals domain v) (hc : v.Tracks reals c.expr) :
      Built reals domain (v.constrain c)
  | withEnv {v : Value} {env : Environment} (hv : Built reals domain v) (henv : env.Respects reals) :
      Built reals domain (v.withEnv env)
  | joinOver {v : Value} {env : Environment} {ws : List Value} (hv : Built reals domain v)
      (hws : ∀ w ∈ ws, Built reals domain w) (henv : env.Respects reals) : Built reals domain (v.joinOver env ws)
  | join {v w u : Value} (hv : Built reals domain v) (hw : Built reals domain w) (h : v.join w = .ok u) :
      Built reals domain u
  | meet {v w u : Value} (hv : Built reals domain v) (hw : Built reals domain w) (h : v.meet w = .ok u) :
      Built reals domain u
  | narrow {v w u : Value} (hv : Built reals domain v) (hw : Built reals domain w) (h : v.narrow w = .ok u) :
      Built reals domain u
  | widenTo {v w u : Value} {thresholds : List LinearConstraint} (hv : Built reals domain v)
      (hw : Built reals domain w) (h : v.widenTo thresholds w = .ok u) : Built reals domain u

/-- One domain, the right kinds, and nothing said of reals that are not tracked. -/
structure Regular (reals : Set Symbol) (domain : Domain) (v : Value) : Prop where
  kind : v.OfKind (.ofDomain domain)
  env : v.env.Respects reals
  unbound : ∀ s ∈ reals, v.env.contains s = false → v.Unbound s

variable {reals : Set Symbol} {domain : Domain} {v w u : Value} {m m' : Valuation}

theorem Tracks.respects_track {e : LinearExpr} (he : v.Tracks reals e) (h : v.env.Respects reals) :
    (v.env.track e.symbols).Respects reals :=
  h.track fun s hs hreal => he s hreal (LinearExpr.mem_symbols.mp hs)

theorem Tracks.coeff_eq_zero {e : LinearExpr} (he : v.Tracks reals e) {s : Symbol} (hs : s ∈ reals)
    (hfree : v.env.contains s = false) : e.coeff s = 0 := by
  by_contra hne
  rw [he s hs hne] at hfree
  exact absurd hfree nofun

theorem Tracks.add {e f : LinearExpr} (he : v.Tracks reals e) (hf : v.Tracks reals f) : v.Tracks reals (e + f) := by
  intro s hs hne
  by_contra hfree
  have hfree : v.env.contains s = false := by simpa using hfree
  exact hne (by rw [LinearExpr.coeff_add, he.coeff_eq_zero hs hfree, hf.coeff_eq_zero hs hfree, add_zero])

theorem ne_of_tracks {s t : Symbol} (h : v.Tracks reals (.var t)) (hs : s ∈ reals) (hfree : v.env.contains s = false) :
    s ≠ t := by
  rintro rfl
  have hzero := h.coeff_eq_zero hs hfree
  rw [LinearExpr.var, LinearExpr.coeff_term, if_pos rfl] at hzero
  exact absurd hzero one_ne_zero

theorem free_of_track {env : Environment} {symbols : List Symbol} {s : Symbol}
    (h : (env.track symbols).contains s = false) : env.contains s = false :=
  Bool.eq_false_iff.mpr fun hs => Bool.eq_false_iff.mp h (Environment.contains_track hs)

theorem free_of_union {env env' e : Environment} {s : Symbol} (hu : env.union env' = .ok e)
    (h : e.contains s = false) : env.contains s = false ∧ env'.contains s = false :=
  ⟨Bool.eq_false_iff.mpr fun hs => Bool.eq_false_iff.mp h (Environment.contains_union hu (.inl hs)),
    Bool.eq_false_iff.mpr fun hs => Bool.eq_false_iff.mp h (Environment.contains_union hu (.inr hs))⟩

namespace Regular

theorem assign {s : Symbol} {e : LinearExpr} (hv : v.Regular reals domain) (he : v.Tracks reals e)
    (hs : v.Tracks reals (.var s)) : (v.assign s e).Regular reals domain where
  kind := hv.kind.assign s e
  env := by
    rw [env_assign]
    exact (he.add hs).respects_track hv.env
  unbound t ht hfree := by
    rw [env_assign] at hfree
    have hfree := free_of_track hfree
    exact (hv.unbound t ht hfree).assign (he.coeff_eq_zero ht hfree) (ne_of_tracks hs ht hfree)

theorem forget (hv : v.Regular reals domain) (s : Symbol) : (v.forget s).Regular reals domain :=
  ⟨hv.kind.forget s, hv.env, fun t ht hfree => (hv.unbound t ht hfree).forget s⟩

theorem constrain {c : LinearConstraint} (hv : v.Regular reals domain) (hc : v.Tracks reals c.expr) :
    (v.constrain c).Regular reals domain where
  kind := hv.kind.constrain c
  env := by
    rw [env_constrain]
    exact hc.respects_track hv.env
  unbound t ht hfree := by
    rw [env_constrain] at hfree
    have hfree := free_of_track hfree
    exact (hv.unbound t ht hfree).constrain (hc.coeff_eq_zero ht hfree)

theorem withEnv {env : Environment} (hv : v.Regular reals domain) (henv : env.Respects reals) :
    (v.withEnv env).Regular reals domain where
  kind := hv.kind.withEnv env
  env := henv
  unbound t ht hfree := by
    refine unbound_withEnv ?_
    cases hc : v.env.contains t with
    | false => exact .inl (hv.unbound t ht hc)
    | true => exact .inr ⟨rfl, hfree⟩

theorem joinAligned (hv : v.Regular reals domain) (hw : w.Regular reals domain) (henv : v.env = w.env) :
    (v.joinAligned w).Regular reals domain := by
  refine ⟨hv.kind.joinAligned hw.kind, env_joinAligned v w ▸ hv.env, fun t ht hfree => ?_⟩
  rw [env_joinAligned] at hfree
  exact (hv.unbound t ht hfree).joinAligned (hw.unbound t ht (henv ▸ hfree))

theorem joinOver {env : Environment} {ws : List Value} (hv : v.Regular reals domain)
    (hws : ∀ w ∈ ws, w.Regular reals domain) (henv : env.Respects reals) :
    (v.joinOver env ws).Regular reals domain := by
  unfold Value.joinOver
  have hstart := hv.withEnv henv
  have hstartEnv : (v.withEnv env).env = env := rfl
  generalize v.withEnv env = u at hstart hstartEnv
  induction ws generalizing u with
  | nil => exact hstart
  | cons w ws ih =>
    have hw := (hws w (by simp)).withEnv henv
    exact ih (fun x hx => hws x (by simp [hx])) _ (hstart.joinAligned hw hstartEnv)
      ((env_joinAligned _ _).trans hstartEnv)

/-- An operation over the common environment stays regular when it binds what the two sides bind. -/
theorem of_union {env : Environment} (hv : v.Regular reals domain) (hw : w.Regular reals domain)
    (henv : v.env.union w.env = .ok env) (hkind : u.OfKind (.ofDomain domain)) (hu : u.env = env)
    (hbinds : ∀ s, v.Unbound s → w.Unbound s → u.Unbound s) : u.Regular reals domain := by
  obtain ⟨e, he, hrespects⟩ := hv.env.exists_union hw.env
  rw [henv] at he
  obtain rfl := Except.ok.inj he
  refine ⟨hkind, hu ▸ hrespects, fun s hs hfree => ?_⟩
  rw [hu] at hfree
  obtain ⟨hfv, hfw⟩ := free_of_union henv hfree
  exact hbinds s (hv.unbound s hs hfv) (hw.unbound s hs hfw)

theorem join (hv : v.Regular reals domain) (hw : w.Regular reals domain) (h : v.join w = .ok u) :
    u.Regular reals domain := by
  obtain ⟨env, henv, hrespects⟩ := hv.env.exists_union hw.env
  simp only [Value.join, henv] at h
  obtain rfl := Except.ok.inj h
  exact hv.joinOver (by simpa using hw) hrespects

theorem meet (hv : v.Regular reals domain) (hw : w.Regular reals domain) (h : v.meet w = .ok u) :
    u.Regular reals domain := by
  have hkind := hv.kind.meet hw.kind h
  obtain ⟨env, henv, -⟩ := hv.env.exists_union hw.env
  have halign := align_of_union henv
  refine hv.of_union hw henv hkind (env_of_meet halign h) fun s hvs hws => ?_
  simp only [Value.meet, halign] at h
  obtain rfl := Except.ok.inj h
  split
  · exact hvs
  · exact Unbound.reduce ⟨hvs.1.below Interval.neutral_meet hws.1, hvs.2.meet hws.2⟩

theorem narrow (hv : v.Regular reals domain) (hw : w.Regular reals domain) (h : v.narrow w = .ok u) :
    u.Regular reals domain := by
  have hkind := hv.kind.narrow hw.kind h
  obtain ⟨env, henv, -⟩ := hv.env.exists_union hw.env
  have halign := align_of_union henv
  refine hv.of_union hw henv hkind (env_of_narrow halign h) fun s hvs hws => ?_
  simp only [Value.narrow, halign] at h
  obtain rfl := Except.ok.inj h
  split
  · exact hvs
  · split
    · exact unbound_collapse _ s
    · exact Unbound.reduce ⟨hvs.1.below Interval.neutral_narrow hws.1, hvs.2.meet hws.2⟩

theorem widenTo {thresholds : List LinearConstraint} (hv : v.Regular reals domain) (hw : w.Regular reals domain)
    (h : v.widenTo thresholds w = .ok u) : u.Regular reals domain := by
  have hkind := hv.kind.widenTo hw.kind h
  obtain ⟨env, henv, -⟩ := hv.env.exists_union hw.env
  have halign := align_of_union henv
  simp only [Value.widenTo, halign] at h
  obtain rfl := Except.ok.inj h
  refine hv.of_union hw henv hkind (env_widenAligned _ _ _) fun s hvs hws => ?_
  exact Unbound.widenAligned (v := { v with env }) (w := { w with env }) thresholds hvs hws

/-- The states do not depend on reals that are not tracked. -/
theorem allows_congr (hv : v.Regular reals domain)
    (hm : ∀ s, m s = m' s ∨ s ∈ reals ∧ v.env.contains s = false) (h : v.Allows m) : v.Allows m' :=
  Unbound.allows_congr (fun s => (hm s).imp_right fun hs => hv.unbound s hs.1 hs.2) h

theorem mem_states (hv : v.Regular reals domain) : m ∈ v.states reals ↔ m.IntegralOff reals ∧ v.Allows m :=
  ⟨fun h => ⟨h.1, h.2.allows⟩, fun h => ⟨h.1, h.2.admits hv.kind fun hd => by simpa [ValueKind.ofDomain] using hd⟩⟩

/-- As far as the value goes, an admissible valuation is integral for its environment. -/
theorem exists_integralAt (hu : u.Regular reals domain) (hm : m.IntegralOff reals) :
    ∃ m' : Valuation, u.env.IntegralAt m' ∧ (u.Allows m ↔ u.Allows m') ∧
      (∀ s, m s = m' s ∨ s ∈ reals ∧ u.env.contains s = false) := by
  obtain ⟨m', hint, hoff⟩ := hu.env.exists_integralAt hm
  exact ⟨m', hint, ⟨hu.allows_congr hoff, hu.allows_congr fun s => (hoff s).imp_left Eq.symm⟩, hoff⟩

end Regular

/-- What the operations build is regular. -/
theorem Built.regular (h : Built reals domain v) : v.Regular reals domain := by
  induction h with
  | top henv => exact ⟨ofKind_top (k := .ofDomain domain) _, henv, fun s _ _ => unbound_top _ _ s⟩
  | bottom henv => exact ⟨ofKind_bottom (k := .ofDomain domain) _, henv, fun s _ _ => unbound_bottom _ _ s⟩
  | assign _ he hs ih => exact ih.assign he hs
  | forget _ s ih => exact ih.forget s
  | constrain _ hc ih => exact ih.constrain hc
  | withEnv _ henv ih => exact ih.withEnv henv
  | joinOver _ _ henv ih ihs => exact ih.joinOver ihs henv
  | join _ _ h ihv ihw => exact ihv.join ihw h
  | meet _ _ h ihv ihw => exact ihv.meet ihw h
  | narrow _ _ h ihv ihw => exact ihv.narrow ihw h
  | widenTo _ _ h ihv ihw => exact ihv.widenTo ihw h

namespace Regular

variable {s : Symbol} {e : LinearExpr}

theorem assign_mem_states (hv : v.Regular reals domain) (he : v.Tracks reals e) (hs : v.Tracks reals (.var s))
    (hm : m ∈ v.states reals) (hint : s ∉ reals → ∃ n : ℤ, e.value m = n) :
    Function.update m s (e.value m) ∈ (v.assign s e).states reals := by
  have hv' := hv.assign he hs
  obtain ⟨hoff, hallows⟩ := hv.mem_states.mp hm
  have hoff' : Valuation.IntegralOff reals (Function.update m s (e.value m)) := by
    intro t ht
    by_cases hts : t = s
    · subst hts
      rw [Function.update_self]
      exact hint ht
    · rw [Function.update_of_ne hts]
      exact hoff t ht
  refine hv'.mem_states.mpr ⟨hoff', ?_⟩
  obtain ⟨m', hm', heq⟩ := hv'.env.exists_integralAt hoff
  -- The new environment tracks no less than the old one, so both values are unbound where `m'` differs.
  have hfree : ∀ t, m t = m' t ∨ t ∈ reals ∧ v.env.contains t = false := fun t =>
    (heq t).imp_right fun ht => ⟨ht.1, free_of_track (env_assign v s e ▸ ht.2)⟩
  have hvalue : e.value m' = e.value m := LinearExpr.value_congr fun t ht =>
    ((hfree t).resolve_right fun hf => ht (he.coeff_eq_zero hf.1 hf.2)).symm
  have hupdate : ∀ t, Function.update m' s (e.value m') t = Function.update m s (e.value m) t ∨
      t ∈ reals ∧ (v.assign s e).env.contains t = false := by
    intro t
    by_cases hts : t = s
    · subst hts
      simp only [Function.update_self]
      exact .inl hvalue
    · rw [Function.update_of_ne hts, Function.update_of_ne hts]
      exact (heq t).imp_left Eq.symm
  refine hv'.allows_congr hupdate (allows_assign (fun t ht => ?_) (hv.allows_congr hfree hallows))
  rcases hupdate t with h | ⟨hreal, hfree'⟩
  · by_cases hreal : t ∈ reals
    · by_cases hts : t = s
      · -- A real target is tracked, and as a real.
        subst hts
        have htracked := hs t hreal (by simp [LinearExpr.var, LinearExpr.coeff_term])
        have hcontains : (v.assign t e).env.contains t = true := by
          rw [env_assign]
          exact Environment.contains_track htracked
        obtain ⟨kind, hkind⟩ := Option.isSome_iff_exists.mp hcontains
        exact absurd (hkind.trans (congrArg some ((hv'.env t kind hkind).mp hreal))) ht
      · rw [Function.update_of_ne hts]
        exact hm' t ht
    · rw [h]
      exact hoff' t hreal
  · have hts : t ≠ s := ne_of_tracks hs hreal (free_of_track (env_assign v s e ▸ hfree'))
    rw [Function.update_of_ne hts]
    exact hm' t ht

theorem forget_mem_states (hv : v.Regular reals domain) (hm : m ∈ v.states reals) (hm' : m'.IntegralOff reals)
    (heq : ∀ t, t ≠ s → m' t = m t) : m' ∈ (v.forget s).states reals :=
  (hv.forget s).mem_states.mpr ⟨hm', allows_forget heq (hv.mem_states.mp hm).2⟩

theorem withEnv_mem_states {env : Environment} (hv : v.Regular reals domain) (henv : env.Respects reals)
    (hm : m ∈ v.states reals) (hm' : m'.IntegralOff reals)
    (heq : ∀ t, m' t = m t ∨ v.env.contains t = true ∧ env.contains t = false) : m' ∈ (v.withEnv env).states reals := by
  refine (hv.withEnv henv).mem_states.mpr ⟨hm', ?_⟩
  have hallows : (v.withEnv env).Allows m := allows_withEnv (hv.mem_states.mp hm).2
  refine Unbound.allows_congr (fun t => ?_) hallows
  exact (heq t).imp Eq.symm fun ht => unbound_withEnv (.inr ht)

theorem constrain_mem_states {c : LinearConstraint} (hv : v.Regular reals domain) (hc : v.Tracks reals c.expr)
    (hm : m ∈ v.states reals) (hholds : c.HoldsAt m) : m ∈ (v.constrain c).states reals := by
  have hv' := hv.constrain hc
  obtain ⟨hoff, hallows⟩ := hv.mem_states.mp hm
  refine hv'.mem_states.mpr ⟨hoff, ?_⟩
  obtain ⟨m', hm', hiff, heq⟩ := hv'.exists_integralAt hoff
  have hfree : ∀ t, m t = m' t ∨ t ∈ reals ∧ v.env.contains t = false := fun t =>
    (heq t).imp_right fun ht => ⟨ht.1, free_of_track (env_constrain v c ▸ ht.2)⟩
  have hvalue : c.expr.value m' = c.expr.value m := LinearExpr.value_congr fun t ht =>
    ((hfree t).resolve_right fun hf => ht (hc.coeff_eq_zero hf.1 hf.2)).symm
  refine hiff.mpr (allows_constrain hm' ?_ (hv.allows_congr hfree hallows))
  rw [LinearConstraint.HoldsAt, hvalue]
  exact hholds

/-- A constraint tracks no less than the value did before. -/
theorem tracks_constrain {c : LinearConstraint} (he : v.Tracks reals e) : (v.constrain c).Tracks reals e := by
  intro t ht hne
  rw [env_constrain]
  exact Environment.contains_track (he t ht hne)

theorem constrainAll_mem_states {cs : List LinearConstraint} (hv : v.Regular reals domain)
    (hcs : ∀ c ∈ cs, v.Tracks reals c.expr) (hm : m ∈ v.states reals) (hholds : ∀ c ∈ cs, c.HoldsAt m) :
    m ∈ (v.constrainAll cs).states reals := by
  unfold constrainAll
  induction cs generalizing v with
  | nil => exact hm
  | cons c cs ih =>
    have hc := hcs c (by simp)
    exact ih (hv.constrain hc) (fun d hd => tracks_constrain (hcs d (by simp [hd])))
      (hv.constrain_mem_states hc hm (hholds c (by simp))) fun d hd => hholds d (by simp [hd])

theorem states_subset_joinOver {env : Environment} {ws : List Value} (hv : v.Regular reals domain)
    (hws : ∀ w ∈ ws, w.Regular reals domain) (henv : env.Respects reals) (hu : u ∈ v :: ws) :
    u.states reals ⊆ (v.joinOver env ws).states reals := by
  intro m hm
  refine (hv.joinOver hws henv).mem_states.mpr ⟨hm.1, allows_joinOver hv.kind (fun w hw => (hws w hw).kind) ?_⟩
  rcases List.mem_cons.mp hu with rfl | hu
  · exact .inl hm.2.allows
  · exact .inr ⟨u, hu, hm.2.allows⟩

/-- An operation on the common environment, seen at a valuation that is integral for it. -/
theorem exists_integralAt_union {env : Environment} (hv : v.Regular reals domain) (hw : w.Regular reals domain)
    (hu : u.Regular reals domain) (henv : v.env.union w.env = .ok env) (hue : u.env = env)
    (hm : m.IntegralOff reals) : ∃ m' : Valuation, u.env.IntegralAt m' ∧ (u.Allows m ↔ u.Allows m') ∧
      (v.Allows m ↔ v.Allows m') ∧ (w.Allows m ↔ w.Allows m') := by
  obtain ⟨m', hm', hiff, heq⟩ := hu.exists_integralAt hm
  rw [hue] at heq
  have hfv : ∀ t, m t = m' t ∨ t ∈ reals ∧ v.env.contains t = false := fun t =>
    (heq t).imp_right fun ht => ⟨ht.1, (free_of_union henv ht.2).1⟩
  have hfw : ∀ t, m t = m' t ∨ t ∈ reals ∧ w.env.contains t = false := fun t =>
    (heq t).imp_right fun ht => ⟨ht.1, (free_of_union henv ht.2).2⟩
  exact ⟨m', hm', hiff, ⟨hv.allows_congr hfv, hv.allows_congr fun t => (hfv t).imp_left Eq.symm⟩,
    hw.allows_congr hfw, hw.allows_congr fun t => (hfw t).imp_left Eq.symm⟩

theorem exists_join (hv : v.Regular reals domain) (hw : w.Regular reals domain) :
    ∃ u, v.join w = .ok u ∧ v.states reals ∪ w.states reals ⊆ u.states reals := by
  obtain ⟨env, henv, -⟩ := hv.env.exists_union hw.env
  have hu : v.join w = .ok (v.joinOver env [w]) := by
    rw [Value.join, henv]
    rfl
  refine ⟨_, hu, fun m hm => (hv.join hw hu).mem_states.mpr ?_⟩
  rcases hm with hm | hm
  · exact ⟨hm.1, allows_join hv.kind hw.kind hu (.inl hm.2.allows)⟩
  · exact ⟨hm.1, allows_join hv.kind hw.kind hu (.inr hm.2.allows)⟩

theorem exists_widenTo (hv : v.Regular reals domain) (hw : w.Regular reals domain)
    (thresholds : List LinearConstraint) :
    ∃ u, v.widenTo thresholds w = .ok u ∧ v.states reals ∪ w.states reals ⊆ u.states reals := by
  obtain ⟨env, henv, -⟩ := hv.env.exists_union hw.env
  have hu : v.widenTo thresholds w = .ok (widenAligned thresholds { v with env } { w with env }) := by
    rw [Value.widenTo, align_of_union henv]
    rfl
  refine ⟨_, hu, fun m hm => (hv.widenTo hw hu).mem_states.mpr ?_⟩
  rcases hm with hm | hm
  · exact ⟨hm.1, allows_widenTo hv.kind hw.kind hu (.inl hm.2.allows)⟩
  · exact ⟨hm.1, allows_widenTo hv.kind hw.kind hu (.inr hm.2.allows)⟩

theorem exists_meet (hv : v.Regular reals domain) (hw : w.Regular reals domain) :
    ∃ u, v.meet w = .ok u ∧ u.states reals = v.states reals ∩ w.states reals := by
  obtain ⟨env, henv, -⟩ := hv.env.exists_union hw.env
  have halign := align_of_union henv
  obtain ⟨u, hu⟩ : ∃ u, v.meet w = .ok u := by
    rw [Value.meet, halign]
    exact ⟨_, rfl⟩
  have hue : u.env = env := env_of_meet halign hu
  have hreg := hv.meet hw hu
  refine ⟨u, hu, Set.ext fun m => ?_⟩
  rw [Set.mem_inter_iff, hreg.mem_states, hv.mem_states, hw.mem_states]
  by_cases hm : m.IntegralOff reals
  · obtain ⟨m', hm', hiff, hiffv, hiffw⟩ := hv.exists_integralAt_union hw hreg henv hue hm
    rw [hiff, hiffv, hiffw, allows_meet hv.kind hw.kind hu hm']
    tauto
  · exact iff_of_false (fun h => hm h.1) fun h => hm h.1.1

theorem exists_narrow (hv : v.Regular reals domain) (hw : w.Regular reals domain) :
    ∃ u, v.narrow w = .ok u ∧ v.states reals ∩ w.states reals ⊆ u.states reals ∧ u.states reals ⊆ v.states reals := by
  obtain ⟨env, henv, -⟩ := hv.env.exists_union hw.env
  have halign := align_of_union henv
  obtain ⟨u, hu⟩ : ∃ u, v.narrow w = .ok u := by
    rw [Value.narrow, halign]
    exact ⟨_, rfl⟩
  have hue : u.env = env := env_of_narrow halign hu
  have hreg := hv.narrow hw hu
  refine ⟨u, hu, fun m hm => ?_, fun m hm => ?_⟩
  · obtain ⟨m', hm', hiff, hiffv, hiffw⟩ := hv.exists_integralAt_union hw hreg henv hue hm.1.1
    refine hreg.mem_states.mpr ⟨hm.1.1, hiff.mpr ?_⟩
    exact (allows_narrow hv.kind hw.kind hu hm').1 (hiffv.mp hm.1.2.allows) (hiffw.mp hm.2.2.allows)
  · obtain ⟨m', hm', hiff, hiffv, -⟩ := hv.exists_integralAt_union hw hreg henv hue hm.1
    refine hv.mem_states.mpr ⟨hm.1, hiffv.mpr ?_⟩
    exact (allows_narrow hv.kind hw.kind hu hm').2 (hiff.mp hm.2.allows)

theorem states_subset_of_leq (hv : v.Regular reals domain) (hw : w.Regular reals domain) (h : v.leq w = true) :
    v.states reals ⊆ w.states reals := fun _ hm =>
  hw.mem_states.mpr ⟨hm.1, allows_of_leq hv.kind hw.kind h hm.2.allows⟩

end Regular

/-- What the operations do to the states of two values. -/
structure OperationsSound (reals : Set Symbol) (domain : Domain) (v w : Value) : Prop where
  /-- An assignment takes every state to its successor, if that is admissible. -/
  assign : ∀ s e m, v.Tracks reals e → v.Tracks reals (.var s) → m ∈ v.states reals →
    (s ∉ reals → ∃ n : ℤ, e.value m = n) → Function.update m s (e.value m) ∈ (v.assign s e).states reals
  /-- A havoc lets one symbol take any admissible value. -/
  forget : ∀ s m m', m ∈ v.states reals → m'.IntegralOff reals → (∀ t, t ≠ s → m' t = m t) →
    m' ∈ (v.forget s).states reals
  /-- A change of environment lets the symbols it drops take any admissible values. -/
  withEnv : ∀ env m m', env.Respects reals → m ∈ v.states reals → m'.IntegralOff reals →
    (∀ t, m' t = m t ∨ v.env.contains t = true ∧ env.contains t = false) → m' ∈ (v.withEnv env).states reals
  /-- A constraint keeps the states that satisfy it. -/
  constrain : ∀ c m, v.Tracks reals c.expr → m ∈ v.states reals → c.HoldsAt m → m ∈ (v.constrain c).states reals
  constrainAll : ∀ cs m, (∀ c ∈ cs, v.Tracks reals c.expr) → m ∈ v.states reals → (∀ c ∈ cs, c.HoldsAt m) →
    m ∈ (v.constrainAll cs).states reals
  /-- A meet holds exactly the common states. -/
  meet : ∃ u, v.meet w = .ok u ∧ u.states reals = v.states reals ∩ w.states reals
  /-- A join holds the states of all its parts. -/
  joinOver : ∀ env ws, env.Respects reals → (∀ x ∈ ws, Built reals domain x) →
    ∀ u ∈ v :: ws, u.states reals ⊆ (v.joinOver env ws).states reals
  join : ∃ u, v.join w = .ok u ∧ v.states reals ∪ w.states reals ⊆ u.states reals
  /-- A widening holds the states of both sides, whatever the thresholds. -/
  widen : ∃ u, v.widen w = .ok u ∧ v.states reals ∪ w.states reals ⊆ u.states reals
  widenTo : ∀ thresholds, ∃ u, v.widenTo thresholds w = .ok u ∧ v.states reals ∪ w.states reals ⊆ u.states reals
  /-- A narrowing lies between the common states and those of the first value. -/
  narrow : ∃ u, v.narrow w = .ok u ∧ v.states reals ∩ w.states reals ⊆ u.states reals ∧
    u.states reals ⊆ v.states reals
  /-- The order is inclusion. -/
  leq : v.leq w = true → v.states reals ⊆ w.states reals

/-- The operations are sound on all values of one domain that they build. -/
theorem operations_sound (hv : Built reals domain v) (hw : Built reals domain w) :
    OperationsSound reals domain v w where
  assign _ _ _ he hs := hv.regular.assign_mem_states he hs
  forget _ _ _ := hv.regular.forget_mem_states
  withEnv _ _ _ := hv.regular.withEnv_mem_states
  constrain _ _ := hv.regular.constrain_mem_states
  constrainAll _ _ := hv.regular.constrainAll_mem_states
  meet := hv.regular.exists_meet hw.regular
  joinOver _ _ henv hws _ := hv.regular.states_subset_joinOver (fun x hx => (hws x hx).regular) henv
  join := hv.regular.exists_join hw.regular
  widen := hv.regular.exists_widenTo hw.regular []
  widenTo := hv.regular.exists_widenTo hw.regular
  narrow := hv.regular.exists_narrow hw.regular
  leq := hv.regular.states_subset_of_leq hw.regular

/-- One real and one integer. -/
def mixedEnv : Environment := Sparse.set (Sparse.set Environment.empty "r" (some .real)) "x" (some .int)

theorem mixedEnv_respects : mixedEnv.Respects {"r"} := by
  have hempty : Environment.empty.Respects {"r"} := fun _ _ h => absurd h nofun
  exact (hempty.set (by simp)).set (by simp)

theorem tracks_mixedEnv (domain : Domain) (e : LinearExpr) : (top domain mixedEnv).Tracks {"r"} e := by
  rintro s rfl -
  exact Environment.contains_set (by rw [Environment.contains_iff, Sparse.get_set, if_pos rfl]; exact nofun) "x"

/-- The values `2 r = x` and `x ≥ 1` over a real and an integer have a meet, and it holds the state with one half
for `r`. -/
theorem operations_sound_half : ∃ v w u : Value,
    Built {"r"} .intervalEqualities v ∧ Built {"r"} .intervalEqualities w ∧ v.meet w = .ok u ∧
      (fun s => if s = "r" then 1 / 2 else 1) ∈ u.states {"r"} := by
  have htop : Built {"r"} .intervalEqualities (top .intervalEqualities mixedEnv) := .top mixedEnv_respects
  have htracks := tracks_mixedEnv .intervalEqualities
  have hm : (fun s => if s = "r" then 1 / 2 else 1) ∈ (top .intervalEqualities mixedEnv).states {"r"} := by
    refine ⟨fun s hs => ⟨1, ?_⟩, Box.admits_top _, Equalities.solvedBy_empty _⟩
    have hs : s ≠ "r" := by simpa using hs
    simp [hs]
  have hvm := (operations_sound htop htop).constrain (.eq (.term 2 "r" - .var "x")) _ (htracks _) hm (by
    simp [LinearConstraint.HoldsAt, LinearConstraint.eq, Comparison.HoldsAt, LinearExpr.value_sub, LinearExpr.value_term])
  have hwm := (operations_sound htop htop).constrain (.ge (.var "x" - .const 1)) _ (htracks _) hm (by
    simp [LinearConstraint.HoldsAt, LinearConstraint.ge, Comparison.HoldsAt, LinearExpr.value_sub])
  have hv := htop.constrain (htracks (LinearConstraint.eq (.term 2 "r" - .var "x")).expr)
  have hw := htop.constrain (htracks (LinearConstraint.ge (.var "x" - .const 1)).expr)
  obtain ⟨u, hu, hstates⟩ := (operations_sound hv hw).meet
  exact ⟨_, _, u, hv, hw, hu, hstates ▸ ⟨hvm, hwm⟩⟩

end Value

end PathInvariants

import PathInvariants.Disjunction
import PathInvariants.Proofs.DomainSoundness
import PathInvariants.Proofs.SymbolRanges

/-!
# The lattice of abstract values

The equations of a join are those that follow from either operand, and its box is the smallest one
around both. So the join of values that the operations of one domain have built is their least upper
bound. The values need not be reduced for that: the order and the join both read the equalities together
with the symbols that the box fixes.
-/
namespace PathInvariants

namespace LinearExpr

/-- The point at infinity in the direction of a symbol shows its coefficient. -/
theorem functional_single (e : LinearExpr) (s : Symbol) : e.functional (Pi.single s 1, 0) = e.coeff s := by
  have hS : ∀ t, e.coeff t ≠ 0 → t ∈ insert s e.symbols.toFinset := fun t ht =>
    Finset.mem_insert_of_mem (List.mem_toFinset.mpr (mem_symbols.mpr ht))
  rw [functional_apply, value_eq_sum hS, Finset.sum_eq_single_of_mem s (Finset.mem_insert_self _ _)]
  · simp
  · intro t _ hts
    simp [hts]

end LinearExpr

namespace Equalities

variable {p q : Equalities} {e : LinearExpr} {x : Valuation × ℚ}

/-- A symbol of an equation that follows occurs in the system. -/
theorem mem_symbolsOf_of_vanishAt (h : ∀ x, q.VanishAt x → e.functional x = 0) {s : Symbol} (hs : e.coeff s ≠ 0) :
    s ∈ symbolsOf q.rows := by
  by_contra hfree
  have hvanish : q.VanishAt (Pi.single s 1, 0) := by
    intro f hf
    rw [LinearExpr.functional_single, Int.cast_eq_zero]
    by_contra hne
    exact hfree (mem_symbolsOf hf hne)
  have hzero := h _ hvanish
  rw [LinearExpr.functional_single, Int.cast_eq_zero] at hzero
  exact hs hzero

/-- What vanishes wherever one of two systems does vanishes wherever their join does. -/
theorem functional_of_join (hp : p.isUnsatisfiable = false) (hq : q.isUnsatisfiable = false)
    (hj : (p.join q).isUnsatisfiable = false) (h : ∀ x, p.VanishAt x ∨ q.VanishAt x → e.functional x = 0)
    (hx : (p.join q).VanishAt x) : e.functional x = 0 := by
  unfold join at hj hx
  simp only [hp, hq, Bool.false_eq_true, if_false] at hj hx
  let symbols := symbolsOf (p.rows ++ q.rows)
  have hn : symbols.Nodup := nodup_symbolsOf _
  have hps : ∀ e ∈ p.rows, ∀ s, e.coeff s ≠ 0 → s ∈ symbols := fun e he s hs =>
    mem_symbolsOf (List.mem_append_left _ he) hs
  have hqs : ∀ e ∈ q.rows, ∀ s, e.coeff s ≠ 0 → s ∈ symbols := fun e he s hs =>
    mem_symbolsOf (List.mem_append_right _ he) hs
  have hes : ∀ s, e.coeff s ≠ 0 → s ∈ symbols := fun s hs =>
    mem_symbolsOf_of_vanishAt (q := ⟨p.rows ++ q.rows⟩)
      (fun x hx => h x (.inl fun f hf => hx f (List.mem_append_left _ hf))) hs
  rw [← LinearExpr.functional_toRow hn hes]
  refine RowSpace.dot_of_intersect (a := p.rows.map (·.toRow symbols)) (b := q.rows.map (·.toRow symbols))
    length_of_mem_map_toRow length_of_mem_map_toRow (fun w hw => ?_) fun row hrow => ?_
  · obtain ⟨y, hy⟩ := LinearExpr.exists_coordinates hn w
    have hcoordinates : ∀ rows : List Row, Echelon.Vanish (symbols.length + 1) rows w →
        Echelon.Vanish (symbols.length + 1) rows (LinearExpr.coordinates symbols y) := fun rows hw row hrow => by
      rw [hy]
      exact hw row hrow
    rw [← hy, LinearExpr.functional_toRow hn hes]
    exact h y (hw.imp (fun hw => (vanishAt_map_toRow hn hps y).mp (hcoordinates _ hw))
      fun hw => (vanishAt_map_toRow hn hqs y).mp (hcoordinates _ hw))
  · have hzero := (vanishAt_ofRows hj x).mp hx _ (List.mem_map_of_mem hrow)
    rwa [LinearExpr.functional_ofRow] at hzero

/-- An equation that holds at the solutions of both systems holds at those of their join. -/
theorem Canonical.value_of_join (hp : p.Canonical) (hq : q.Canonical) {m : Valuation}
    (h : ∀ m, p.SolvedBy m ∨ q.SolvedBy m → e.value m = 0) (hm : (p.join q).SolvedBy m) : e.value m = 0 := by
  cases hpu : p.isUnsatisfiable with
  | true =>
    rw [Equalities.join, if_pos hpu] at hm
    exact h m (.inr hm)
  | false =>
    cases hqu : q.isUnsatisfiable with
    | true =>
      rw [Equalities.join, if_neg (by simp [hpu]), if_pos hqu] at hm
      exact h m (.inl hm)
    | false =>
      have hj : (p.join q).isUnsatisfiable = false := by
        by_contra hju
        exact not_solvedBy_of_isUnsatisfiable (by simpa using hju) m hm
      have hvanish : (p.join q).VanishAt (m, 1) := fun f hf => by
        rw [LinearExpr.functional_apply, hm f hf, sub_self, mul_zero, add_zero]
      have hzero := functional_of_join (e := e) hpu hqu hj (fun x hx => hx.elim
        (hp.functional_eq_zero hpu fun m hm => h m (.inl hm))
        (hq.functional_eq_zero hqu fun m hm => h m (.inr hm))) hvanish
      rwa [LinearExpr.functional_apply, sub_self, mul_zero, add_zero] at hzero

end Equalities

namespace Box

variable {a b c : Box}

theorem leq_of_get (hc : c ≠ bottom) (h : ∀ s, (a.get s).leq (c.get s) = true) : a.leq c = true := by
  cases a with
  | bottom => rfl
  | ranges f hf =>
    cases c with
    | bottom => exact absurd rfl hc
    | ranges g hg =>
      refine List.all_eq_true.mpr fun ⟨s, i⟩ he => ?_
      have hs := h s
      rwa [show (ranges g hg).get s = i from (Sparse.mem_entries.mp he).1] at hs

/-- The smallest box around both. -/
theorem join_leq (ha : a.leq c = true) (hb : b.leq c = true) : (a.join b).leq c = true := by
  cases hbottom : c with
  | bottom =>
    subst hbottom
    cases a with
    | bottom => exact hb
    | ranges f hf => cases ha
  | ranges g hg =>
    rw [← hbottom]
    exact leq_of_get (by rw [hbottom]; nofun) fun s => get_join_leq (get_leq ha s) (get_leq hb s)

end Box

namespace Value

variable {domain : Domain} {env : Environment} {u v w : Value} {ws : List Value}

/-- The values that the operations build from values of one domain. -/
inductive Formed (domain : Domain) : Value → Prop
  | top (env : Environment) : Formed domain (top domain env)
  | bottom (env : Environment) : Formed domain (bottom domain env)
  | assign {v : Value} (hv : Formed domain v) (s : Symbol) (e : LinearExpr) : Formed domain (v.assign s e)
  | forget {v : Value} (hv : Formed domain v) (s : Symbol) : Formed domain (v.forget s)
  | constrain {v : Value} (hv : Formed domain v) (c : LinearConstraint) : Formed domain (v.constrain c)
  | withEnv {v : Value} (hv : Formed domain v) (env : Environment) : Formed domain (v.withEnv env)
  | joinOver {v : Value} {ws : List Value} (hv : Formed domain v) (hws : ∀ w ∈ ws, Formed domain w)
      (env : Environment) : Formed domain (v.joinOver env ws)
  | join {v w u : Value} (hv : Formed domain v) (hw : Formed domain w) (h : v.join w = .ok u) : Formed domain u
  | meet {v w u : Value} (hv : Formed domain v) (hw : Formed domain w) (h : v.meet w = .ok u) : Formed domain u
  | narrow {v w u : Value} (hv : Formed domain v) (hw : Formed domain w) (h : v.narrow w = .ok u) : Formed domain u
  | widenTo {v w u : Value} {thresholds : List LinearConstraint} (hv : Formed domain v) (hw : Formed domain w)
      (h : v.widenTo thresholds w = .ok u) : Formed domain u

/-- A value of the domain with equalities that come from an elimination, and none if the domain keeps none. -/
structure Ordered (domain : Domain) (v : Value) : Prop where
  kind : v.OfKind (.ofDomain domain)
  canonical : v.eqs.Canonical

theorem canonical_joinOver (hv : v.eqs.Canonical) (hws : ∀ w ∈ ws, w.eqs.Canonical) (env : Environment) :
    (v.joinOver env ws).eqs.Canonical := by
  unfold joinOver
  have hstart := canonical_withEnv hv env
  generalize v.withEnv env = u at hstart
  induction ws generalizing u with
  | nil => exact hstart
  | cons w ws ih =>
    exact ih (fun x hx => hws x (by simp [hx])) _
      (canonical_joinAligned hstart (canonical_withEnv (hws w (by simp)) env))

theorem canonical_join (hv : v.eqs.Canonical) (hw : w.eqs.Canonical) (h : v.join w = .ok u) : u.eqs.Canonical := by
  unfold join at h
  cases hunion : v.env.union w.env with
  | error f =>
    rw [hunion] at h
    cases h
  | ok env =>
    rw [hunion] at h
    obtain rfl := Except.ok.inj h
    exact canonical_joinOver hv (by simpa using hw) env

theorem canonical_meet (hv : v.eqs.Canonical) (h : v.meet w = .ok u) : u.eqs.Canonical := by
  obtain ⟨env, -, rfl⟩ := meet_eq h
  split
  · exact hv
  · exact canonical_reduce (Equalities.canonical_ofRows _)

theorem canonical_narrow (hv : v.eqs.Canonical) (h : v.narrow w = .ok u) : u.eqs.Canonical := by
  obtain ⟨env, -, rfl⟩ := narrow_eq h
  split
  · exact hv
  · split
    · exact Equalities.canonical_empty
    · exact canonical_reduce (Equalities.canonical_ofRows _)

theorem canonical_widenTo {thresholds : List LinearConstraint} (hv : v.eqs.Canonical) (hw : w.eqs.Canonical)
    (h : v.widenTo thresholds w = .ok u) : u.eqs.Canonical := by
  obtain ⟨env, rfl⟩ := widenTo_eq h
  exact canonical_widenAligned (v := { v with env }) (w := { w with env }) hv hw thresholds

/-- Every operation keeps to what the order needs. -/
theorem Formed.ordered (h : Formed domain v) : v.Ordered domain := by
  induction h with
  | top env => exact ⟨ofKind_top (k := .ofDomain domain) env, Equalities.canonical_empty⟩
  | bottom env => exact ⟨ofKind_bottom (k := .ofDomain domain) env, Equalities.canonical_empty⟩
  | assign _ s e ih => exact ⟨ih.kind.assign s e, canonical_assign ih.canonical s e⟩
  | forget _ s ih => exact ⟨ih.kind.forget s, canonical_forget ih.canonical s⟩
  | constrain _ c ih => exact ⟨ih.kind.constrain c, canonical_constrain ih.canonical c⟩
  | withEnv _ env ih => exact ⟨ih.kind.withEnv env, canonical_withEnv ih.canonical env⟩
  | joinOver _ _ env ih ihs =>
    exact ⟨ih.kind.joinOver (fun w hw => (ihs w hw).kind) env,
      canonical_joinOver ih.canonical (fun w hw => (ihs w hw).canonical) env⟩
  | join _ _ h ihv ihw => exact ⟨ihv.kind.join ihw.kind h, canonical_join ihv.canonical ihw.canonical h⟩
  | meet _ _ h ihv ihw => exact ⟨ihv.kind.meet ihw.kind h, canonical_meet ihv.canonical h⟩
  | narrow _ _ h ihv ihw => exact ⟨ihv.kind.narrow ihw.kind h, canonical_narrow ihv.canonical h⟩
  | widenTo _ _ h ihv ihw => exact ⟨ihv.kind.widenTo ihw.kind h, canonical_widenTo ihv.canonical ihw.canonical h⟩

namespace Ordered

theorem leq_trans (hv : v.Ordered domain) (hw : w.Ordered domain) (hvw : v.leq w = true) (hwu : w.leq u = true) :
    v.leq u = true := Value.leq_trans hv.canonical hw.canonical hvw hwu

theorem joinAligned (hv : v.Ordered domain) (hw : w.Ordered domain) : (v.joinAligned w).Ordered domain :=
  ⟨hv.kind.joinAligned hw.kind, canonical_joinAligned hv.canonical hw.canonical⟩

/-- A common upper bound of two values is above their join. -/
theorem joinAligned_leq (hv : v.Ordered domain) (hw : w.Ordered domain) (hu : u.Ordered domain)
    (hvu : v.leq u = true) (hwu : w.leq u = true) : (v.joinAligned w).leq u = true := by
  have hcanonical := canonical_joinAligned hv.canonical hw.canonical
  unfold Value.joinAligned at hcanonical ⊢
  split
  · exact hvu
  · rename_i hwb
    split
    · exact hwu
    · rename_i hvb
      rw [if_neg hwb, if_neg hvb] at hcanonical
      obtain ⟨hvbox, hveqs⟩ := (leq_iff hv.canonical).mp hvu
      obtain ⟨hwbox, hweqs⟩ := (leq_iff hw.canonical).mp hwu
      refine (leq_iff hcanonical).mpr ⟨Box.join_leq hvbox hwbox, fun _ m hm => ?_⟩
      have hm := (solvedBy_allEqualities_iff.mp hm).1
      dsimp only at hm
      split at hm
      · intro e he
        refine (canonical_allEqualities hv.canonical).value_of_join (canonical_allEqualities hw.canonical)
          (fun m hm => ?_) hm
        rcases hm with hm | hm
        · exact hveqs (by simpa using hvb) m hm e he
        · exact hweqs (by simpa using hwb) m hm e he
      · rename_i hr
        have hr' : ¬ u.isRelational = true := by rwa [hu.kind.relational hv.kind]
        rw [eqs_eq_empty ValueKind.rowless_ofDomain hu.kind hr']
        exact Equalities.solvedBy_empty m

theorem joinAligned_leq_iff (hv : v.Ordered domain) (hw : w.Ordered domain) (hu : u.Ordered domain) :
    (v.joinAligned w).leq u = true ↔ v.leq u = true ∧ w.leq u = true := by
  refine ⟨fun h => ⟨?_, ?_⟩, fun h => hv.joinAligned_leq hw hu h.1 h.2⟩
  · exact hv.leq_trans (hv.joinAligned hw) (leq_joinAligned_left ValueKind.rowless_ofDomain hv.kind hv.canonical) h
  · exact hw.leq_trans (hv.joinAligned hw) (leq_joinAligned_right ValueKind.rowless_ofDomain hv.kind hw.canonical) h

/-- The values above a join are the common upper bounds of its operands. -/
theorem joinOver_leq_iff (hv : v.Ordered domain) (hws : ∀ w ∈ ws, w.Ordered domain) (hu : u.Ordered domain)
    (henv : v.env = env) (henvs : ∀ w ∈ ws, w.env = env) :
    (v.joinOver env ws).leq u = true ↔ v.leq u = true ∧ ∀ w ∈ ws, w.leq u = true := by
  unfold joinOver
  rw [← henv, withEnv_self, henv]
  clear henv
  induction ws generalizing v with
  | nil => simp
  | cons w ws ih =>
    have hw := hws w (by simp)
    have hself : w.withEnv env = w := by rw [← henvs w (by simp), withEnv_self]
    rw [List.foldl_cons, hself, ih (hv.joinAligned hw) (fun x hx => hws x (by simp [hx]))
      fun x hx => henvs x (by simp [hx]), hv.joinAligned_leq_iff hw hu, List.forall_mem_cons, and_assoc]

end Ordered

/-- The value is a least upper bound of the given ones among the values of the domain over the environment. -/
structure IsLub (domain : Domain) (env : Environment) (vs : List Value) (u : Value) : Prop where
  formed : u.Formed domain
  env_eq : u.env = env
  above : ∀ v ∈ vs, v.leq u = true
  least : ∀ w, w.Formed domain → w.env = env → (∀ v ∈ vs, v.leq w = true) → u.leq w = true

/-- Least upper bounds of values with the same members are the same up to the order. -/
theorem IsLub.equals {vs ws : List Value} (hv : IsLub domain env vs v) (hw : IsLub domain env ws w)
    (h : ∀ x, x ∈ vs ↔ x ∈ ws) : v.equals w = true := by
  rw [Value.equals, Bool.and_eq_true]
  exact ⟨hv.least w hw.formed hw.env_eq fun x hx => hw.above x ((h x).mp hx),
    hw.least v hv.formed hv.env_eq fun x hx => hv.above x ((h x).mpr hx)⟩

theorem IsLub.congr {vs ws : List Value} (hv : IsLub domain env vs v) (h : ∀ x, x ∈ vs ↔ x ∈ ws) :
    IsLub domain env ws v :=
  ⟨hv.formed, hv.env_eq, fun x hx => hv.above x ((h x).mpr hx),
    fun w hw henv hall => hv.least w hw henv fun x hx => hall x ((h x).mp hx)⟩

/-- A least upper bound may take the place of the values that it bounds. -/
theorem IsLub.flatten {vs : List Value} (hv : IsLub domain env vs v) (hvs : ∀ w ∈ vs, w.Formed domain)
    (hu : IsLub domain env (v :: ws) u) : IsLub domain env (vs ++ ws) u := by
  refine ⟨hu.formed, hu.env_eq, fun x hx => ?_, fun x hx henv hall => ?_⟩
  · rcases List.mem_append.mp hx with hx | hx
    · exact (hvs x hx).ordered.leq_trans hv.formed.ordered (hv.above x hx) (hu.above v (by simp))
    · exact hu.above x (by simp [hx])
  · refine hu.least x hx henv (List.forall_mem_cons.mpr ⟨?_, fun w hw => hall w (by simp [hw])⟩)
    exact hv.least x hx henv fun w hw => hall w (by simp [hw])

theorem isLub_joinOver (hv : v.Formed domain) (hws : ∀ w ∈ ws, w.Formed domain) (henv : v.env = env)
    (henvs : ∀ w ∈ ws, w.env = env) : IsLub domain env (v :: ws) (v.joinOver env ws) := by
  have hjoin : (v.joinOver env ws).Formed domain := hv.joinOver hws env
  have hiff {u : Value} (hu : u.Formed domain) := hv.ordered.joinOver_leq_iff (fun w hw => (hws w hw).ordered) hu.ordered
    henv henvs
  refine ⟨hjoin, env_joinOver _ _ _, List.forall_mem_cons.mpr ((hiff hjoin).mp (leq_refl _)), fun u hu _ hall => ?_⟩
  exact (hiff hu).mpr (List.forall_mem_cons.mp hall)

/-- The join of two values over one environment exists and is their least upper bound. -/
theorem exists_isLub_join (hv : v.Formed domain) (hw : w.Formed domain) (henv : v.env = env) (henv' : w.env = env) :
    ∃ u, v.join w = .ok u ∧ IsLub domain env [v, w] u := by
  refine ⟨v.joinOver env [w], ?_, isLub_joinOver hv (by simpa using hw) henv (by simpa using henv')⟩
  rw [join, henv, henv', Environment.union_self]
  rfl

end Value

/-- The environments of disjuncts over one environment agree. -/
theorem Environment.foldlM_union {env : Environment} {vs : List Value} (h : ∀ v ∈ vs, v.env = env) :
    vs.foldlM (fun env v => env.union v.env) env = (.ok env : Except Fault Environment) := by
  induction vs with
  | nil => rfl
  | cons v vs ih =>
    obtain ⟨hv, hvs⟩ := List.forall_mem_cons.mp h
    rw [List.foldlM_cons, hv, Environment.union_self]
    exact ih hvs

theorem Disjunction.exists_isLub_hull {domain : Domain} {env : Environment} {d : Disjunction}
    (hd : ∀ v ∈ d.toList, v.Formed domain) (henv : ∀ v ∈ d.toList, v.env = env) :
    ∃ u, d.hull = .ok u ∧ Value.IsLub domain env d.toList u := by
  obtain ⟨hfirst, hothers⟩ := List.forall_mem_cons.mp hd
  obtain ⟨henv₀, henvs⟩ := List.forall_mem_cons.mp henv
  refine ⟨d.first.joinOver env d.others, ?_, Value.isLub_joinOver hfirst hothers henv₀ henvs⟩
  rw [hull, henv₀, Environment.foldlM_union henvs]
  rfl

namespace Value

variable {domain : Domain} {env : Environment} {v : Value}

/-- The values of one domain over one environment. -/
def Over (domain : Domain) (env : Environment) : Set Value := {v | v.Formed domain ∧ v.env = env}

/-- The order is a preorder, joins are least upper bounds, and so they do not depend on the order and the grouping
of the operands; the hull of a union is the least upper bound of its disjuncts. -/
structure JoinLaws (domain : Domain) (env : Environment) : Prop where
  refl : ∀ v ∈ Over domain env, v.leq v = true
  trans : ∀ v ∈ Over domain env, ∀ w ∈ Over domain env, ∀ u ∈ Over domain env,
    v.leq w = true → w.leq u = true → v.leq u = true
  lub : ∀ v ∈ Over domain env, ∀ ws : List Value, (∀ w ∈ ws, w ∈ Over domain env) →
    IsLub domain env (v :: ws) (v.joinOver env ws)
  idempotent : ∀ v ∈ Over domain env, ∃ u, v.join v = .ok u ∧ u.equals v = true
  commutative : ∀ v ∈ Over domain env, ∀ w ∈ Over domain env,
    ∃ x y, v.join w = .ok x ∧ w.join v = .ok y ∧ x.equals y = true
  associative : ∀ v ∈ Over domain env, ∀ w ∈ Over domain env, ∀ u ∈ Over domain env, ∃ vw wu x y,
    v.join w = .ok vw ∧ vw.join u = .ok x ∧ w.join u = .ok wu ∧ v.join wu = .ok y ∧ x.equals y = true
  hull : ∀ d : Disjunction, (∀ v ∈ d.toList, v ∈ Over domain env) → ∃ u, d.hull = .ok u ∧ IsLub domain env d.toList u

theorem isLub_singleton (hv : v ∈ Over domain env) : IsLub domain env [v] v :=
  ⟨hv.1, hv.2, by simpa using leq_refl v, fun w _ _ hw => hw v (by simp)⟩

theorem join_laws (domain : Domain) (env : Environment) : JoinLaws domain env where
  refl v _ := leq_refl v
  trans v hv w hw u _ hvw hwu := hv.1.ordered.leq_trans hw.1.ordered hvw hwu
  lub v hv ws hws := isLub_joinOver hv.1 (fun w hw => (hws w hw).1) hv.2 fun w hw => (hws w hw).2
  idempotent v hv := by
    obtain ⟨u, hu, hlub⟩ := exists_isLub_join hv.1 hv.1 hv.2 hv.2
    exact ⟨u, hu, hlub.equals (isLub_singleton hv) (by simp)⟩
  commutative v hv w hw := by
    obtain ⟨x, hx, hlub⟩ := exists_isLub_join hv.1 hw.1 hv.2 hw.2
    obtain ⟨y, hy, hlub'⟩ := exists_isLub_join hw.1 hv.1 hw.2 hv.2
    exact ⟨x, y, hx, hy, hlub.equals hlub' (by simp [or_comm])⟩
  associative v hv w hw u hu := by
    obtain ⟨vw, hvw, hleft⟩ := exists_isLub_join hv.1 hw.1 hv.2 hw.2
    obtain ⟨x, hx, hlub⟩ := exists_isLub_join hleft.formed hu.1 hleft.env_eq hu.2
    obtain ⟨wu, hwu, hright⟩ := exists_isLub_join hw.1 hu.1 hw.2 hu.2
    obtain ⟨y, hy, hlub'⟩ := exists_isLub_join hv.1 hright.formed hv.2 hright.env_eq
    -- Both are least upper bounds of all three operands.
    have hthree := hleft.flatten (by simp [hv.1, hw.1]) hlub
    have hthree' : IsLub domain env ([w, u] ++ [v]) y :=
      hright.flatten (by simp [hw.1, hu.1]) (hlub'.congr (by simp [or_comm]))
    exact ⟨vw, wu, x, y, hvw, hx, hwu, hy, hthree.equals hthree' (by simp; tauto)⟩
  hull d hd := d.exists_isLub_hull (fun v hv => (hd v hv).1) fun v hv => (hd v hv).2

/-- Two points of the diagonal are below it, and so is their join. -/
theorem join_laws_diagonal :
    let env := Environment.ofInts ["x", "y"]
    let line := (top .intervalEqualities env).constrain (.eq (.var "x" - .var "y"))
    let v := ((top .intervalEqualities env).assign "x" (.const 1)).assign "y" (.const 1)
    let w := line.constrain (.eq (.var "x" - .const 3))
    v ∈ Over .intervalEqualities env ∧ w ∈ Over .intervalEqualities env ∧ v.leq line = true ∧ w.leq line = true ∧
      (v.joinOver env [w]).leq line = true := by
  intro env line v w
  have hline : line ∈ Over .intervalEqualities env := ⟨.constrain (.top env) _, by decide +kernel⟩
  have hv : v ∈ Over .intervalEqualities env := ⟨.assign (.assign (.top env) _ _) _ _, by decide +kernel⟩
  have hw : w ∈ Over .intervalEqualities env := ⟨.constrain hline.1 _, by decide +kernel⟩
  have hvl : v.leq line = true := by decide +kernel
  have hwl : w.leq line = true := by decide +kernel
  refine ⟨hv, hw, hvl, hwl, ((join_laws .intervalEqualities env).lub v hv [w] (by simpa using hw)).least line hline.1
    hline.2 ?_⟩
  simp [hvl, hwl]

end Value

end PathInvariants

import PathInvariants.Proofs.Concretizations

/-!
# Operations in the order

Where the results of the operations lie in the order of values, which compares ranges and rows as they are
written. Reductions and meets lie below their operands. Changes of environment, joins and widenings lie above,
whatever environments the operands have.
-/
namespace PathInvariants.Value

variable {domain : Domain} {u v w : Value} {ws : List Value} {thresholds : List LinearConstraint} {m : Valuation}

theorem leq_of_isBottom (h : v.isBottom = true) (w : Value) : v.leq w = true := if_pos h

/-- Reduction only tightens. -/
theorem reduce_leq (hv : v.eqs.Canonical) : v.reduce.leq v = true := by
  have hcollapse : v.collapse.leq v = true := leq_of_isBottom rfl v
  unfold reduce
  dsimp only
  split
  · exact hcollapse
  · split
    · exact leq_refl v
    · split
      · exact hcollapse
      · split
        · exact hcollapse
        · refine (leq_iff (canonical_allEqualities hv)).mpr ⟨?_, fun _ m hm => ?_⟩
          · exact Box.leq_iff_admits.mpr fun m hm => admits_of_foldl_propagate hm
          · -- What the box fixes is in the rows twice now, and the rows of `v` are among them.
            exact (solvedBy_allEqualities_iff.mp (solvedBy_allEqualities_iff.mp hm).1).1

theorem meet_leq_right (h : v.meet w = .ok u) : u.leq w = true := by
  obtain ⟨env, -, rfl⟩ := meet_eq h
  split
  · rename_i hb
    exact leq_of_isBottom hb w
  · have hcanonical : (v.eqs.meet w.eqs).Canonical := Equalities.canonical_ofRows _
    refine leq_trans (canonical_reduce hcanonical) hcanonical (reduce_leq hcanonical) ?_
    refine (leq_iff hcanonical).mpr ⟨Box.leq_iff_admits.mpr fun m hm => (Box.admits_meet.mp hm).2, fun _ m hm => ?_⟩
    exact ((Equalities.solvedBy_meet _ _ m).mp (solvedBy_allEqualities_iff.mp hm).1).2

theorem leq_forget (hv : v.eqs.Canonical) (s : Symbol) : v.leq (v.forget s) = true := by
  refine (leq_iff hv).mpr ⟨Box.leq_iff_admits.mpr fun m hm => Box.admits_forget (fun _ _ => rfl) hm, fun _ m hm => ?_⟩
  exact Equalities.solvedBy_project (fun _ _ => rfl) (solvedBy_allEqualities_iff.mp hm).1

theorem leq_withEnv (hv : v.eqs.Canonical) (env : Environment) : v.leq (v.withEnv env) = true := by
  have hfold : ∀ (dropped : List Symbol) (u : Value), u.eqs.Canonical → v.leq u = true →
      v.leq (dropped.foldl forget u) = true := by
    intro dropped
    induction dropped with
    | nil => exact fun u _ h => h
    | cons s ss ih =>
      exact fun u hu h => ih _ (canonical_forget hu s) (leq_trans hv hu h (leq_forget hu s))
  exact hfold _ v hv (leq_refl v)

/-- The equalities of a join or a widening hold wherever those of the first operand do, kept or not. -/
theorem solvedBy_joined_first (h : v.allEqualities.SolvedBy m) :
    (if v.isRelational then v.allEqualities.join w.allEqualities else v.eqs).SolvedBy m := by
  split
  · exact Equalities.solvedBy_join (.inl h)
  · exact (solvedBy_allEqualities_iff.mp h).1

theorem leq_joinAligned_first (hv : v.eqs.Canonical) : v.leq (v.joinAligned w) = true := by
  unfold joinAligned
  split
  · exact leq_refl v
  · split
    · rename_i hb
      exact leq_of_isBottom hb _
    · exact (leq_iff hv).mpr ⟨Box.leq_iff_admits.mpr fun m hm => Box.admits_join (.inl hm),
        fun _ m hm => solvedBy_joined_first hm⟩

theorem leq_widenAligned_first (hv : v.eqs.Canonical) (thresholds : List LinearConstraint) :
    v.leq (widenAligned thresholds v w) = true := by
  unfold widenAligned
  split
  · exact leq_refl v
  · split
    · rename_i hb
      exact leq_of_isBottom hb _
    · exact (leq_iff hv).mpr ⟨Box.leq_iff_admits.mpr fun m hm => Box.admits_widenTo (.inl hm),
        fun _ m hm => solvedBy_joined_first hm⟩

/-- A join over any environment lies above its first operand. -/
theorem leq_joinOver (hv : v.eqs.Canonical) (hws : ∀ w ∈ ws, w.eqs.Canonical) (env : Environment) :
    v.leq (v.joinOver env ws) = true := by
  have hfold : ∀ (ws : List Value) (u : Value), (∀ w ∈ ws, w.eqs.Canonical) → u.eqs.Canonical → v.leq u = true →
      v.leq (ws.foldl (fun u w => u.joinAligned (w.withEnv env)) u) = true := by
    intro ws
    induction ws with
    | nil => exact fun u _ _ h => h
    | cons w ws ih =>
      intro u hws hu h
      have hjoined := canonical_joinAligned hu (canonical_withEnv (hws w (by simp)) env)
      exact ih _ (fun x hx => hws x (by simp [hx])) hjoined (leq_trans hv hu h (leq_joinAligned_first hu))
  exact hfold ws _ hws (canonical_withEnv hv env) (leq_withEnv hv env)

/-- A widening lies above its first operand. -/
theorem leq_widenTo (hv : v.eqs.Canonical) (h : v.widenTo thresholds w = .ok u) : v.leq u = true := by
  obtain ⟨env, rfl⟩ := widenTo_eq h
  exact leq_widenAligned_first (v := { v with env }) (w := { w with env }) hv thresholds

/-- A join lies above its second operand too, if the operands are of one domain. -/
theorem Ordered.leq_join_right (hv : v.Ordered domain) (hw : w.Ordered domain) (h : v.join w = .ok u) :
    w.leq u = true := by
  obtain ⟨env, rfl⟩ := join_eq h
  have hwenv : (w.withEnv env).eqs.Canonical := canonical_withEnv hw.canonical env
  exact Value.leq_trans hw.canonical hwenv (leq_withEnv hw.canonical env)
    (leq_joinAligned_right ValueKind.rowless_ofDomain (hv.kind.withEnv env) hwenv)

/-- A value of ranges that takes over the equalities of another keeps them in every join, whatever the second operand
says. -/
example : let x := LinearExpr.var "x"
    let zero := (top .intervalEqualities (.ofInts ["x"])).constrain (.eq (x - .const 0))
    let v := (bottom .intervals (.ofInts ["x"])).joinAligned zero
    let w := top .intervalEqualities (.ofInts ["x"])
    w.leq (v.joinAligned w) = false := by decide +kernel

end PathInvariants.Value

import PathInvariants.Proofs.Entailment

/-!
# The representation of values

Every operation on values leaves equations in reduced echelon form, no equations beside an empty box,
and nothing said of a symbol outside the environment. A change of environment relies on the last, as it
looks at the symbols of the old environment only. So a value that goes to a larger environment and back
is unchanged.
-/
namespace PathInvariants

open PathInvariants.Echelon

/-- Dropping the range of a symbol that is unbound changes nothing. -/
theorem Box.Unbound.forget_eq {b : Box} {s : Symbol} (h : b.Unbound s) : b.forget s = b := by
  cases b with
  | bottom => rfl
  | ranges f hf =>
    have htop : f.get s = .top := h.resolve_left Box.noConfusion
    have hset : f.set s .top = f := by
      refine Sparse.ext fun t => ?_
      rw [Sparse.get_set]
      split
      · rename_i hts
        rw [hts, htop]
      · rfl
    rw [Box.forget, Box.set, hset, make, dif_pos hf]

namespace Equalities

variable {q : Equalities} {rows : List LinearExpr} {s : Symbol}

theorem Unbound.project_eq (h : q.Unbound s) : q.project s = q := by
  refine if_neg ?_
  rw [List.any_eq_true]
  rintro ⟨e, he, hs⟩
  exact LinearExpr.mentions_iff.mp hs (h e he)

/-- The rows are solved for the given symbols, in ascending order, and have no common factor. -/
structure InEchelonForm (q : Equalities) (leads : List Symbol) : Prop where
  leading : q.rows.map LinearExpr.leading? = leads.map some
  ascending : leads.Pairwise (· < ·)
  solved : q.Solved
  primitive : ∀ e ∈ q.rows, ∀ d : ℤ, (∀ s, d ∣ e.coeff s) → d ∣ e.constant → IsUnit d

/-- The form in which a system is kept: the equation `1 = 0`, or reduced rows. -/
def IsReduced (q : Equalities) : Prop := q = unsatisfiable ∨ ∃ leads, q.InEchelonForm leads

section Elimination

variable {order : List Symbol} {m : Echelon} {x : Row × ℕ} {n : ℕ}

theorem leading_ofRow (hm : Reduced n n m) (horder : order.Pairwise (· < ·)) (hx : x ∈ m.pivotRows)
    (hlt : x.2 < order.length) : (LinearExpr.ofRow x.1 order).leading? = some (order.getD x.2 "") := by
  rw [List.getD_eq_getElem _ _ hlt]
  cases hs : (LinearExpr.ofRow x.1 order).leading? with
  | some s => rw [pivot_of_leading hm horder hx hlt hs]
  | none =>
    have hcoeff := LinearExpr.coeff_ofRow_getElem (horder.imp fun h => String.ne_of_lt h) x.1 hlt
    have hconstant : (LinearExpr.ofRow x.1 order).isConstant = true :=
      List.isEmpty_iff.mpr (List.head?_eq_none_iff.mp (Option.map_eq_none_iff.mp hs))
    rw [LinearExpr.coeff_of_isConstant hconstant] at hcoeff
    exact absurd hcoeff.symm (hm.positive x hx).ne'

theorem isUnit_of_dvd_ofRow {r : Row} (hn : order.Nodup) (hr : r.IsPrimitive) (hlength : r.length = order.length + 1)
    {d : ℤ} (hcoeff : ∀ s, d ∣ (LinearExpr.ofRow r order).coeff s) (hconst : d ∣ (LinearExpr.ofRow r order).constant) :
    IsUnit d := by
  refine hr d fun i => ?_
  rcases Nat.lt_trichotomy i order.length with hlt | rfl | hgt
  · rw [← LinearExpr.coeff_ofRow_getElem hn r hlt]
    exact hcoeff _
  · rwa [← LinearExpr.constant_ofRow]
  · rw [Row.entry, List.getD_eq_default _ _ (by omega)]
    exact dvd_zero d

/-- Elimination without a contradiction leaves the rows in echelon form. -/
theorem inEchelonForm (hm : Reduced (order.length + 1) (order.length + 1) m) (horder : order.Pairwise (· < ·))
    (hlt : ∀ x ∈ m.pivotRows, x.2 < order.length) (hprim : ∀ r ∈ m.rows, r.IsPrimitive)
    (hsolved : Solved ⟨m.rows.map (LinearExpr.ofRow · order)⟩) :
    InEchelonForm ⟨m.rows.map (LinearExpr.ofRow · order)⟩ (m.pivots.map (order.getD · "")) := by
  have hrows : m.rows = m.pivotRows.map (·.1) := (List.map_fst_zip hm.paired.le).symm
  have hpivots : m.pivots = m.pivotRows.map (·.2) := (List.map_snd_zip hm.paired.ge).symm
  constructor
  case leading =>
    rw [hrows, hpivots]
    simp only [List.map_map]
    exact List.map_congr_left fun x hx => leading_ofRow hm horder hx (hlt x hx)
  case ascending =>
    refine List.pairwise_map.mpr (hm.increasing.imp_of_mem fun {i j} hi hj hij => ?_)
    have hbound : ∀ p ∈ m.pivots, p < order.length := by
      rw [hpivots]
      exact List.forall_mem_map.mpr hlt
    rw [List.getD_eq_getElem _ _ (hbound i hi), List.getD_eq_getElem _ _ (hbound j hj)]
    exact List.pairwise_iff_getElem.mp horder i j _ _ hij
  case solved => exact hsolved
  case primitive =>
    refine List.forall_mem_map.mpr fun r hr d => ?_
    exact isUnit_of_dvd_ofRow (horder.imp fun h => String.ne_of_lt h) (hprim r hr)
      (hm.width r (List.mem_append_left _ hr))

end Elimination

theorem Canonical.isReduced (hq : q.Canonical) : q.IsReduced := by
  have hsolved := hq.solved
  obtain ⟨rows, rfl⟩ := hq
  let order := symbolsOf rows
  let m := Echelon.ofRows (rows.map (·.toRow order)) (order.length + 1)
  have hm : Reduced (order.length + 1) (order.length + 1) m := reduced_ofRows length_of_mem_map_toRow
  by_cases hp : m.pivots.getLast? = some order.length
  · exact .inl (if_pos hp)
  · have heq : ofRows rows = ⟨m.rows.map (LinearExpr.ofRow · order)⟩ := if_neg hp
    rw [heq] at hsolved ⊢
    exact .inr ⟨_, inEchelonForm hm (Symbol.pairwise_sort _) (fun x hx => pivot_lt hm hp hx)
      (isPrimitive_ofRows length_of_mem_map_toRow) hsolved⟩

end Equalities

namespace Value

variable {env : Environment} {u v w : Value} {ws : List Value} {s : Symbol}

/-- No equations stand beside an empty box. -/
def Cleared (v : Value) : Prop := v.isBottom = true → v.eqs = .empty

theorem cleared_collapse (v : Value) : v.collapse.Cleared := fun _ => rfl

theorem cleared_of_ne (h : v.box ≠ .bottom) : v.Cleared := fun hb => absurd (Box.isBottom_iff.mp hb) h

/-- A value above an inhabited box has an inhabited box. -/
theorem cleared_of_admits {b : Box} (hb : b ≠ .bottom) (h : ∀ m, b.Admits m → v.box.Admits m) : v.Cleared :=
  cleared_of_ne (Box.ne_bottom_of_leq hb (Box.leq_iff_admits.mpr h))

theorem cleared_reduce (v : Value) : v.reduce.Cleared := by
  unfold reduce
  split
  · exact cleared_collapse v
  · rename_i hbox
    split
    · exact fun hb => absurd hb hbox
    · dsimp only
      split
      · exact cleared_collapse v
      · split
        · exact cleared_collapse v
        · rename_i hbox
          exact fun hb => absurd hb hbox

namespace Cleared

theorem assign (hv : v.Cleared) (s : Symbol) (e : LinearExpr) : (v.assign s e).Cleared := by
  unfold Value.assign
  dsimp only
  split
  · exact hv
  · exact cleared_reduce _

theorem forget (hv : v.Cleared) (s : Symbol) : (v.forget s).Cleared := by
  intro hb
  by_cases hbox : v.box = .bottom
  · have heqs : v.eqs = .empty := hv (Box.isBottom_iff.mpr hbox)
    change v.eqs.project s = .empty
    rw [heqs]
    rfl
  · exact cleared_of_admits hbox (fun m => Box.admits_forget fun _ _ => rfl) hb

theorem constrain (hv : v.Cleared) (c : LinearConstraint) : (v.constrain c).Cleared := by
  unfold Value.constrain
  dsimp only
  split
  · exact hv
  · split
    · exact hv
    · exact cleared_collapse _
    · exact cleared_reduce _

theorem withEnv (hv : v.Cleared) (env : Environment) : (v.withEnv env).Cleared := by
  unfold Value.withEnv
  generalize (v.env.symbols.filter fun s => !env.contains s) = dropped
  induction dropped generalizing v with
  | nil => exact hv
  | cons s ss ih => exact ih (hv.forget s)

theorem joinAligned (hv : v.Cleared) : (v.joinAligned w).Cleared := by
  unfold Value.joinAligned
  split
  · exact hv
  · rename_i hw
    split
    · exact fun hb => absurd hb hw
    · rename_i hvb
      exact cleared_of_admits (mt Box.isBottom_iff.mpr hvb) fun m hm => Box.admits_join (.inl hm)

theorem joinOver (hv : v.Cleared) (env : Environment) (ws : List Value) : (v.joinOver env ws).Cleared := by
  unfold Value.joinOver
  have hstart := hv.withEnv env
  generalize v.withEnv env = u at hstart
  induction ws generalizing u with
  | nil => exact hstart
  | cons w ws ih => exact ih _ hstart.joinAligned

theorem meet (hv : v.Cleared) (h : v.meet w = .ok u) : u.Cleared := by
  obtain ⟨env, -, rfl⟩ := meet_eq h
  split
  · exact hv
  · exact cleared_reduce _

theorem narrow (hv : v.Cleared) (h : v.narrow w = .ok u) : u.Cleared := by
  obtain ⟨env, -, rfl⟩ := narrow_eq h
  split
  · exact hv
  · split
    · exact cleared_collapse _
    · exact cleared_reduce _

theorem widenTo {thresholds : List LinearConstraint} (hv : v.Cleared) (h : v.widenTo thresholds w = .ok u) :
    u.Cleared := by
  obtain ⟨env, rfl⟩ := widenTo_eq h
  unfold widenAligned
  split
  · exact hv
  · rename_i hw
    split
    · exact fun hb => absurd hb hw
    · rename_i hvb
      exact cleared_of_admits (mt Box.isBottom_iff.mpr hvb) fun m hm => Box.admits_widenTo (.inl hm)

end Cleared

theorem Composed.cleared (h : v.Composed) : v.Cleared := by
  induction h with
  | top domain env => exact cleared_of_ne Box.noConfusion
  | bottom domain env => exact fun _ => rfl
  | assign _ s e ih => exact ih.assign s e
  | forget _ s ih => exact ih.forget s
  | constrain _ c ih => exact ih.constrain c
  | withEnv _ env ih => exact ih.withEnv env
  | joinOver _ _ env ih _ => exact ih.joinOver env _
  | join _ _ h ihv _ =>
    obtain ⟨env, rfl⟩ := join_eq h
    exact ihv.joinOver env _
  | meet _ _ h ihv _ => exact ihv.meet h
  | narrow _ _ h ihv _ => exact ihv.narrow h
  | widenTo _ _ h ihv _ => exact ihv.widenTo h

theorem Composed.constrainAll (h : v.Composed) (cs : List LinearConstraint) : (v.constrainAll cs).Composed := by
  unfold Value.constrainAll
  induction cs generalizing v with
  | nil => exact h
  | cons c cs ih => exact ih (h.constrain c)

/-- What the operations rely on in the representation of a value. -/
structure WellFormed (v : Value) : Prop where
  bound : ∀ b ∈ v.box.bindings, v.env.contains b.1 = true
  mentioned : ∀ e ∈ v.eqs.rows, ∀ s ∈ e.symbols, v.env.contains s = true
  cleared : v.isBottom = true → v.eqs.rows = []
  bindings : ∀ b ∈ v.box.bindings, b.2 ≠ .top ∧ b.2 ≠ .bottom
  reduced : v.eqs.IsReduced

theorem Composed.wellFormed (h : v.Composed) : v.WellFormed := by
  constructor
  case bound =>
    intro b hb
    obtain ⟨hget, htop, hne⟩ := Box.mem_bindings.mp hb
    by_contra hfree
    have hunbound := (h.scoped b.1 (by simpa using hfree)).1.resolve_left hne
    exact htop (hget.symm.trans hunbound)
  case mentioned =>
    intro e he s hs
    by_contra hfree
    exact LinearExpr.mem_symbols.mp hs ((h.scoped s (by simpa using hfree)).2 e he)
  case cleared => exact fun hb => congrArg Equalities.rows (h.cleared hb)
  case bindings => exact fun b => Box.ne_of_mem_bindings
  case reduced => exact h.canonical.isReduced

theorem WellFormed.scoped (h : v.WellFormed) : v.Scoped := by
  intro s hs
  constructor
  · refine or_iff_not_imp_left.mpr fun hne => ?_
    by_contra htop
    rw [h.bound _ (Box.mem_bindings.mpr ⟨rfl, htop, hne⟩)] at hs
    cases hs
  · intro e he
    by_contra hcoeff
    rw [h.mentioned e he s (LinearExpr.mem_symbols.mpr hcoeff)] at hs
    cases hs

theorem Unbound.forget_eq (h : v.Unbound s) : v.forget s = v := by
  rw [Value.forget, h.1.forget_eq, h.2.project_eq]

theorem foldl_forget {dropped : List Symbol} (h : ∀ s ∈ dropped, v.Unbound s) : dropped.foldl Value.forget v = v := by
  induction dropped with
  | nil => rfl
  | cons s ss ih =>
    rw [List.foldl_cons, (h s List.mem_cons_self).forget_eq]
    exact ih fun t ht => h t (List.mem_cons_of_mem s ht)

/-- The symbols that a larger environment adds are dropped again without a trace. -/
theorem WellFormed.withEnv_withEnv (hv : v.WellFormed) (henv : ∀ s, v.env.contains s = true → env.contains s = true) :
    (v.withEnv env).withEnv v.env = v := by
  rw [withEnv_of_subset henv, Value.withEnv]
  have hdropped : ∀ s ∈ env.symbols.filter fun s => !v.env.contains s, Unbound { v with env } s := by
    intro s hs
    exact hv.scoped s (by simpa using (List.mem_filter.mp hs).2)
  rw [foldl_forget hdropped]

/-- Every value that the operations build is well formed, and a detour through a larger environment does not
change it. -/
theorem composed_representation (h : v.Composed) :
    v.WellFormed ∧ ∀ env, v.env.isSubset env = true → (v.withEnv env).withEnv v.env = v := by
  refine ⟨h.wellFormed, fun env hsubset => h.wellFormed.withEnv_withEnv fun s hs => ?_⟩
  have hkind := List.all_eq_true.mp hsubset s (Sparse.mem_support.mpr (Environment.contains_iff.mp hs))
  rw [Environment.contains, ← eq_of_beq hkind]
  exact hs

/-- Two counters that run in step. -/
def lockstep : Value :=
  (top .intervalEqualities (.ofInts ["x", "y"])).constrainAll [.eq (.var "x" - .var "y"), .ge (.var "x")]

theorem composed_representation_lockstep : lockstep.Composed ∧ lockstep.isTop = false ∧ lockstep.WellFormed ∧
    (lockstep.withEnv (.ofInts ["x", "y", "z"])).withEnv lockstep.env = lockstep := by
  have hcomposed : lockstep.Composed := Composed.constrainAll (.top _ _) _
  have hrepresentation := composed_representation hcomposed
  exact ⟨hcomposed, by decide +kernel, hrepresentation.1, hrepresentation.2 _ (by decide +kernel)⟩

end Value

end PathInvariants

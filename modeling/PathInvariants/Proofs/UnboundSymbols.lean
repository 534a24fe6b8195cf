import PathInvariants.Proofs.ValueStates

/-!
# Unbound symbols

Symbols of which a value says nothing: their range is the whole line and no equation mentions them.
Operations bind no symbol but those of their operands, so the states of a value do not depend on
symbols that never came up while it was built.
-/
namespace PathInvariants

namespace Box

/-- The range of the symbol is the whole line, unless the box is empty. -/
def Unbound (b : Box) (s : Symbol) : Prop := b = .bottom ∨ b.get s = .top

variable {a b : Box} {s t : Symbol} {i : Interval}

theorem unbound_make {f : Sparse Interval.top} (h : f.get s = .top) : (make f).Unbound s := by
  unfold make
  split
  · exact .inr h
  · exact .inl rfl

theorem Unbound.set (h : b.Unbound s) (hs : s ≠ t ∨ i = .top) : (b.set t i).Unbound s := by
  cases b with
  | bottom => exact .inl rfl
  | ranges f hf =>
    refine unbound_make ?_
    rw [Sparse.get_set]
    split
    · rename_i hst
      exact hs.resolve_left fun hne => hne hst
    · exact h.resolve_left nofun

theorem unbound_forget (b : Box) (s : Symbol) : (b.forget s).Unbound s := by
  cases b with
  | bottom => exact .inl rfl
  | ranges f hf => exact unbound_make (by rw [Sparse.get_set, if_pos rfl])

theorem unbound_zipWith {f g : Sparse Interval.top} {op : Interval → Interval → Interval} (hop : op .top .top = .top)
    (hf : f.get s = .top) (hg : g.get s = .top) : (make (Sparse.zipWith op f g)).Unbound s := by
  refine unbound_make ?_
  rw [Sparse.get_zipWith hop, hf, hg, hop]

theorem Unbound.above {op : Interval → Interval → Interval} (h : ∀ {i j n}, n ∈ i ∨ n ∈ j → n ∈ op i j)
    (hop : Interval.Absorbing op) (ha : a.Unbound s) (hb : b.Unbound s) : (above op h a b).Unbound s := by
  cases a with
  | bottom => exact hb
  | ranges f hf =>
    cases b with
    | bottom => exact ha
    | ranges g hg =>
      rw [above_ranges hop]
      exact unbound_zipWith (hop.left _) (ha.resolve_left nofun) (hb.resolve_left nofun)

theorem Unbound.below {op : Interval → Interval → Interval} (hop : Interval.Neutral op) (ha : a.Unbound s)
    (hb : b.Unbound s) : (below op a b).Unbound s := by
  cases a with
  | bottom => exact .inl rfl
  | ranges f hf =>
    cases b with
    | bottom => exact .inl rfl
    | ranges g hg =>
      rw [below_ranges hop]
      exact unbound_zipWith (hop.left _) (ha.resolve_left nofun) (hb.resolve_left nofun)

theorem Unbound.widenTo {lower upper : Symbol → List ℤ} (ha : a.Unbound s) (hb : b.Unbound s) :
    (widenTo lower upper a b).Unbound s := by
  cases a with
  | bottom => exact hb
  | ranges f hf =>
    cases b with
    | bottom => exact ha
    | ranges g hg =>
      refine unbound_make ?_
      rw [Sparse.get_ofFn, if_neg]
      rw [Sparse.mem_support, not_not]
      exact ha.resolve_left nofun

/-- A constraint tightens the symbols it mentions. -/
theorem Unbound.propagate {integral : Symbol → Bool} {e : LinearExpr} {comparison : Comparison} (h : b.Unbound s)
    (he : e.coeff s = 0) : (b.propagate integral e comparison).Unbound s := by
  have hfold : ∀ ts : List (Symbol × ℤ), (∀ t ∈ ts, t ∈ e.terms) → ∀ b : Box, b.Unbound s →
      (ts.foldl (fun b t => b.tighten integral e comparison t.1 t.2) b).Unbound s := by
    intro ts
    induction ts with
    | nil => exact fun _ b hb => hb
    | cons t ts ih =>
      intro hts b hb
      obtain ⟨hc, hne⟩ := LinearExpr.coeff_of_mem_terms (hts t (by simp))
      refine ih (fun u hu => hts u (by simp [hu])) _ (hb.set (.inl ?_))
      rintro rfl
      exact hne (hc.symm.trans he)
  exact hfold e.terms (fun _ ht => ht) b h

theorem Unbound.foldl_propagate {integral : Symbol → Bool} {rows : List LinearExpr} (h : b.Unbound s)
    (hrows : ∀ e ∈ rows, e.coeff s = 0) :
    (rows.foldl (fun b row => b.propagate integral row .eq) b).Unbound s := by
  induction rows generalizing b with
  | nil => exact h
  | cons e rows ih => exact ih (h.propagate (hrows e (by simp))) fun f hf => hrows f (by simp [hf])

/-- The points of a box do not depend on an unbound symbol. -/
theorem Unbound.admits_congr {m m' : Valuation} (h : ∀ s, m s = m' s ∨ b.Unbound s) (hb : b.Admits m) :
    b.Admits m' := by
  intro s
  rcases h s with heq | hs
  · rw [← heq]
    exact hb s
  · rw [hs.resolve_left (ne_bottom hb)]
    exact Interval.admits_top _

end Box

namespace LinearExpr

theorem coeff_ofRow {row : Row} {symbols : List Symbol} {s : Symbol} (hs : s ∉ symbols) :
    (ofRow row symbols).coeff s = 0 := by
  have hfold : ∀ (ts : List (Symbol × ℤ)) (e : LinearExpr), (∀ t ∈ ts, t.1 ≠ s) →
      (ts.foldl (fun e t => e.addTerm t.2 t.1) e).coeff s = e.coeff s := by
    intro ts
    induction ts with
    | nil => exact fun _ _ => rfl
    | cons t ts ih =>
      intro e hts
      have hne : ¬ s = t.1 := fun h => hts t (by simp) h.symm
      rw [List.foldl_cons, ih _ fun u hu => hts u (by simp [hu]), addTerm_eq, coeff_add, coeff_term, if_neg hne,
        add_zero]
  rw [ofRow, hfold _ _ fun t ht => ?_, coeff_const]
  rintro rfl
  exact hs (List.of_mem_zip ht).1

end LinearExpr

namespace Equalities

/-- No equation mentions the symbol. -/
def Unbound (q : Equalities) (s : Symbol) : Prop := ∀ e ∈ q.rows, e.coeff s = 0

variable {p q : Equalities} {s t : Symbol}

theorem unbound_empty (s : Symbol) : empty.Unbound s := nofun

theorem unbound_eliminate {rows : List LinearExpr} {order : List Symbol} (hs : s ∉ order) :
    (eliminate rows order).Unbound s := by
  unfold eliminate
  dsimp only
  split
  · intro e he
    rw [List.mem_singleton.mp he]
    exact LinearExpr.coeff_const 1 s
  · intro e he
    obtain ⟨row, -, rfl⟩ := List.mem_map.mp he
    exact LinearExpr.coeff_ofRow hs

theorem not_mem_symbolsOf {rows : List LinearExpr} (h : ∀ e ∈ rows, e.coeff s = 0) : s ∉ symbolsOf rows := by
  intro hs
  obtain ⟨e, he, hmem⟩ := List.mem_flatMap.mp (Symbol.mem_sort.mp hs)
  exact LinearExpr.mem_symbols.mp hmem (h e he)

theorem unbound_ofRows {rows : List LinearExpr} (h : ∀ e ∈ rows, e.coeff s = 0) : (ofRows rows).Unbound s :=
  unbound_eliminate (not_mem_symbolsOf h)

theorem Unbound.extend {equations : List LinearExpr} (h : q.Unbound s) (he : ∀ e ∈ equations, e.coeff s = 0) :
    (q.extend equations).Unbound s :=
  unbound_ofRows fun e hm => (List.mem_append.mp hm).elim (h e) (he e)

theorem Unbound.add {e : LinearExpr} (h : q.Unbound s) (he : e.coeff s = 0) : (q.add e).Unbound s :=
  h.extend (by simpa using he)

theorem Unbound.meet (hp : p.Unbound s) (hq : q.Unbound s) : (p.meet q).Unbound s := hp.extend hq

theorem Unbound.join (hp : p.Unbound s) (hq : q.Unbound s) : (p.join q).Unbound s := by
  unfold Equalities.join
  split
  · exact hq
  · split
    · exact hp
    · refine unbound_ofRows fun e he => ?_
      obtain ⟨row, -, rfl⟩ := List.mem_map.mp he
      exact LinearExpr.coeff_ofRow (not_mem_symbolsOf fun e he => (List.mem_append.mp he).elim (hp e) (hq e))

theorem unbound_project (q : Equalities) (s : Symbol) : (q.project s).Unbound s := by
  unfold project
  split
  · refine unbound_ofRows fun e he => ?_
    simpa [LinearExpr.mentions] using (List.mem_filter.mp he).2
  · rename_i hfree
    intro e he
    by_contra hne
    exact hfree (List.any_eq_true.mpr ⟨e, he, LinearExpr.mentions_iff.mpr hne⟩)

theorem Unbound.project (h : q.Unbound s) : (q.project t).Unbound s := by
  by_cases hst : s = t
  · rw [hst]
    exact unbound_project q t
  · unfold Equalities.project
    split
    · refine unbound_ofRows fun e he => unbound_eliminate ?_ e (List.mem_filter.mp he).1
      rw [List.mem_cons, not_or]
      exact ⟨hst, fun hmem => not_mem_symbolsOf h (List.mem_filter.mp hmem).1⟩
    · exact h

theorem Unbound.substitute {e : LinearExpr} (h : q.Unbound s) (he : e.coeff s = 0) (hst : s ≠ t) :
    (q.substitute t e).Unbound s := by
  refine unbound_ofRows fun f hf => ?_
  obtain ⟨row, hrow, rfl⟩ := List.mem_map.mp hf
  split
  · simp [LinearExpr.coeff_sub, LinearExpr.coeff_add, LinearExpr.coeff_scale, LinearExpr.coeff_without,
      LinearExpr.coeff_term, h row hrow, he, hst]
  · exact h row hrow

/-- The solutions do not depend on an unbound symbol. -/
theorem Unbound.solvedBy_congr {m m' : Valuation} (h : ∀ s, m s = m' s ∨ q.Unbound s) (hq : q.SolvedBy m) :
    q.SolvedBy m' := by
  intro e he
  rw [← hq e he]
  refine LinearExpr.value_congr fun s hs => ?_
  exact ((h s).resolve_right fun hu => hs (hu e he)).symm

end Equalities

namespace Value

/-- Neither the box nor the equations say anything of the symbol. -/
def Unbound (v : Value) (s : Symbol) : Prop := v.box.Unbound s ∧ v.eqs.Unbound s

variable {v w : Value} {s t : Symbol} {e : LinearExpr}

theorem unbound_top (domain : Domain) (env : Environment) (s : Symbol) : (top domain env).Unbound s :=
  ⟨.inr rfl, Equalities.unbound_empty s⟩

theorem unbound_bottom (domain : Domain) (env : Environment) (s : Symbol) : (bottom domain env).Unbound s :=
  ⟨.inl rfl, Equalities.unbound_empty s⟩

theorem unbound_collapse (v : Value) (s : Symbol) : v.collapse.Unbound s := ⟨.inl rfl, Equalities.unbound_empty s⟩

/-- A symbol that the box fixes has a range. -/
theorem coeff_fixedSymbols (h : v.box.Unbound s) : ∀ e ∈ v.fixedSymbols, e.coeff s = 0 := by
  intro e he
  obtain ⟨⟨t, i⟩, ht, hi⟩ := List.mem_filterMap.mp he
  obtain ⟨c, hc, rfl⟩ := Option.map_eq_some_iff.mp hi
  have hne : s ≠ t := by
    rintro rfl
    cases hb : v.box with
    | bottom => simp [hb, Box.bindings] at ht
    | ranges f hf =>
      rw [hb] at ht h
      obtain ⟨hget, htop⟩ := Sparse.mem_entries.mp ht
      exact htop (hget.symm.trans (h.resolve_left Box.noConfusion))
  rw [LinearExpr.coeff_sub, LinearExpr.coeff_const, LinearExpr.var, LinearExpr.coeff_term, if_neg hne, sub_zero]

theorem Unbound.allEqualities (h : v.Unbound s) : v.allEqualities.Unbound s := by
  unfold Value.allEqualities
  split
  · exact h.2
  · exact h.2.extend (coeff_fixedSymbols h.1)

theorem Unbound.reduce (h : v.Unbound s) : v.reduce.Unbound s := by
  unfold Value.reduce
  dsimp only
  split
  · exact unbound_collapse v s
  · split
    · exact h
    · split
      · exact unbound_collapse v s
      · split
        · exact unbound_collapse v s
        · exact ⟨h.1.foldl_propagate h.allEqualities, h.allEqualities⟩

theorem Unbound.assign (h : v.Unbound s) (he : e.coeff s = 0) (hst : s ≠ t) : (v.assign t e).Unbound s := by
  unfold Value.assign
  dsimp only
  split
  · exact h
  · refine Unbound.reduce ⟨(h.1.set (.inr rfl)).set (.inl hst), ?_⟩
    dsimp only
    split
    · exact h.2
    · split
      · exact h.2.substitute he hst
      · refine h.2.project.add ?_
        rw [LinearExpr.coeff_sub, LinearExpr.var, LinearExpr.coeff_term, if_neg hst, he, sub_zero]

theorem unbound_forget (v : Value) (s : Symbol) : (v.forget s).Unbound s :=
  ⟨Box.unbound_forget v.box s, Equalities.unbound_project v.eqs s⟩

theorem Unbound.forget (h : v.Unbound s) (t : Symbol) : (v.forget t).Unbound s := ⟨h.1.set (.inr rfl), h.2.project⟩

theorem coeff_reduced {comparison : Comparison} (he : e.coeff s = 0) :
    (LinearConstraint.reduced e comparison).expr.coeff s = 0 := by
  unfold LinearConstraint.reduced
  dsimp only
  split
  · exact he
  · split
    · simp [LinearExpr.coeff_divide, he]
    · rfl

theorem coeff_sharpen {c : LinearConstraint} (hc : c.expr.coeff s = 0) : (v.sharpen c).expr.coeff s = 0 := by
  unfold sharpen
  split
  · unfold LinearConstraint.tightened
    split
    · exact coeff_reduced (by rw [LinearExpr.coeff_sub, hc, LinearExpr.coeff_const, sub_zero])
    · exact coeff_reduced hc
  · exact hc

theorem Unbound.constrain {c : LinearConstraint} (h : v.Unbound s) (hc : c.expr.coeff s = 0) :
    (v.constrain c).Unbound s := by
  unfold Value.constrain
  dsimp only
  split
  · exact h
  · split
    · exact h
    · exact unbound_collapse _ s
    · refine Unbound.reduce ⟨h.1.propagate (coeff_sharpen hc), ?_⟩
      dsimp only
      split
      · exact h.2.add (coeff_sharpen hc)
      · exact h.2

/-- A change of environment leaves a symbol unbound that it drops, or that was unbound before. -/
theorem unbound_withEnv {env : Environment} (h : v.Unbound s ∨ v.env.contains s = true ∧ env.contains s = false) :
    (v.withEnv env).Unbound s := by
  have hfold : ∀ (dropped : List Symbol) (v : Value), v.Unbound s ∨ s ∈ dropped → (dropped.foldl Value.forget v).Unbound s := by
    intro dropped
    induction dropped with
    | nil => exact fun v hv => hv.resolve_right nofun
    | cons t ts ih =>
      intro v hv
      refine ih _ ?_
      rcases hv with hv | hv
      · exact .inl (hv.forget t)
      · rcases List.mem_cons.mp hv with rfl | hv
        · exact .inl (unbound_forget v s)
        · exact .inr hv
  refine hfold _ v (h.imp_right fun hs => List.mem_filter.mpr ⟨?_, by simp [hs.2]⟩)
  exact Sparse.mem_support.mpr (Environment.contains_iff.mp hs.1)

theorem Unbound.joinAligned (hv : v.Unbound s) (hw : w.Unbound s) : (v.joinAligned w).Unbound s := by
  unfold Value.joinAligned
  split
  · exact hv
  · split
    · exact hw
    · refine ⟨hv.1.above Interval.mem_join Interval.absorbing_join hw.1, ?_⟩
      dsimp only
      split
      · exact hv.allEqualities.join hw.allEqualities
      · exact hv.2

theorem Unbound.widenAligned (thresholds : List LinearConstraint) (hv : v.Unbound s) (hw : w.Unbound s) :
    (Value.widenAligned thresholds v w).Unbound s := by
  unfold Value.widenAligned
  split
  · exact hv
  · split
    · exact hw
    · refine ⟨hv.1.widenTo (hv.1.above Interval.mem_join Interval.absorbing_join hw.1), ?_⟩
      dsimp only
      split
      · exact hv.allEqualities.join hw.allEqualities
      · exact hv.2

/-- The states do not depend on unbound symbols. -/
theorem Unbound.allows_congr {m m' : Valuation} (h : ∀ s, m s = m' s ∨ v.Unbound s) (hv : v.Allows m) :
    v.Allows m' :=
  ⟨Box.Unbound.admits_congr (fun s => (h s).imp_right And.left) hv.1, fun hr =>
    Equalities.Unbound.solvedBy_congr (fun s => (h s).imp_right And.right) (hv.2 hr)⟩

end Value

end PathInvariants

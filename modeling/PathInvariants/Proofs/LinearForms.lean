import PathInvariants.Proofs.BoxLattice
import PathInvariants.Proofs.ReducedRows
import PathInvariants.Proofs.ThresholdWidening

/-!
# Linear forms

A linear expression is as good as the function of the valuation that it evaluates to. The operations on
expressions are the operations on these functions, at integers and at rationals alike. An expression keeps
one term for each symbol that its value depends on, so expressions with the same value at all integers are
equal. The strongest form of a constraint has the integer solutions of the constraint and no divisor in
common, and its complement has all other rational valuations for solutions.
-/
namespace PathInvariants

namespace LinearExpr

variable {e f : LinearExpr} {s : Symbol} {c d : ℤ}

/-- The expressions that sequences of operations build. -/
inductive Composed : LinearExpr → Prop
  | zero : Composed zero
  | const (c : ℤ) : Composed (const c)
  | var (s : Symbol) : Composed (var s)
  | term (c : ℤ) (s : Symbol) : Composed (term c s)
  | addTerm {e : LinearExpr} (he : Composed e) (c : ℤ) (s : Symbol) : Composed (e.addTerm c s)
  | scale {e : LinearExpr} (he : Composed e) (k : ℤ) : Composed (e.scale k)
  | without {e : LinearExpr} (he : Composed e) (s : Symbol) : Composed (e.without s)
  | substitute {e f : LinearExpr} (he : Composed e) (s : Symbol) (hf : Composed f) : Composed (e.substitute s f)
  | add {e f : LinearExpr} (he : Composed e) (hf : Composed f) : Composed (e + f)
  | sub {e f : LinearExpr} (he : Composed e) (hf : Composed f) : Composed (e - f)
  | neg {e : LinearExpr} (he : Composed e) : Composed (-e)

/-- An expression is built by adding its terms to its constant, the last first. -/
theorem composed (e : LinearExpr) : e.Composed := by
  obtain ⟨⟨entries, ascending, exceptional⟩, constant⟩ := e
  induction entries with
  | nil => exact .const constant
  | cons t ts ih =>
    have hrest := ih (List.pairwise_cons.mp ascending).2 fun x hx => exceptional x (List.mem_cons_of_mem t hx)
    have hadd := hrest.addTerm t.2 t.1
    have hfree : Sparse.lookup 0 t.1 ts = 0 := Sparse.lookup_eq_default_of_lt (List.pairwise_cons.mp ascending).1
    rwa [LinearExpr.addTerm, coeff, Sparse.get, hfree, zero_add, Sparse.set_tail ascending exceptional] at hadd

/-- Every operation on expressions is an operation on their values in a ring. -/
structure IsEvaluation {R : Type} [CommRing R] (eval : LinearExpr → (Symbol → R) → R) : Prop where
  zero : ∀ m, eval zero m = 0
  const : ∀ c m, eval (const c) m = c
  var : ∀ s m, eval (var s) m = m s
  term : ∀ c s m, eval (term c s) m = c * m s
  addTerm : ∀ e c s m, eval (e.addTerm c s) m = eval e m + c * m s
  scale : ∀ e k m, eval (e.scale k) m = k * eval e m
  without : ∀ e s m, eval (e.without s) m = eval e (Function.update m s 0)
  substitute : ∀ e s f m, eval (e.substitute s f) m = eval e (Function.update m s (eval f m))
  add : ∀ e f m, eval (e + f) m = eval e m + eval f m
  sub : ∀ e f m, eval (e - f) m = eval e m - eval f m
  neg : ∀ e m, eval (-e) m = -eval e m

theorem value_substitute (e f : LinearExpr) (s : Symbol) (m : Valuation) :
    (e.substitute s f).value m = e.value (Function.update m s (f.value m)) := by
  rw [substitute, value_add, value_without, value_scale, value_update_eq]
  ring

theorem isEvaluation_value : IsEvaluation value := by
  constructor
  case zero =>
    intro m
    rw [LinearExpr.zero, value_const, Int.cast_zero]
  case const => exact value_const
  case var => exact value_var
  case term => exact value_term
  case addTerm => exact value_addTerm
  case scale =>
    intro e k m
    rw [value_scale, mul_comm]
  case without =>
    intro e s m
    rw [value_without, value_update_eq]
    ring
  case substitute => exact fun e s f m => value_substitute e f s m
  case add => exact value_add
  case sub => exact value_sub
  case neg => exact value_neg

/-- An evaluation is one in every subring that it does not leave. -/
theorem IsEvaluation.restrict {R S : Type} [CommRing R] [CommRing S] {eval : LinearExpr → (Symbol → S) → S}
    {eval' : LinearExpr → (Symbol → R) → R} (h : IsEvaluation eval) (ι : R →+* S) (hι : Function.Injective ι)
    (hcast : ∀ e m, eval e (ι ∘ m) = ι (eval' e m)) : IsEvaluation eval' := by
  constructor <;> intros <;> apply hι
  case zero => rw [← hcast, h.zero, map_zero]
  case const => rw [← hcast, h.const, map_intCast]
  case var => rw [← hcast, h.var, Function.comp]
  case term => rw [← hcast, h.term, map_mul, map_intCast, Function.comp]
  case addTerm => rw [← hcast, h.addTerm, hcast, map_add, map_mul, map_intCast, Function.comp]
  case scale => rw [← hcast, h.scale, hcast, map_mul, map_intCast]
  case without => rw [← hcast, h.without, ← hcast, Function.comp_update, map_zero]
  case substitute => rw [← hcast, h.substitute, ← hcast, Function.comp_update, hcast]
  case add => rw [← hcast, h.add, hcast, hcast, map_add]
  case sub => rw [← hcast, h.sub, hcast, hcast, map_sub]
  case neg => rw [← hcast, h.neg, hcast, map_neg]

theorem isEvaluation_eval : IsEvaluation eval :=
  isEvaluation_value.restrict (Int.castRingHom ℚ) Int.cast_injective fun e m => e.value_intCast m

/-- What a new value of one symbol adds, at integers. -/
theorem eval_update (e : LinearExpr) (m : Symbol → ℤ) (s : Symbol) (n : ℤ) :
    e.eval (Function.update m s n) = e.eval m + e.coeff s * (n - m s) := by
  have h := e.value_update_eq (fun t => (m t : ℚ)) s n
  rw [value_intCast, show Function.update (fun t => (m t : ℚ)) s n = fun t => ((Function.update m s n t : ℤ) : ℚ) from
    (Function.comp_update Int.cast m s n).symm, value_intCast] at h
  exact_mod_cast h

theorem eval_zero (e : LinearExpr) : e.eval 0 = e.constant := by
  have h := e.value_intCast 0
  rw [show (fun s => (((0 : Symbol → ℤ) s : ℤ) : ℚ)) = 0 from funext fun _ => Int.cast_zero, value_zero] at h
  exact_mod_cast h.symm

/-- A term is kept for each symbol on which the value depends, with the slope. -/
theorem mem_terms_iff : (s, c) ∈ e.terms ↔
    c ≠ 0 ∧ ∀ (m : Symbol → ℤ) (n : ℤ), e.eval (Function.update m s n) = e.eval m + c * (n - m s) := by
  constructor
  · intro h
    obtain ⟨rfl, hne⟩ := Sparse.mem_entries.mp h
    exact ⟨hne, fun m n => eval_update e m s n⟩
  · rintro ⟨hne, hslope⟩
    have h := hslope 0 1
    rw [eval_update] at h
    refine Sparse.mem_entries.mpr ⟨?_, hne⟩
    change e.coeff s = c
    simpa using h

/-- Integer valuations tell expressions apart. -/
theorem eq_iff_eval : e = f ↔ ∀ m : Symbol → ℤ, e.eval m = f.eval m := by
  constructor
  · rintro rfl m
    rfl
  · intro h
    have hconstant : e.constant = f.constant := by rw [← eval_zero, ← eval_zero, h]
    refine ext_coeff (fun s => ?_) hconstant
    have hs := h (Function.update 0 s 1)
    rw [eval_update, eval_update, h 0] at hs
    simpa using hs

/-- What an expression keeps, and which expressions are the same. -/
structure Faithful (e f : LinearExpr) : Prop where
  /-- A symbol without influence on the value, that is with the coefficient zero, is not listed. -/
  terms : ∀ s c, (s, c) ∈ e.terms ↔
    c ≠ 0 ∧ ∀ (m : Symbol → ℤ) (n : ℤ), e.eval (Function.update m s n) = e.eval m + c * (n - m s)
  eq : e = f ↔ ∀ m : Symbol → ℤ, e.eval m = f.eval m

/-- The content is the greatest common divisor of the coefficients. -/
theorem dvd_content (h : ∀ s, d ∣ e.coeff s) : d ∣ (e.content : ℤ) := by
  rw [content, ← List.foldl_map (f := fun t : Symbol × ℤ => t.2) (g := fun (g : ℕ) (x : ℤ) => g.gcd x.natAbs)]
  refine Int.dvd_natCast.mpr (Row.dvd_foldl_gcd (dvd_zero _) fun x hx => ?_)
  obtain ⟨t, ht, rfl⟩ := List.mem_map.mp hx
  have hd := h t.1
  rw [(coeff_of_mem_terms ht).1] at hd
  exact Int.natAbs_dvd_natAbs.mpr hd

/-- No integer but a unit divides all coefficients, unless there are none. -/
def IsPrimitive (e : LinearExpr) : Prop := e.isConstant = true ∨ ∀ d : ℤ, (∀ s, d ∣ e.coeff s) → IsUnit d

theorem isPrimitive_of_content (h : e.content = 0 ∨ e.content = 1) : e.IsPrimitive := by
  rcases h with h | h
  · left
    rw [isConstant, List.isEmpty_iff, List.eq_nil_iff_forall_not_mem]
    intro t ht
    obtain ⟨hc, hne⟩ := coeff_of_mem_terms ht
    have hzero := e.content_dvd_coeff t.1
    rw [h, hc, Nat.cast_zero, zero_dvd_iff] at hzero
    exact hne hzero
  · right
    intro d hd
    have hone := dvd_content hd
    rw [h, Nat.cast_one] at hone
    exact isUnit_iff_dvd_one.mpr hone

theorem isPrimitive_divide (h : e.content ≠ 0) : (e.divide e.content).IsPrimitive := by
  have hscale : ∀ s, e.coeff s = e.content * (e.divide e.content).coeff s := by
    intro s
    rw [coeff_divide, Int.mul_ediv_cancel' (e.content_dvd_coeff s)]
  exact .inr fun d hd => isUnit_of_dvd_quotients h (fun _ => dvd_content) hscale hd

end LinearExpr

namespace LinearConstraint

variable {c d : LinearConstraint} {m : Valuation}

theorem isPrimitive_tightened (c : LinearConstraint) : c.tightened.expr.IsPrimitive := by
  obtain ⟨e, comparison, hreduced, -, -⟩ := c.tightened_eq
  rw [hreduced]
  unfold reduced
  dsimp only
  split
  · rename_i hcontent
    exact LinearExpr.isPrimitive_of_content hcontent
  · rename_i hcontent
    split
    · exact LinearExpr.isPrimitive_divide fun hzero => hcontent (.inl hzero)
    · exact .inl rfl

theorem holds_tightened (c : LinearConstraint) (m : Symbol → ℤ) : c.tightened.holds m = c.holds m := by
  rw [Bool.eq_iff_iff, ← holdsAt_intCast, ← holdsAt_intCast]
  exact holdsAt_tightened fun s _ => ⟨m s, rfl⟩

example : (gt (.term 2 "x" - .const 3)).tightened = ge (.var "x" - .const 2) := by decide +kernel

theorem holdsAt_negated (h : c.negated? = some d) : d.HoldsAt m ↔ ¬ c.HoldsAt m := by
  obtain ⟨e, comparison⟩ := c
  cases comparison with
  | ge =>
    obtain rfl := Option.some.inj h
    change 0 < (-e).value m ↔ ¬ 0 ≤ e.value m
    rw [LinearExpr.value_neg, neg_pos, not_le]
  | gt =>
    obtain rfl := Option.some.inj h
    change 0 ≤ (-e).value m ↔ ¬ 0 < e.value m
    rw [LinearExpr.value_neg, neg_nonneg, not_lt]
  | eq => cases h

theorem negated_eq_none_iff : c.negated? = none ↔ c.comparison = .eq := by
  obtain ⟨e, comparison⟩ := c
  cases comparison <;> simp [negated?]

/-- What the strongest form of a constraint and its complement say. -/
structure Exact (c : LinearConstraint) : Prop where
  tightened : ∀ m : Symbol → ℤ, c.tightened.holds m = c.holds m
  nonstrict : c.tightened.comparison ≠ .gt
  primitive : c.tightened.expr.IsPrimitive
  negated : ∀ d, c.negated? = some d → ∀ m : Valuation, d.HoldsAt m ↔ ¬ c.HoldsAt m
  /-- Only an equation has no complement. -/
  absent : c.negated? = none ↔ c.comparison = .eq

theorem exact (c : LinearConstraint) : c.Exact where
  tightened := c.holds_tightened
  nonstrict := c.comparison_tightened_ne_gt
  primitive := c.isPrimitive_tightened
  negated := fun _ h _ => holdsAt_negated h
  absent := negated_eq_none_iff

end LinearConstraint

/-- Expressions are kept as the functions they evaluate to, and the forms derived from a constraint have the
solutions that they should. -/
theorem linear_forms_exact :
    (∀ e : LinearExpr, e.Composed) ∧ (∀ e f : LinearExpr, e.Faithful f) ∧
      LinearExpr.IsEvaluation LinearExpr.eval ∧ LinearExpr.IsEvaluation LinearExpr.value ∧
      ∀ c : LinearConstraint, c.Exact := by
  refine ⟨LinearExpr.composed, fun e f => ?_, LinearExpr.isEvaluation_eval, LinearExpr.isEvaluation_value,
    LinearConstraint.exact⟩
  constructor
  case terms => exact fun s c => LinearExpr.mem_terms_iff
  case eq => exact LinearExpr.eq_iff_eval

end PathInvariants

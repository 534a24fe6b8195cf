import PathInvariants.Proofs.Narrowing
import PathInvariants.Proofs.OracleQueries
import PathInvariants.Proofs.Outcomes
import PathInvariants.Proofs.Preparation

/-!
# Soundness of path focusing

Path focusing asks the searching oracle until it knows of no path that leaves the invariants. So the
cut points are covered along whole paths, and safe executions are made of such paths.
-/
namespace PathInvariants

namespace Focusing

open Run Analysis

variable {su : Setup} {k : ValueKind} {A : Arena} {step : Block → Store → Block → Store → Prop}

/-- All slots hold one value, nothing is known, and at the entry nothing is excluded. -/
structure SlotsLawful (k : ValueKind) (n : ℕ) (s : Slots Disjunction) : Prop where
  stable : s.stable.first.OfKind k ∧ s.stable.others = []
  descending : s.descending.first.OfKind k ∧ s.descending.others = []
  known : s.known.first.isBottom = true ∧ s.known.others = []
  entry : n = 0 → ∀ σ : Store, s.stable.first.Allows σ.point ∧ s.descending.first.Allows σ.point

theorem slotLaw {technique : Technique} (ht : technique = .focusing) :
    SlotLaw technique k (fun _ _ => True) (SlotsLawful k) where
  stable h := h.stable.1
  descending h := h.descending.1
  known h := .inl h.known.1
  reset h := ⟨h.stable, h.stable, h.known, fun h0 σ => ⟨(h.entry h0 σ).1, (h.entry h0 σ).1⟩⟩
  clear env h hn := ⟨h.stable, ⟨Value.ofKind_bottom env, rfl⟩, h.known, fun h0 => absurd h0 hn⟩
  lower h hv hw := by
    refine ⟨h.stable, ⟨?_, h.descending.2⟩, h.known, fun h0 σ => ⟨(h.entry h0 σ).1, ?_⟩⟩
    · rcases hw with ⟨-, rfl⟩ | hjoin
      · exact hv
      · exact h.descending.1.join hv hjoin
    · exact allows_joined h.descending.1 hv hw σ (.inl (h.entry h0 σ).2)
  settle {n s s' changed} h hs := by
    have ht' : technique ≠ .disjunctive := by simp [ht]
    have hentry : n = 0 → ∀ σ : Store, s'.stable.first.Allows σ.point := fun h0 σ =>
      (allows_settled ht' hs h.stable.1 h.descending.1).mpr (h.entry h0 σ)
    obtain ⟨v, hv, hs'⟩ := settled_eq ht' hs
    have hkind : v.OfKind k := by
      rcases hv with ⟨-, rfl⟩ | ⟨-, hmeet⟩
      · exact h.descending.1
      · exact h.descending.1.meet h.stable.1 hmeet
    have hfollowed : technique ≠ .lookahead := by simp [ht]
    rcases hs' with ⟨-, rfl⟩ | ⟨-, rfl⟩
    · exact h
    · rw [if_neg hfollowed] at hentry ⊢
      exact ⟨⟨hkind, h.stable.2⟩, h.descending, h.known, fun h0 σ => ⟨hentry h0 σ, (h.entry h0 σ).2⟩⟩

theorem SlotsLawful.raise {n : ℕ} {s : Slots Disjunction} {w : Value} (h : SlotsLawful k n s) (hw : w.OfKind k)
    (hg : ∀ σ : Store, s.stable.first.Allows σ.point → w.Allows σ.point) (i : Disjunction) :
    SlotsLawful k n { s with stable := s.stable.set 0 w, initial := i } :=
  ⟨⟨hw, h.stable.2⟩, h.descending, h.known, fun h0 σ => ⟨hg σ (h.entry h0 σ).1, (h.entry h0 σ).2⟩⟩

theorem SlotsLawful.unionSlots {n : ℕ} {s : Slots Disjunction} (h : SlotsLawful k n s) : UnionSlots k s := by
  have hsingle : ∀ d : Disjunction, d.others = [] → ∀ v ∈ d.toList, v = d.first := by
    intro d hd v hv
    simpa [Disjunction.toList, hd] using hv
  refine ⟨fun v hv => ?_, fun v hv => ?_, fun v hv => ?_⟩
  · rw [hsingle _ h.stable.2 v hv]
    exact h.stable.1
  · rw [hsingle _ h.descending.2 v hv]
    exact h.descending.1
  · rw [hsingle _ h.known.2 v hv]
    exact h.known.1

theorem holds_stable {r : Run SearchOracle Memory} {n : ℕ} {σ : Store} (hr : r.Regular su.key A (SlotsLawful k)) :
    r.Holds su.key .stable n σ ↔ r.Stable su.key n σ := by
  refine exists_congr fun s => and_congr_right fun hs => ?_
  simp [Slots.get, Disjunction.toList, (hr.slots n s hs).stable.2]

theorem holds_descending {r : Run SearchOracle Memory} {n : ℕ} {σ : Store} (hr : r.Regular su.key A (SlotsLawful k)) :
    r.Holds su.key .descending n σ ↔ r.Descending su.key n σ := by
  refine exists_congr fun s => and_congr_right fun hs => ?_
  simp [Slots.get, Disjunction.toList, (hr.slots n s hs).descending.2]

/-- A step on a cyclic path leaves the slots of all nodes as they were. -/
theorem loopStep_spec {n : ℕ} {p : Path} {st st' : LoopStep} {r r' : Run SearchOracle Memory}
    (hf : su.transfer.Follows k step) (h : Yields (loopStep su n 0 0 p st) r st' r')
    (hr : r.Regular su.key A (SlotsLawful k)) (hst : st.image.OfKind k) :
    Alike su.key r r' ∧ r'.engine.oracle = r.engine.oracle ∧ st'.image.OfKind k := by
  rcases yields_loopStep h with ⟨himage, rfl⟩ | ⟨s, backup, previous, widened, env, thresholds, hs, hb, hp, hw, himage, hq⟩
  · exact ⟨(Quiet.refl _).alike, rfl, himage ▸ hst⟩
  · obtain rfl : s.stable.first = backup := by
      rcases hb with hb | ⟨hb, -⟩
      · exact Option.some.inj hb
      · cases hb
    obtain rfl : s.stable.first = previous := by
      rcases hp with hp | ⟨hp, -⟩
      · exact Option.some.inj hp
      · cases hp
    have hkind : widened.OfKind k := by
      have hstable := (hr.slots n s hs).stable.1
      exact hstable.widenTo (hstable.joinOver (by simpa using hst) env) hw
    refine ⟨(alike_put hs).trans hq.alike, hq.oracle, ?_⟩
    rw [himage]
    exact (hf.ofKind_along hkind p).withEnv env

/-- Stores a value met with what is known. -/
def deposit (su : Setup) (m : ℕ) (previous next : Value) (onlyJoin : Bool) : Analysis SearchOracle Memory Bool := do
  if previous.isBottom then setValue su m .initial next
  setValue su m .stable (← meetKnown su m next)
  push m
  setComputed m false
  return onlyJoin

/-- Takes the image of a path into the stable value of its end. -/
def absorb (su : Setup) (n m : ℕ) (env : Environment) (st : LoopStep) : Analysis SearchOracle Memory Bool := do
  modifyMemory fun _ => ⟨st.seen⟩
  let previous ← value su m .stable
  let joined := previous.joinOver env [st.image]
  let widens := (← isWidening m) && (m != n || !st.onlyJoin)
  let next ← if widens then widen su previous joined else pure joined
  deposit su m previous next st.onlyJoin

theorem propagate_eq (su : Setup) (n : ℕ) (p : Path) (onlyJoin : Bool) :
    (propagate su n p onlyJoin : Analysis SearchOracle Memory Bool) = (do
      let m ← destinationOf p
      modifyStats fun s => { s with ascendingSteps := s.ascendingSteps + 1 }
      let env ← env m
      let image := (← transform su p (← value su n .stable)).withEnv env
      let st : LoopStep := ⟨image, onlyJoin, (← memory).seen⟩
      if m = n then loopStep su n 0 0 p st >>= absorb su n m env else absorb su n m env st) := by
  rfl

/-- Where nothing is known, the value is stored as it is. -/
theorem store_of_deposit {m : ℕ} {v w : Value} {onlyJoin b : Bool} {r r' : Run SearchOracle Memory}
    (h : Yields (deposit su m v w onlyJoin) r b r') (hr : r.Regular su.key A (SlotsLawful k)) :
    Yields (store su m v w) r () r' := by
  have hmeet : ∀ {x x₁ : Run SearchOracle Memory} {y : Value} {i : Disjunction} {s : Slots Disjunction},
      x.slots? su.key m = some { s with initial := i } → SlotsLawful k m s → Yields (meetKnown su m w) x y x₁ →
      y = w ∧ x₁ = x := by
    intro x x₁ y i s hx hs hy
    obtain ⟨s', hs', rfl, ⟨-, rfl⟩ | ⟨hknown, -⟩⟩ := yields_meetKnown hy
    · exact ⟨rfl, rfl⟩
    · obtain rfl := Option.some.inj (hs'.symm.trans hx)
      have hbottom := hs.known.1
      rw [hknown] at hbottom
      cases hbottom
  unfold deposit at h
  unfold store
  split at h
  · rename_i hb
    simp only [yields_bind, yields_pure] at h
    obtain ⟨u₁, r₁, hinitial, y, r₂, hy, u₂, r₃, hstable, u₃, r₄, hpush, u₄, r₅, hset, -, rfl⟩ := h
    have hinitial' := hinitial
    obtain ⟨s, hs, rfl⟩ := yields_setDisjunct hinitial
    have hput := r.slots?_put su.key m (s.set .initial ((s.get .initial).set 0 w)) m (by rw [hs]; rfl)
    rw [if_pos rfl] at hput
    obtain ⟨rfl, rfl⟩ := hmeet hput (hr.slots m s hs) hy
    rw [if_pos hb]
    exact yields_bind.mpr ⟨_, _, hinitial', yields_bind.mpr ⟨_, _, hstable, yields_bind.mpr ⟨_, _, hpush, hset⟩⟩⟩
  · rename_i hb
    simp only [yields_bind, yields_pure] at h
    obtain ⟨y, r₂, hy, u₂, r₃, hstable, u₃, r₄, hpush, u₄, r₅, hset, -, rfl⟩ := h
    obtain ⟨s, hs, -⟩ := yields_meetKnown hy
    obtain ⟨rfl, rfl⟩ := hmeet (i := s.initial) hs (hr.slots m s hs) hy
    rw [if_neg hb]
    exact yields_bind.mpr ⟨_, _, hstable, yields_bind.mpr ⟨_, _, hpush, hset⟩⟩

/-- The stable value at the end of a path only grows, and its node is owed a visit. -/
theorem absorb_spec {n m : ℕ} {env : Environment} {st : LoopStep} {b : Bool} {r r' : Run SearchOracle Memory}
    (h : Yields (absorb su n m env st) r b r') (hr : r.Regular su.key A (SlotsLawful k)) (hst : st.image.OfKind k) :
    r'.Regular su.key A (SlotsLawful k) ∧ r'.engine.oracle = r.engine.oracle ∧
      Advance su.key (fun _ _ => True) (fun _ => True) r r' := by
  simp only [absorb, yields_bind, yields_modifyMemory, yields_value] at h
  obtain ⟨u₁, r₁, rfl, v, r₂, ⟨⟨s, hs, rfl⟩, rfl⟩, w, r₃, hwidening, h⟩ := h
  obtain rfl := yields_isWidening hwidening
  have hkind := (hr.slots m s hs).stable.1
  have hws : ∀ w ∈ [st.image], w.OfKind k := by simpa using hst
  obtain ⟨next, x, hq, hnext, hgrow, hdeposit⟩ : ∃ next x, Quiet { r with memory := ⟨st.seen⟩ } x ∧ next.OfKind k ∧
      (∀ σ : Store, s.stable.first.Allows σ.point → next.Allows σ.point) ∧
      Yields (deposit su m s.stable.first next st.onlyJoin) x b r' := by
    split at h
    · obtain ⟨next, x, hwiden, hdeposit⟩ := yields_bind.mp h
      obtain ⟨⟨thresholds, hwiden⟩, hq⟩ := yields_widen hwiden
      exact ⟨next, x, hq, hkind.widenTo (hkind.joinOver hws env) hwiden, fun σ hσ =>
        Value.allows_widenTo hkind (hkind.joinOver hws env) hwiden (.inl hσ), hdeposit⟩
    · obtain ⟨next, x, hpure, hdeposit⟩ := yields_bind.mp h
      obtain ⟨rfl, rfl⟩ := yields_pure.mp hpure
      exact ⟨_, _, .refl _, hkind.joinOver hws env, fun σ hσ => Value.allows_joinOver hkind hws (.inl hσ), hdeposit⟩
  have halike : Alike su.key r x := (alike_memory r _).trans hq.alike
  have hx := halike.regular hr
  obtain ⟨s', i, hs', -, hstores⟩ := yields_store (store_of_deposit hdeposit hx)
  obtain rfl : s = s' := Option.some.inj (hs.symm.trans ((halike.slots m).symm.trans hs'))
  refine ⟨hstores.regular hx ((hr.slots m s hs).raise hnext hgrow i), hstores.oracle.trans hq.oracle, ?_⟩
  exact halike.advance.trans (hstores.advance hs' fun σ _ hσ => hgrow σ hσ)

theorem propagate_spec {n : ℕ} {p : Path} {onlyJoin b : Bool} {r r' : Run SearchOracle Memory}
    (hf : su.transfer.Follows k step) (h : Yields (propagate su n p onlyJoin) r b r')
    (hr : r.Regular su.key A (SlotsLawful k)) :
    r'.Regular su.key A (SlotsLawful k) ∧ r'.engine.oracle = r.engine.oracle ∧
      Advance su.key (fun _ _ => True) (fun _ => True) r r' := by
  rw [propagate_eq] at h
  simp only [yields_bind, yields_value, yields_memory] at h
  obtain ⟨m, r₁, hm, u₁, r₂, hstats, env, r₃, henv, v, r₄, ⟨⟨s, hs, rfl⟩, rfl⟩, w, r₅, htransform, mem, r₆, ⟨rfl, rfl⟩, h⟩ := h
  obtain rfl := yields_destinationOf hm
  obtain rfl := yields_env henv
  obtain ⟨rfl, hq⟩ := yields_transform htransform
  have hquiet := (yields_modifyStats hstats).trans hq
  have halike : Alike su.key r₁ r₆ := hquiet.alike
  have hr₆ := halike.regular hr
  have himage : ((su.transfer.along p s.stable.first).withEnv env).OfKind k := by
    refine (hf.ofKind_along ?_ p).withEnv env
    exact (hr₆.slots n s ((hq.slots? _ _).trans hs)).stable.1
  split at h
  · obtain ⟨st, r₇, hloop, h⟩ := yields_bind.mp h
    obtain ⟨halike', horacle, hst⟩ := loopStep_spec hf hloop hr₆ himage
    obtain ⟨hr', horacle', hadv⟩ := absorb_spec h (halike'.regular hr₆) hst
    exact ⟨hr', horacle'.trans (horacle.trans hquiet.oracle), (halike.trans halike').advance.trans hadv⟩
  · obtain ⟨hr', horacle, hadv⟩ := absorb_spec h hr₆ himage
    exact ⟨hr', horacle.trans hquiet.oracle, halike.advance.trans hadv⟩

/-- The descending value at the end of a path only grows, and its node waits. -/
theorem propagateDown_spec {n : ℕ} {p : Path} {r r' : Run SearchOracle Memory} {u : Unit}
    (ht : su.options.technique = .focusing) (hf : su.transfer.Follows k step)
    (h : Yields (propagateDown su n p) r u r') (hr : r.Regular su.key A (SlotsLawful k)) :
    r'.Regular su.key A (SlotsLawful k) ∧ r'.engine.oracle = r.engine.oracle ∧ Lowers su.key (fun _ => True) r r' := by
  simp only [propagateDown, yields_bind, yields_value] at h
  obtain ⟨m, r₁, hm, u₁, r₂, hstats, v, r₃, ⟨⟨s, hs, rfl⟩, rfl⟩, w, r₄, htransform, env, r₅, henv, x, r₆, hmeet, u₂, r₇, hjoin,
    u₃, r₈, hpush, hset⟩ := h
  obtain rfl := yields_destinationOf hm
  obtain rfl := yields_env henv
  obtain ⟨rfl, hq⟩ := yields_transform htransform
  have hquiet := (yields_modifyStats hstats).trans hq
  have hr₄ := hr.quiet hquiet
  have himage : ((su.transfer.along p s.stable.first).withEnv env).OfKind k := by
    refine (hf.ofKind_along ?_ p).withEnv env
    exact (hr₄.slots n s ((hq.slots? _ _).trans hs)).stable.1
  obtain ⟨rfl, hx, -⟩ := meetKnown_spec hmeet (slotLaw ht) hr₄ himage
  obtain ⟨t, y, ht', hy, rfl⟩ := yields_joinDescending hjoin
  have hz := hr₄.slots m t ht'
  have hfills := ((fills_put ht' hpush).setComputed hset).of_quiet hquiet
  refine ⟨hfills.regular hr ((slotLaw ht).lower hz hx hy), hfills.oracle, ?_⟩
  exact hfills.lowers ((hquiet.slots? _ _).symm.trans ht') rfl fun σ hσ => allows_joined hz.descending.1 hx hy σ (.inl hσ)

/-- The state of a run between two queries. -/
structure Asking (su : Setup) (k : ValueKind) (r : Run SearchOracle Memory) : Prop where
  regular : r.Regular su.key (.build su.graph) (SlotsLawful k)
  oracle : r.engine.oracle.Lists su.graph su.transfer (Arena.build su.graph).isCutBlock

section Passes

variable (hg : su.graph.Bounded) (hf : su.transfer.Follows k step)
  (hstep : ∀ a σ b σ', step a σ b σ' → b ∈ su.graph.successors a)

include hg hf hstep

/-- A query for a path out of a node. When there is none, the node leads into the cut points that follow. -/
theorem query_asking {n : ℕ} {descending : Bool} {a : Option (Path × ℕ)} {r r' : Run SearchOracle Memory}
    (h : Yields (query su n descending .any) r a r') (hr : Asking su k r) :
    Asking su k r' ∧ Alike su.key r r' ∧ (∀ p i, a = some (p, i) → 1 < p.length) ∧
      (a = none → ∀ σ q σ', (Arena.build su.graph).PathStep step n σ q σ' → r.Holds su.key .stable n σ →
        r.Holds su.key (if descending then .descending else .stable) q σ') := by
  have hblocks : r.blocks = r.arena.blocks := by rw [hr.regular.blocks, hr.regular.arena]
  have hlists := hr.oracle
  rw [← hr.regular.arena] at hlists
  obtain ⟨oracle, ho, hq, hlength, hcovered⟩ := query_spec hg hf hr.regular.arena hblocks
    (fun n s hs => (hr.regular.slots n s hs).unionSlots) hlists h
  rw [hr.regular.arena] at ho
  have halike : Alike su.key r r' := by
    obtain ⟨t, c, st, w, rfl⟩ := hq
    exact ⟨rfl, rfl, fun _ => rfl, rfl, rfl⟩
  refine ⟨⟨halike.regular hr.regular, by rw [hq.oracle]; exact ho⟩, halike, hlength, fun hnone σ q σ' hpath => ?_⟩
  obtain ⟨p, hp⟩ := hpath.exists_leads hstep hg
  exact hcovered hnone σ p q σ' hp rfl

/-- The paths out of a node are followed until the oracle knows of none that leaves the stable values. -/
theorem followPaths_spec {n fuel : ℕ} {onlyJoin : Bool} {r r' : Run SearchOracle Memory} {u : Unit}
    (h : Yields (followPaths su n fuel onlyJoin) r u r') (hr : Asking su k r) :
    Asking su k r' ∧ Advance su.key (fun _ _ => True) (· ≠ n) r r' ∧
      r'.Covered su.key (fun _ _ => True) ((Arena.build su.graph).PathStep step) n := by
  induction fuel generalizing r onlyJoin with
  | zero => exact absurd h not_yields_throw
  | succ fuel ih =>
    simp only [followPaths, yields_bind] at h
    obtain ⟨u₁, r₁, hset, a, r₂, hquery, h⟩ := h
    have hadv : Advance su.key (fun _ _ => True) (· ≠ n) r r₁ := advance_setComputed hset
    have hr₁ : Asking su k r₁ := by
      obtain ⟨-, rfl⟩ := yields_setComputed hset
      exact ⟨⟨hr.regular.arena, hr.regular.blocks, hr.regular.slots⟩, hr.oracle⟩
    obtain ⟨hr₂, halike, hlength, hcovered⟩ := query_asking hg hf hstep hquery hr₁
    cases a with
    | none =>
      obtain ⟨-, rfl⟩ := yields_pure.mp h
      refine ⟨hr₂, hadv.trans halike.advance, fun σ q σ' _ hs hpath => halike.stable.mpr ?_⟩
      have hholds := hcovered rfl σ q σ' hpath ((holds_stable hr₁.regular).mpr (halike.stable.mp hs))
      exact (holds_stable hr₁.regular).mp hholds
    | some answer =>
      obtain ⟨p, i⟩ := answer
      simp only [hlength p i rfl, if_true, yields_bind] at h
      obtain ⟨b, r₃, hpropagate, h⟩ := h
      obtain ⟨hr₃, horacle, hadv₃⟩ := propagate_spec hf hpropagate hr₂.regular
      obtain ⟨hr', hadv', hcov⟩ := ih h ⟨hr₃, by rw [horacle]; exact hr₂.oracle⟩
      exact ⟨hr', ((hadv.trans halike.advance).trans (hadv₃.mono fun _ _ => trivial)).trans hadv', hcov⟩

theorem computeNode_spec {n : ℕ} {r r' : Run SearchOracle Memory} {u : Unit} (h : Yields (computeNode su n) r u r')
    (hr : Asking su k r) : Asking su k r' ∧ Advance su.key (fun _ _ => True) (· ≠ n) r r' ∧
      r'.Covered su.key (fun _ _ => True) ((Arena.build su.graph).PathStep step) n := by
  simp only [computeNode, yields_bind] at h
  obtain ⟨b, r₁, hb, h⟩ := h
  obtain ⟨rfl, rfl⟩ := yields_startsPaths hb
  split at h
  · simp only [yields_bind, yields_modifyMemory] at h
    obtain ⟨u₁, r₂, rfl, h⟩ := h
    obtain ⟨hr', hadv, hcov⟩ := followPaths_spec hg hf hstep h
      ⟨⟨hr.regular.arena, hr.regular.blocks, hr.regular.slots⟩, hr.oracle⟩
    exact ⟨hr', (alike_memory r₁ _).advance.trans hadv, hcov⟩
  · rename_i hstarts
    rw [hr.regular.arena] at hstarts
    refine ⟨?_, advance_setComputed h, fun σ q σ' _ _ hpath => ?_⟩
    · obtain ⟨-, rfl⟩ := yields_setComputed h
      exact ⟨⟨hr.regular.arena, hr.regular.blocks, hr.regular.slots⟩, hr.oracle⟩
    · exact absurd (hpath.starts hstep hg) hstarts

/-- The paths out of a node are followed until the oracle knows of none that leaves the descending values. -/
theorem followPathsDown_spec {n fuel : ℕ} {r r' : Run SearchOracle Memory} {u : Unit}
    (ht : su.options.technique = .focusing) (h : Yields (followPathsDown su n fuel) r u r') (hr : Asking su k r) :
    Asking su k r' ∧ Lowers su.key (· ≠ n) r r' ∧
      r'.Lowered su.key (fun _ _ => True) ((Arena.build su.graph).PathStep step) n := by
  induction fuel generalizing r with
  | zero => exact absurd h not_yields_throw
  | succ fuel ih =>
    simp only [followPathsDown, yields_bind] at h
    obtain ⟨u₁, r₁, hset, a, r₂, hquery, h⟩ := h
    have hlow : Lowers su.key (· ≠ n) r r₁ := lowers_setComputed hset
    have hr₁ : Asking su k r₁ := by
      obtain ⟨-, rfl⟩ := yields_setComputed hset
      exact ⟨⟨hr.regular.arena, hr.regular.blocks, hr.regular.slots⟩, hr.oracle⟩
    obtain ⟨hr₂, halike, hlength, hcovered⟩ := query_asking hg hf hstep hquery hr₁
    cases a with
    | none =>
      obtain ⟨-, rfl⟩ := yields_pure.mp h
      refine ⟨hr₂, hlow.trans halike.lowers, fun σ q σ' _ hs hpath => halike.within.mpr ?_⟩
      have hholds := hcovered rfl σ q σ' hpath ((holds_stable hr₁.regular).mpr (halike.stable.mp hs))
      exact (holds_descending hr₁.regular).mp hholds
    | some answer =>
      obtain ⟨p, i⟩ := answer
      simp only [hlength p i rfl, if_true, yields_bind] at h
      obtain ⟨u₂, r₃, hpropagate, h⟩ := h
      obtain ⟨hr₃, horacle, hlow₃⟩ := propagateDown_spec ht hf hpropagate hr₂.regular
      obtain ⟨hr', hlow', hlowered⟩ := ih h ⟨hr₃, by rw [horacle]; exact hr₂.oracle⟩
      exact ⟨hr', ((hlow.trans halike.lowers).trans (hlow₃.mono fun _ _ => trivial)).trans hlow', hlowered⟩

theorem narrowNode_spec {n : ℕ} {r r' : Run SearchOracle Memory} {u : Unit} (ht : su.options.technique = .focusing)
    (h : Yields (narrowNode su n) r u r') (hr : Asking su k r) : Asking su k r' ∧ Lowers su.key (· ≠ n) r r' ∧
      r'.Lowered su.key (fun _ _ => True) ((Arena.build su.graph).PathStep step) n := by
  simp only [narrowNode, yields_bind] at h
  obtain ⟨b, r₁, hb, h⟩ := h
  obtain ⟨rfl, rfl⟩ := yields_startsPaths hb
  split at h
  · exact followPathsDown_spec hg hf hstep ht h hr
  · rename_i hstarts
    rw [hr.regular.arena] at hstarts
    refine ⟨?_, lowers_setComputed h, fun σ q σ' _ _ hpath => absurd (hpath.starts hstep hg) hstarts⟩
    obtain ⟨-, rfl⟩ := yields_setComputed h
    exact ⟨⟨hr.regular.arena, hr.regular.blocks, hr.regular.slots⟩, hr.oracle⟩

/-- All cut points are covered, and nothing is excluded at the entry. -/
structure Sound (su : Setup) (k : ValueKind) (step : Block → Store → Block → Store → Prop)
    (r : Run SearchOracle Memory) : Prop where
  regular : r.Regular su.key (.build su.graph) (SlotsLawful k)
  entry : ∀ σ, r.Stable su.key 0 σ
  covered : ∀ n, r.Covered su.key (fun _ _ => True) ((Arena.build su.graph).PathStep step) n

theorem computeFunction_sound {r r' : Run SearchOracle Memory} {u : Unit} (hD : k.domain = su.options.domain)
    (ht : su.options.technique = .focusing) (h : Yields (computeFunction su) r u r') (hr : Asking su k r)
    (hentry : ∀ σ, r.Stable su.key 0 σ) (hothers : ∀ n σ, n ≠ 0 → ¬ r.Stable su.key n σ)
    (hcomputed : ∀ n, r.computed? n ≠ some true) : Sound su k step r' := by
  simp only [computeFunction, ascend, if_true, yields_bind, yields_push] at h
  obtain ⟨u₁, r₁, ⟨u₂, r₂, rfl, hdrain⟩, h⟩ := h
  obtain ⟨hr₁, hgrows, hcov, -⟩ := drain_covered (I := Asking su k) (fun _ _ _ _ _ _ => trivial)
    (fun x queue hx => ⟨⟨hx.regular.arena, hx.regular.blocks, hx.regular.slots⟩, hx.oracle⟩)
    (fun x n x' hx hv => by
      obtain ⟨hx', hadv, hcov⟩ := computeNode_spec hg hf hstep hv hx
      exact ⟨hx', hadv, .inl hcov⟩) hdrain
    ⟨⟨hr.regular.arena, hr.regular.blocks, hr.regular.slots⟩, hr.oracle⟩ fun n => by
      by_cases hn : n = 0
      · exact .inr ⟨Worklist.mem_nodes_push.mpr (.inl hn), hcomputed n⟩
      · exact .inl fun σ _ _ _ hs => absurd hs (hothers n σ hn)
  have ht' : su.options.technique ≠ .disjunctive := by simp [ht]
  obtain ⟨hr', -, hn⟩ := descendRounds_spec
    (J := fun _ o => o.Lists su.graph su.transfer (Arena.build su.graph).isCutBlock) hD ht' (slotLaw ht)
    (fun x n x' hx ho hv => by
      obtain ⟨hx', hlow, hn⟩ := narrowNode_spec hg hf hstep ht hv ⟨hx, ho⟩
      exact ⟨hx'.regular, hx'.oracle, hlow, hn⟩) h hr₁.regular hr₁.oracle hcov
  exact ⟨hr', fun σ => hn.entry σ (hgrows 0 σ trivial (hentry σ)), hn.covered⟩

end Passes

theorem asking_of_started {r : Run SearchOracle Memory} (hD : k.domain = su.options.domain) (hstart : Started su r)
    (hknown : su.options.known = none) (horacle : r.engine.oracle = .new su.graph su.transfer) : Asking su k r := by
  refine ⟨⟨hstart.arena, hstart.blocks, fun n s hs => ?_⟩, by rw [horacle]; exact SearchOracle.lists_new _ _ _⟩
  obtain ⟨⟨env, hstable, hdescending, -⟩, hothers⟩ := hstart.slots n s hs
  have hkind : s.stable.first.OfKind k ∧ s.stable.others = [] := by
    rw [hstable]
    exact ⟨ofKind_startValue hD n env, rfl⟩
  have htop : n = 0 → ∀ σ : Store, s.stable.first.Allows σ.point := by
    rintro rfl σ
    rw [hstable]
    exact Value.allows_top _ _ _
  refine ⟨hkind, by rwa [hdescending], ⟨hstart.unknown hknown n s hs, hothers⟩, fun h0 σ => ⟨htop h0 σ, ?_⟩⟩
  rw [hdescending]
  exact htop h0 σ

variable {p : Program} {options : Options} {resources : Resources} {name : String} {ctx c : Context} {o : Outcome}

/-- Without known properties, a completed run of path focusing with the searching oracle covers every store with
which an execution that stops at the first error site stands at a cut point. So no such execution comes to a site
reported as proved. -/
theorem focusing_sound (hp : p.graph.WellFormed) (ht : options.technique = .focusing) (hknown : options.known = none)
    (hctx : ctx.OfGraph p.graph.control) (h : analyze (p.setup options resources) name ctx = (.ok o, c))
    (hc : o.isCompleted = true) :
    o.CoversSafely p ∧ ∀ site ∈ o.sites, site.isProved = true → ∀ σ, ¬ p.ReachesSafely site.block σ := by
  obtain ⟨r₁, r, -, hstart, -, horacle, hcompute, -, hreports⟩ := exists_run_of_completed strategy hctx
    (fun e => by simp only [runTechnique, Program.setup, ht]) h hc
  let k : ValueKind := ⟨options.domain, options.domain == .intervals, by simp⟩
  have hr : Sound (p.setup options resources) k p.Step r :=
    computeFunction_sound hp.bounded (p.transfer_follows k) p.step_edge rfl ht hcompute
      (asking_of_started rfl hstart hknown horacle) (hstart.stable_zero hp.bounded) (fun n σ hn => hstart.not_stable hn σ)
      hstart.computed
  have hrep := hreports hr.regular.arena hr.regular.blocks
  have hcovers : o.CoversSafely p := by
    intro b σ hcut hσ
    obtain ⟨n, hn, -⟩ := Program.exists_segment hp hσ
    have hcut' : p.arena.cuts.isCut n = true := (Arena.isCutBlock_eq hp.bounded hn).symm.trans hcut
    have hreached := (Program.reachesSafely_iff hp hn hcut').mp hσ
    have hstable := stable_of_covered (fun n σ q σ' _ => hr.covered n σ q σ' trivial) hr.entry hreached
    refine (hrep.covers_iff_stable (k := k) hp.bounded (by simp [Program.setup, ht]) (fun hd => by simpa [k] using hd)
      fun n s hs => (hr.regular.slots n s hs).stable.1).mpr ⟨n, ?_, hstable⟩
    rw [hr.regular.blocks]
    exact hn
  exact ⟨hcovers, fun site hsite hproved σ => hrep.not_reachesSafely_of_proved hp hcovers hsite hproved σ⟩

theorem focusing_sound_counter : ∃ o c,
    analyze (Program.counter.setup { technique := .focusing } .ample) "f" (.build Program.counter.graph.control) =
        (.ok o, c) ∧
      o.isCompleted = true ∧ o.CoversSafely Program.counter ∧ ∀ σ, ¬ Program.counter.ReachesSafely 3 σ := by
  obtain ⟨o, c, h, hc, hproves⟩ := exists_of_completes (Program.counter.setup { technique := .focusing } .ample)
    (.build Program.counter.graph.control) (fun o _ => o.proves 3) (by decide +kernel)
  obtain ⟨hcovers, hproved⟩ := focusing_sound Program.counter_wellFormed rfl rfl (Context.ofGraph_build _) h hc
  obtain ⟨site, hmem, hblock, hp⟩ := Outcome.exists_of_proves hproves
  exact ⟨o, c, h, hc, hcovers, fun σ => hblock ▸ hproved site hmem hp σ⟩

end Focusing

end PathInvariants

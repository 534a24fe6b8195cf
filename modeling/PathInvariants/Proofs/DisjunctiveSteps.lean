import PathInvariants.Proofs.Narrowing
import PathInvariants.Proofs.OracleQueries
import PathInvariants.Proofs.Preparation

/-!
# Steps of disjunctive path focusing

A run of disjunctive path focusing keeps unions of values of one kind, and the first disjunct at the
entry excludes nothing. Of the ledger of a run, which lists its stable unions, its marks and its
recorded paths, discovery writes recorded paths only, the ascending pass changes the stable unions of
nodes that it marks, and the descending pass changes nothing.
-/
namespace PathInvariants

theorem Run.Alike.holds {Ω S : Type} {key : Key} {r r' : Run Ω S} (h : Alike key r r') {sl : Slot} {n : ℕ} {σ : Store} :
    r'.Holds key sl n σ ↔ r.Holds key sl n σ := by
  rw [Holds, Holds, h.slots]

namespace Disjunctive

open Run Analysis

variable {k : ValueKind} {n : ℕ}

/-- A disjunct of the kind; the first one at the entry excludes nothing. -/
structure Good (k : ValueKind) (n i : ℕ) (v : Value) : Prop where
  kind : v.OfKind k
  entry : n = 0 → i = 0 → ∀ σ : Store, v.Allows σ.point

def GoodUnion (k : ValueKind) (n : ℕ) (d : Disjunction) : Prop := ∀ i v, d.get? i = some v → Good k n i v

theorem GoodUnion.first {d : Disjunction} (h : GoodUnion k n d) : Good k n 0 d.first := h 0 d.first rfl

theorem GoodUnion.filler {d : Disjunction} (h : GoodUnion k n d) {i : ℕ} (hi : i ≠ 0) : Good k n i d.filler := by
  refine ⟨?_, fun _ h0 => absurd h0 hi⟩
  rw [Disjunction.filler, h.first.kind.1]
  exact Value.ofKind_bottom _

theorem GoodUnion.get {d : Disjunction} (h : GoodUnion k n d) (i : ℕ) : Good k n i (d.get i) := by
  cases hi : d.get? i with
  | some v =>
    rw [Disjunction.get, hi]
    exact h i v hi
  | none =>
    rw [Disjunction.get, hi]
    refine h.filler ?_
    rintro rfl
    cases hi

theorem GoodUnion.set {d : Disjunction} {i : ℕ} {v : Value} (h : GoodUnion k n d) (hv : Good k n i v) :
    GoodUnion k n (d.set i v) := by
  intro j w hw
  rcases Disjunction.get?_set_cases hw with ⟨rfl, rfl⟩ | ⟨-, hj⟩ | ⟨hj, rfl⟩
  · exact hv
  · exact h j w hj
  · exact h.filler hj

theorem Good.join {i : ℕ} {v w : Value} (hv : Good k n i v) (hw : w.OfKind k) (env : Environment) :
    Good k n i (v.joinOver env [w]) :=
  ⟨hv.kind.joinOver (by simpa using hw) env, fun hn hi σ =>
    Value.allows_joinOver hv.kind (by simpa using hw) (.inl (hv.entry hn hi σ))⟩

theorem Good.widen {i : ℕ} {v w x : Value} {thresholds : List LinearConstraint} (hv : Good k n i v) (hw : w.OfKind k)
    (hx : Value.widenTo thresholds v w = .ok x) : Good k n i x :=
  ⟨hv.kind.widenTo hw hx, fun hn hi σ => Value.allows_widenTo hv.kind hw hx (.inl (hv.entry hn hi σ))⟩

/-- What holds of the slots of every node throughout a run. -/
structure SlotsLawful (k : ValueKind) (n : ℕ) (s : Slots Disjunction) : Prop where
  stable : GoodUnion k n s.stable
  descending : GoodUnion k n s.descending
  known : ∀ v ∈ s.known.toList, v.isBottom = true

theorem SlotsLawful.unionSlots {s : Slots Disjunction} (h : SlotsLawful k n s) : UnionSlots k s := by
  have hkind : ∀ {d : Disjunction}, GoodUnion k n d → ∀ v ∈ d.toList, v.OfKind k := by
    intro d hd v hv
    obtain ⟨i, hi⟩ := List.getElem?_of_mem hv
    exact (hd i v hi).kind
  exact ⟨hkind h.stable, hkind h.descending, h.known⟩

variable {α β : Type} {su : Setup}

/-- What is stable at the nodes, which of them are marked as changed, and the paths recorded. -/
structure Ledger where
  stable : ℕ → Option Disjunction
  changed : Worklist
  recorded : List PathSet

def ledger (key : Key) (r : Run SearchOracle Memory) : Ledger where
  stable n := (r.slots? key n).map (·.stable)
  changed := r.memory.changed
  recorded := r.memory.recorded

theorem ledger_eq {key : Key} {r r' : Run SearchOracle Memory} (hslots : ∀ n, r'.slots? key n = r.slots? key n)
    (hmemory : r'.memory = r.memory) : ledger key r' = ledger key r := by
  simp only [ledger, hslots, hmemory]

theorem ledger_put {key : Key} {r : Run SearchOracle Memory} {s s' : Slots Disjunction} (hs : r.slots? key n = some s) :
    ledger key (r.put key n s') =
      { ledger key r with stable := Function.update (ledger key r).stable n (some s'.stable) } := by
  have hstable : (ledger key (r.put key n s')).stable = Function.update (ledger key r).stable n (some s'.stable) := by
    funext m
    simp only [ledger, r.slots?_put key n s' m (by rw [hs]; rfl), Function.update_apply]
    split <;> rfl
  rw [← hstable]
  rfl

/-- The ledger does not list descending and initial unions. -/
theorem ledger_put_of_stable {key : Key} {r : Run SearchOracle Memory} {s s' : Slots Disjunction}
    (hs : r.slots? key n = some s) (h : s'.stable = s.stable) : ledger key (r.put key n s') = ledger key r := by
  have hn : some s.stable = (ledger key r).stable n := by simp only [ledger, hs, Option.map_some]
  rw [ledger_put hs, h, hn, Function.update_eq_self]

/-- The state of a run between two steps. -/
structure Asking (su : Setup) (k : ValueKind) (r : Run SearchOracle Memory) : Prop where
  regular : r.Regular su.key (.build su.graph) (SlotsLawful k)
  oracle : r.engine.oracle.Lists su.graph su.transfer (Arena.build su.graph).isCutBlock

theorem Asking.of_alike {r r' : Run SearchOracle Memory} (hr : Asking su k r) (h : Alike su.key r r')
    (horacle : r'.engine.oracle = r.engine.oracle) : Asking su k r' :=
  ⟨h.regular hr.regular, horacle ▸ hr.oracle⟩

theorem Asking.quiet {r r' : Run SearchOracle Memory} (hr : Asking su k r) (h : r.Quiet r') : Asking su k r' :=
  hr.of_alike h.alike h.oracle

theorem Asking.memory {r : Run SearchOracle Memory} (hr : Asking su k r) (mem : Memory) :
    Asking su k { r with memory := mem } := hr.of_alike (alike_memory r mem) rfl

/-- The computation keeps the law of the slots and what `J` says of the ledger, and what it returns satisfies `Q`. -/
def Keeps (su : Setup) (k : ValueKind) (J : Ledger → Prop) (m : Analysis SearchOracle Memory α) (Q : α → Prop) : Prop :=
  ∀ r a r', Yields m r a r' → Asking su k r → J (ledger su.key r) → Asking su k r' ∧ J (ledger su.key r') ∧ Q a

namespace Keeps

variable {J : Ledger → Prop}

theorem pure {Q : α → Prop} {a : α} (ha : Q a) : Keeps su k J (pure a) Q := by
  intro r b r' h hr hJ
  obtain ⟨rfl, rfl⟩ := yields_pure.mp h
  exact ⟨hr, hJ, ha⟩

theorem bind {m : Analysis SearchOracle Memory α} {f : α → Analysis SearchOracle Memory β} {Q : α → Prop} {Q' : β → Prop}
    (hm : Keeps su k J m Q) (hf : ∀ a, Q a → Keeps su k J (f a) Q') : Keeps su k J (m >>= f) Q' := by
  intro r b r' h hr hJ
  obtain ⟨a, r₁, hm', hf'⟩ := yields_bind.mp h
  obtain ⟨hr₁, hJ₁, ha⟩ := hm r a r₁ hm' hr hJ
  exact hf a ha r₁ b r' hf' hr₁ hJ₁

theorem throw {Q : α → Prop} (f : Failure) : Keeps su k J (throw f) Q :=
  fun _ _ _ h => absurd h not_yields_throw

theorem of_quiet {m : Analysis SearchOracle Memory α} (h : ∀ r a r', Yields m r a r' → r.Quiet r') :
    Keeps su k J m fun _ => True := by
  intro r a r' hm hr hJ
  have hq := h r a r' hm
  exact ⟨hr.quiet hq, ledger_eq (hq.slots? _) hq.memory ▸ hJ, trivial⟩

theorem of_same {m : Analysis SearchOracle Memory α} (h : ∀ r a r', Yields m r a r' → r' = r) :
    Keeps su k J m fun _ => True := of_quiet fun r a r' hm => h r a r' hm ▸ .refl r

theorem forM {l : List α} {f : α → Analysis SearchOracle Memory Unit} (hf : ∀ a ∈ l, Keeps su k J (f a) fun _ => True) :
    Keeps su k J (l.forM f) fun _ => True := by
  induction l with
  | nil => exact pure trivial
  | cons a l ih => exact (hf a (by simp)).bind fun _ _ => ih fun b hb => hf b (by simp [hb])

theorem memory {f : Memory → Memory}
    (hf : ∀ r, J (ledger su.key r) → J (ledger su.key { r with memory := f r.memory })) :
    Keeps su k J (modifyMemory f) fun _ => True := by
  intro r u r' h hr hJ
  rw [yields_modifyMemory.mp h]
  exact ⟨hr.memory _, hf r hJ, trivial⟩

theorem stats (f : Stats → Stats) : Keeps su k J (modifyStats f) fun _ => True :=
  of_quiet fun _ _ _ => yields_modifyStats

/-- Computation marks and the worklist are no part of the slots and the ledger. -/
theorem engine {f : Engine SearchOracle → Engine SearchOracle} (hcontext : ∀ e, (f e).context = e.context)
    (horacle : ∀ e, (f e).oracle = e.oracle) : Keeps su k J (modifyEngine f) fun _ => True := by
  intro r u r' h hr hJ
  have hslots : ∀ n, r'.slots? su.key n = r.slots? su.key n := by
    intro n
    rw [yields_modifyEngine.mp h, Run.slots?, Run.slots?, hcontext]
  refine ⟨⟨⟨?_, ?_, fun n s hs => hr.regular.slots n s ((hslots n).symm.trans hs)⟩, ?_⟩, ?_, trivial⟩
  · rw [yields_modifyEngine.mp h, Run.arena, hcontext]
    exact hr.regular.arena
  · rw [yields_modifyEngine.mp h, Run.blocks, hcontext]
    exact hr.regular.blocks
  · rw [yields_modifyEngine.mp h, horacle]
    exact hr.oracle
  · rw [ledger_eq hslots (by rw [yields_modifyEngine.mp h])]
    exact hJ

theorem push (m : ℕ) : Keeps su k J (Analysis.push m) fun _ => True := engine (fun _ => rfl) fun _ => rfl

theorem setComputed (m : ℕ) (b : Bool) : Keeps su k J (Analysis.setComputed m b) fun _ => True := by
  intro r u r' h hr hJ
  obtain ⟨-, rfl⟩ := yields_setComputed h
  exact ⟨⟨⟨hr.regular.arena, hr.regular.blocks, hr.regular.slots⟩, hr.oracle⟩, hJ, trivial⟩

theorem slot (m : ℕ) {sl : Slot} (hsl : sl = .stable ∨ sl = .descending) :
    Keeps su k J (Analysis.slot su m sl) (GoodUnion k m) := by
  intro r d r' h hr hJ
  obtain ⟨⟨s, hs, rfl⟩, rfl⟩ := yields_slot.mp h
  refine ⟨hr, hJ, ?_⟩
  rcases hsl with rfl | rfl
  · exact (hr.regular.slots m s hs).stable
  · exact (hr.regular.slots m s hs).descending

theorem disjunct (hD : k.domain = su.options.domain) (m i : ℕ) :
    Keeps su k J (Analysis.disjunct su m .stable i) (Good k m i) := by
  intro r v r' h hr hJ
  obtain ⟨s, hs, rfl, hi | ⟨hi, env, rfl⟩⟩ := yields_disjunct h
  · exact ⟨hr, hJ, (hr.regular.slots m s hs).stable i v hi⟩
  · refine ⟨hr, hJ, ⟨hD ▸ Value.ofKind_bottom env, fun _ h0 => ?_⟩⟩
    subst h0
    cases hi

theorem put {r : Run SearchOracle Memory} {m : ℕ} {s s' : Slots Disjunction} (hr : Asking su k r)
    (hs : r.slots? su.key m = some s) (hs' : SlotsLawful k m s') : Asking su k (r.put su.key m s') :=
  ⟨(Rewrites.put (R := fun m _ t => SlotsLawful k m t) hs hs').regular hr.regular fun _ _ _ h _ => h, hr.oracle⟩

theorem setStable {m i : ℕ} {v : Value} (hv : Good k m i v)
    (hJ : ∀ L d, J L → J { L with stable := Function.update L.stable m (some d) }) :
    Keeps su k J (setDisjunct su m .stable i v) fun _ => True := by
  intro r u r' h hr hL
  obtain ⟨s, hs, rfl⟩ := yields_setDisjunct h
  have hz := hr.regular.slots m s hs
  refine ⟨put hr hs ⟨hz.stable.set hv, hz.descending, hz.known⟩, ?_, trivial⟩
  rw [ledger_put hs]
  exact hJ _ _ hL

theorem setInitial (m i : ℕ) (v : Value) : Keeps su k J (setDisjunct su m .initial i v) fun _ => True := by
  intro r u r' h hr hJ
  obtain ⟨s, hs, rfl⟩ := yields_setDisjunct h
  have hz := hr.regular.slots m s hs
  refine ⟨put hr hs ⟨hz.stable, hz.descending, hz.known⟩, ?_, trivial⟩
  rw [ledger_put_of_stable hs]
  · exact hJ
  · rfl

theorem setDescending {m : ℕ} {d : Disjunction} (hd : GoodUnion k m d) :
    Keeps su k J (setSlot su m .descending d) fun _ => True := by
  intro r u r' h hr hJ
  obtain ⟨s, hs, rfl⟩ := yields_setSlot h
  have hz := hr.regular.slots m s hs
  refine ⟨put hr hs ⟨hz.stable, hd, hz.known⟩, ?_, trivial⟩
  rw [ledger_put_of_stable hs]
  · exact hJ
  · rfl

theorem meetKnown (m : ℕ) (v : Value) : Keeps su k J (Analysis.meetKnown su m v) (· = v) := by
  intro r w r' h hr hJ
  obtain ⟨s, hs, rfl, ⟨-, rfl⟩ | ⟨hknown, -⟩⟩ := yields_meetKnown h
  · exact ⟨hr, hJ, rfl⟩
  · have hbottom := (hr.regular.slots m s hs).known s.known.first (by simp [Disjunction.toList])
    rw [hknown] at hbottom
    cases hbottom

theorem query (m : ℕ) (descending : Bool) (filter : PathFilter) :
    Keeps su k J (Analysis.query su m descending filter) fun _ => True := by
  intro r a r' h hr hJ
  obtain ⟨b, answer, asked, oracle, -, hquery, hpop, ⟨t, c, st, w, rfl⟩, -⟩ := yields_query h
  have harena : (r.engine.context.view su.key).isCut = (Arena.build su.graph).isCutBlock := by
    rw [← hr.regular.arena]
    rfl
  have hlists := hr.oracle
  rw [← harena] at hlists
  have hlists' := (hlists.push.query (r.engine.context.view su.key) hquery).pop hpop
  exact ⟨⟨⟨hr.regular.arena, hr.regular.blocks, hr.regular.slots⟩, harena ▸ hlists'⟩, hJ, trivial⟩

end Keeps

theorem GoodUnion.joinOver {d : Disjunction} {v : Value} (hd : GoodUnion k n d) (hv : v.OfKind k) (env : Environment)
    (i : ℕ) : GoodUnion k n (d.joinOver env [v] i) := hd.set ((hd.get i).join hv env)

/-- A union of which a bottom disjunct is replaced: at the entry that is not the first one. -/
theorem GoodUnion.replace {d : Disjunction} {v : Value} {i : ℕ} (hd : GoodUnion k n d) (hv : v.OfKind k)
    (hi : d.isBottomAt i = true) : GoodUnion k n (d.set i v) := by
  refine hd.set ⟨hv, fun hn h0 => ?_⟩
  subst h0
  have hbottom : d.first.isBottom = true := hi
  exact absurd (hd.first.entry hn rfl fun _ => 0) (Value.not_allows_of_isBottom hbottom _)

/-- Stores a disjunct, met with what is known, and marks its node. -/
def deposit (su : Setup) (m i : ℕ) (previous next : Value) : Analysis SearchOracle Memory Unit := do
  let next ← meetKnown su m next
  if previous.isBottom then setDisjunct su m .initial i next
  setDisjunct su m .stable i next
  push m
  setComputed m false
  markChanged m

/-- Takes the image of a path into a stable disjunct of its end. -/
def absorb (su : Setup) (n m i : ℕ) (env : Environment) (st : LoopStep) : Analysis SearchOracle Memory Unit := do
  modifyMemory fun mem => { mem with seen := st.seen }
  let previous ← disjunct su m .stable i
  let joined := previous.joinOver env [st.image]
  let widens := (← isWidening m) && (m != n || !st.onlyJoin)
  let next ← if widens then widenToThresholds su previous joined else pure joined
  deposit su m i previous next

/-- Propagates a disjunct of `n` along a path that leads to `m`. -/
def propagateTo (su : Setup) (n : ℕ) (p : Path) (i m : ℕ) : Analysis SearchOracle Memory Unit := do
  let env ← env m
  let image ← imageOf su n i p m
  let chosen ← place p i image (← slot su m .stable)
  let seen := (← memory).seen
  let st : LoopStep := ⟨image, !seen.contains (i, p), seen⟩
  if m = n then loopStep su n i chosen p st >>= absorb su n m chosen env else absorb su n m chosen env st

theorem propagate_eq (su : Setup) (n : ℕ) (p : Path) (i : ℕ) :
    (propagate su n p i : Analysis SearchOracle Memory Unit) = (do
      modifyStats fun s => { s with ascendingSteps := s.ascendingSteps + 1 }
      propagateTo su n p i (← destinationOf p)) := by
  rfl

section Shared

variable {J : Ledger → Prop} {step : Block → Store → Block → Store → Prop} (hD : k.domain = su.options.domain)
  (hf : su.transfer.Follows k step)

theorem yields_place {p : Path} {start index : ℕ} {image : Value} {target : Disjunction} {r r' : Run SearchOracle Memory}
    (h : Yields (place p start image target) r index r') :
    r' = { r with memory := { r.memory with placement := (r.memory.placement.assign p start image target).2 } } := by
  simp only [place, yields_bind, yields_memory, yields_modifyMemory, yields_pure] at h
  obtain ⟨mem, r₁, ⟨rfl, rfl⟩, u, r₂, rfl, -, rfl⟩ := h
  rfl

theorem keeps_place (p : Path) (start : ℕ) (image : Value) (target : Disjunction) :
    Keeps su k J (place p start image target) fun _ => True :=
  .bind (.of_same fun _ _ _ h => (yields_memory.mp h).2) fun _ _ => .bind (.memory fun _ h => h) fun _ _ => .pure trivial

theorem keeps_transform (p : Path) (v : Value) : Keeps su k J (transform su p v) (· = su.transfer.along p v) := by
  intro r w r' h hr hJ
  obtain ⟨rfl, hq⟩ := yields_transform h
  exact ⟨hr.quiet hq, ledger_eq (hq.slots? _) hq.memory ▸ hJ, rfl⟩

theorem keeps_env (m : ℕ) : Keeps su k J (Analysis.env m) fun _ => True := .of_same fun _ _ _ => yields_env

theorem keeps_destinationOf (p : Path) : Keeps su k J (destinationOf p) fun _ => True :=
  .of_same fun _ _ _ => yields_destinationOf

theorem keeps_startsPaths (m : ℕ) : Keeps su k J (startsPaths m) fun _ => True :=
  .of_same fun _ _ _ h => (yields_startsPaths h).2

theorem keeps_widen {i m : ℕ} {v w : Value} (hv : Good k m i v) (hw : w.OfKind k) :
    Keeps su k J (widenToThresholds su v w) (Good k m i) := by
  intro r x r' h hr hJ
  obtain ⟨⟨thresholds, hx⟩, hq⟩ := yields_widenToThresholds h
  exact ⟨hr.quiet hq, ledger_eq (hq.slots? _) hq.memory ▸ hJ, hv.widen hw hx⟩

theorem keeps_nextRecorded (m : ℕ) (descending : Bool) : Keeps su k J (nextRecorded su m descending) fun _ => True := by
  refine .bind (.of_same fun _ _ _ h => (yields_memory.mp h).2) fun mem _ => ?_
  split
  · exact .pure trivial
  · refine .bind (.query m descending _) fun answer _ => ?_
    split <;> exact .pure trivial

theorem keeps_drain {visit : ℕ → Analysis SearchOracle Memory Unit} (hvisit : ∀ m, Keeps su k J (visit m) fun _ => True)
    (fuel : ℕ) : Keeps su k J (drain visit fuel) fun _ => True := by
  intro r u r' h hr hJ
  have hpop : ∀ (x : Run SearchOracle Memory) queue, Asking su k x → Asking su k (x.pop queue) :=
    fun x queue hx => ⟨⟨hx.regular.arena, hx.regular.blocks, hx.regular.slots⟩, hx.oracle⟩
  obtain ⟨⟨hr', hJ'⟩, -⟩ := yields_drain (I := fun x => Asking su k x ∧ J (ledger su.key x)) h ⟨hr, hJ⟩
    (fun x _ _ queue hx _ _ => ⟨hpop x queue hx.1, hx.2⟩) fun x m _ queue x' hx _ hv => by
      obtain ⟨hx', hJx, -⟩ := hvisit m _ () x' hv (hpop x queue hx.1) hx.2
      exact ⟨hx', hJx⟩
  exact ⟨hr', hJ', trivial⟩

theorem yields_imageOf {m i succ : ℕ} {p : Path} {v : Value} {r r' : Run SearchOracle Memory}
    (h : Yields (imageOf su m i p succ) r v r') : r.Quiet r' := by
  simp only [imageOf, yields_bind, yields_pure] at h
  obtain ⟨env, r₁, henv, w, r₂, hw, x, r₃, htransform, -, rfl⟩ := h
  obtain rfl := yields_env henv
  obtain ⟨s, -, rfl, -⟩ := yields_disjunct hw
  exact (yields_transform htransform).2

/-- Asking leaves the slots and the memory alone. Without an answer, every path that might have been answered with leads
into the unions that the query compares with. -/
theorem query_covers (hf : su.transfer.Follows k step) (hg : su.graph.Bounded) {m : ℕ} {descending : Bool}
    {filter : PathFilter} {a : Option (Path × ℕ)} {r r' : Run SearchOracle Memory} (h : Yields (query su m descending filter) r a r') (hr : Asking su k r) :
    Alike su.key r r' ∧ r'.memory = r.memory ∧ (∀ p i, a = some (p, i) → 1 < p.length) ∧
      (a = none → ∀ σ p q σ', su.graph.Leads step m σ p q σ' → filter.admits p = true → r.Holds su.key .stable m σ →
        r.Holds su.key (if descending then .descending else .stable) q σ') := by
  have hblocks : r.blocks = r.arena.blocks := by rw [hr.regular.blocks, hr.regular.arena]
  have hlists := hr.oracle
  rw [← hr.regular.arena] at hlists
  obtain ⟨oracle, -, hq, hlength, hcovered⟩ := query_spec hg hf hr.regular.arena hblocks
    (fun n s hs => (hr.regular.slots n s hs).unionSlots) hlists h
  refine ⟨?_, hq.memory, hlength, hcovered⟩
  obtain ⟨t, c, st, w, rfl⟩ := hq
  exact ⟨rfl, rfl, fun _ => rfl, rfl, rfl⟩

include hD hf

theorem keeps_imageOf (m i : ℕ) (p : Path) (succ : ℕ) : Keeps su k J (imageOf su m i p succ) fun v => v.OfKind k := by
  refine .bind (keeps_env succ) fun env _ => .bind (.disjunct hD m i) fun v hv => .bind (keeps_transform p v) fun w hw => ?_
  subst hw
  exact .pure ((hf.ofKind_along hv.kind p).withEnv env)

end Shared

/-- An execution takes a listed path out of a node where paths start. -/
structure Takes (su : Setup) (step : Block → Store → Block → Store → Prop) (n : ℕ) (σ : Store) (p : Path) (q : ℕ)
    (σ' : Store) : Prop where
  starts : ((Arena.build su.graph).cuts.isCut n && !(Arena.build su.graph).cuts.isErrorSite n &&
    !((Arena.build su.graph).cuts.successors n).isEmpty) = true
  leads : su.graph.Leads step n σ p q σ'

section Discovery

/-- Discovery leaves stable unions and marks alone. -/
def Undisturbed (S : ℕ → Option Disjunction) (C : Worklist) (L : Ledger) : Prop := L.stable = S ∧ L.changed = C

variable {S : ℕ → Option Disjunction} {C : Worklist} {step : Block → Store → Block → Store → Prop}
  (hD : k.domain = su.options.domain) (hf : su.transfer.Follows k step)

include hD hf

theorem keeps_recordPath (m : ℕ) (p : Path) (i : ℕ) :
    Keeps su k (Undisturbed S C) (recordPath su m p i) fun _ => True := by
  refine .bind (keeps_destinationOf p) fun succ _ => .bind (keeps_imageOf hD hf m i p succ) fun image himage => ?_
  refine .bind (.slot succ (.inr rfl)) fun target htarget => .bind (keeps_place p i image target) fun chosen _ => ?_
  refine .bind (keeps_env succ) fun env _ => .bind (.setDescending (htarget.joinOver himage env chosen)) fun _ _ => ?_
  exact .bind (.memory fun _ h => h) fun _ _ => .push m

theorem keeps_recordPaths (m fuel : ℕ) : Keeps su k (Undisturbed S C) (recordPaths su m fuel) fun _ => True := by
  induction fuel with
  | zero => exact .throw _
  | succ fuel ih =>
    refine .bind (.query m true .any) fun answer _ => ?_
    cases answer with
    | none => exact .pure trivial
    | some found =>
      dsimp only
      split
      · exact .bind (keeps_recordPath hD hf m _ _) fun _ _ => ih
      · exact .pure trivial

theorem keeps_findPaths (m : ℕ) : Keeps su k (Undisturbed S C) (findPaths su m) fun _ => True := by
  refine .bind (keeps_startsPaths m) fun starts _ => ?_
  split
  · refine .bind (.of_same fun _ _ _ h => (yields_arena.mp h).2) fun a _ => .bind (.forM fun q _ => ?_) fun _ _ =>
      keeps_recordPaths hD hf m _
    exact .bind (.slot q (.inl rfl)) fun d hd => .setDescending hd
  · exact .pure trivial

/-- Paths are recorded until none out of the node leaves the descending unions. -/
theorem recordPaths_covers (hg : su.graph.Bounded) {m fuel : ℕ} {r r' : Run SearchOracle Memory} {u : Unit}
    (h : Yields (recordPaths su m fuel) r u r') (hr : Asking su k r) {σ σ' : Store} {p : Path} {q : ℕ}
    (hp : su.graph.Leads step m σ p q σ') (hσ : r'.Holds su.key .stable m σ) : r'.Holds su.key .descending q σ' := by
  induction fuel generalizing r with
  | zero => exact absurd h not_yields_throw
  | succ fuel ih =>
    simp only [recordPaths, yields_bind] at h
    obtain ⟨a, r₁, hquery, h⟩ := h
    obtain ⟨halike, -, hlength, hcovered⟩ := query_covers hf hg hquery hr
    cases a with
    | none =>
      obtain ⟨-, rfl⟩ := yields_pure.mp h
      exact halike.holds.mpr (hcovered rfl σ p q σ' hp rfl (halike.holds.mp hσ))
    | some found =>
      obtain ⟨found, i⟩ := found
      simp only [hlength found i rfl, if_true, yields_bind] at h
      obtain ⟨u₁, r₂, hrecord, h⟩ := h
      obtain ⟨hr₁, -, -⟩ := Keeps.query (J := fun _ => True) m true .any r _ r₁ hquery hr trivial
      obtain ⟨hr₂, -, -⟩ := keeps_recordPath hD hf m found i r₁ u₁ r₂ hrecord hr₁ ⟨rfl, rfl⟩
      exact ih h hr₂

theorem findPaths_covers (hg : su.graph.Bounded) {m : ℕ} {r r' : Run SearchOracle Memory} {u : Unit}
    (h : Yields (findPaths su m) r u r') (hr : Asking su k r) {σ σ' : Store} {p : Path} {q : ℕ}
    (hp : Takes su step m σ p q σ') (hσ : r'.Holds su.key .stable m σ) : r'.Holds su.key .descending q σ' := by
  simp only [findPaths, yields_bind] at h
  obtain ⟨b, r₁, hb, h⟩ := h
  obtain ⟨rfl, rfl⟩ := yields_startsPaths hb
  rw [hr.regular.arena, hp.starts] at h
  simp only [if_true, yields_bind, yields_arena] at h
  obtain ⟨a, r₂, ⟨rfl, rfl⟩, u₁, r₃, hreset, h⟩ := h
  have hkeeps : Keeps su k (fun _ => True) ((r₂.arena.cuts.successors m).forM fun s => do
      setSlot su s .descending (← slot su s .stable)) fun _ => True :=
    .forM fun q _ => .bind (.slot q (.inl rfl)) fun d hd => .setDescending hd
  obtain ⟨hr₃, -, -⟩ := hkeeps r₂ u₁ r₃ hreset hr trivial
  exact recordPaths_covers hD hf hg h hr₃ hp.leads hσ

end Discovery

section Ascent

/-- Recorded paths are as before, and so are the stable unions of nodes that are neither marked nor chosen by `P`. -/
def Raised (S : ℕ → Option Disjunction) (R : List PathSet) (P : ℕ → Prop) (L : Ledger) : Prop :=
  L.recorded = R ∧ ∀ n, ¬ P n → n ∉ L.changed.nodes → L.stable n = S n

variable {S : ℕ → Option Disjunction} {R : List PathSet} {step : Block → Store → Block → Store → Prop}
  (hD : k.domain = su.options.domain) (hf : su.transfer.Follows k step)

theorem Raised.update {m : ℕ} {L : Ledger} (h : Raised S R (· = m) L) (d : Disjunction) :
    Raised S R (· = m) { L with stable := Function.update L.stable m (some d) } := by
  exact ⟨h.1, fun n hn hmarked => (Function.update_of_ne hn _ _).trans (h.2 n hn hmarked)⟩

theorem yields_markChanged {m : ℕ} {r r' : Run SearchOracle Memory} {u : Unit} (h : Yields (markChanged m) r u r') :
    r' = { r with memory := { r.memory with changed := r.memory.changed.push m (r.arena.label m) } } := by
  simp only [markChanged, yields_bind, yields_arena, yields_modifyMemory] at h
  obtain ⟨a, r₁, ⟨rfl, rfl⟩, rfl⟩ := h
  rfl

theorem keeps_markChanged (m : ℕ) : Keeps su k (Raised S R (· = m)) (markChanged m) fun _ => True := by
  intro r u r' h hr hJ
  rw [yields_markChanged h]
  exact ⟨hr.memory _, ⟨hJ.1, fun n hn hmarked => hJ.2 n hn fun hmem =>
    hmarked (Worklist.mem_nodes_push.mpr (.inr hmem))⟩, trivial⟩

theorem keeps_deposit {m i : ℕ} {v w : Value} (hw : Good k m i w) :
    Keeps su k (Raised S R (· = m)) (deposit su m i v w) fun _ => True := by
  refine .bind (.meetKnown m w) fun next hnext => ?_
  subst hnext
  have hstore : Keeps su k (Raised S R (· = m)) (do
      setDisjunct su m .stable i next
      push m
      setComputed m false
      markChanged m) fun _ => True :=
    .bind (.setStable hw fun _ d h => h.update d) fun _ _ => .bind (.push m) fun _ _ => .bind (.setComputed m false)
      fun _ _ => keeps_markChanged m
  split
  · exact .bind (.setInitial m i next) fun _ _ => hstore
  · exact hstore

/-- What is stored is marked. -/
theorem mem_changed_of_deposit {m i : ℕ} {v w : Value} {r r' : Run SearchOracle Memory} {u : Unit}
    (h : Yields (deposit su m i v w) r u r') : m ∈ r'.memory.changed.nodes := by
  have hmarks : ∀ {x : Run SearchOracle Memory} {y : Value}, Yields (do
      setDisjunct su m .stable i y
      push m
      setComputed m false
      markChanged m) x u r' → m ∈ r'.memory.changed.nodes := by
    intro x y hx
    simp only [yields_bind] at hx
    obtain ⟨_, _, _, _, _, _, _, _, _, hmark⟩ := hx
    rw [yields_markChanged hmark]
    exact Worklist.mem_nodes_push.mpr (.inl rfl)
  obtain ⟨next, r₁, -, h⟩ := yields_bind.mp h
  split at h
  · obtain ⟨_, r₂, -, h⟩ := yields_bind.mp h
    exact hmarks h
  · exact hmarks h

theorem mem_changed_of_absorb {m j i : ℕ} {env : Environment} {st : LoopStep} {r r' : Run SearchOracle Memory} {u : Unit}
    (h : Yields (absorb su m j i env st) r u r') : j ∈ r'.memory.changed.nodes := by
  simp only [absorb, yields_bind] at h
  obtain ⟨_, _, _, _, _, _, _, _, _, h⟩ := h
  split at h
  · obtain ⟨_, _, _, h⟩ := yields_bind.mp h
    exact mem_changed_of_deposit h
  · obtain ⟨_, _, _, h⟩ := yields_bind.mp h
    exact mem_changed_of_deposit h

theorem mem_changed_of_propagateTo {m i j : ℕ} {p : Path} {r r' : Run SearchOracle Memory} {u : Unit}
    (h : Yields (propagateTo su m p i j) r u r') : j ∈ r'.memory.changed.nodes := by
  simp only [propagateTo, yields_bind] at h
  obtain ⟨_, _, _, _, _, _, _, _, _, _, _, _, _, _, _, h⟩ := h
  split at h
  · obtain ⟨_, _, _, h⟩ := yields_bind.mp h
    exact mem_changed_of_absorb h
  · exact mem_changed_of_absorb h

include hD

theorem keeps_absorb {m j i : ℕ} {env : Environment} {st : LoopStep} (hst : st.image.OfKind k) :
    Keeps su k (Raised S R (· = j)) (absorb su m j i env st) fun _ => True := by
  refine .bind (.memory fun _ h => h) fun _ _ => .bind (.disjunct hD j i) fun previous hprevious => ?_
  have hjoined := hprevious.join hst env
  refine .bind (.of_same fun _ _ _ => yields_isWidening) fun widening _ => ?_
  dsimp only
  split
  · exact .bind (keeps_widen hprevious hjoined.kind) fun next hnext => keeps_deposit hnext
  · exact .bind (.pure hjoined) fun next hnext => keeps_deposit hnext

include hf

theorem keeps_loopStep {st : LoopStep} (m source target : ℕ) (p : Path) (hst : st.image.OfKind k) :
    Keeps su k (Raised S R (· = m)) (loopStep su m source target p st) fun st => st.image.OfKind k := by
  unfold loopStep
  split
  · refine .bind (keeps_env m) fun env _ => .bind (.disjunct hD m source) fun backup hbackup => ?_
    refine .bind (.disjunct hD m target) fun previous hprevious => ?_
    refine .bind (keeps_widen hprevious (hprevious.join hst env).kind) fun widened hwidened => ?_
    refine .bind (.setStable hwidened fun _ d h => h.update d) fun _ _ => ?_
    refine .bind (keeps_transform p widened) fun image himage => ?_
    subst himage
    exact .bind (.setStable hbackup fun _ d h => h.update d) fun _ _ =>
      .pure ((hf.ofKind_along hwidened.kind p).withEnv env)
  · exact .pure hst

theorem keeps_propagateTo (m : ℕ) (p : Path) (i j : ℕ) :
    Keeps su k (Raised S R (· = j)) (propagateTo su m p i j) fun _ => True := by
  refine .bind (keeps_env j) fun env _ => .bind (keeps_imageOf hD hf m i p j) fun image himage => ?_
  refine .bind (.slot j (.inl rfl)) fun target _ => .bind (keeps_place p i image target) fun chosen _ => ?_
  refine .bind (.of_same fun _ _ _ h => (yields_memory.mp h).2) fun mem _ => ?_
  dsimp only
  split
  · rename_i hjm
    subst hjm
    exact .bind (keeps_loopStep hD hf j i chosen p himage) fun st hst => keeps_absorb hD hst
  · exact keeps_absorb hD himage

/-- A step of the ascending pass changes the stable union of the end of its path only, and marks it. -/
theorem keeps_propagate (m : ℕ) (p : Path) (i : ℕ) :
    Keeps su k (Raised S R fun _ => False) (propagate su m p i) fun _ => True := by
  rw [propagate_eq]
  refine .bind (.stats _) fun _ _ => .bind (keeps_destinationOf p) fun j _ => ?_
  intro r u r' h hr hJ
  obtain ⟨hr', hJ', -⟩ := keeps_propagateTo (S := S) (R := R) hD hf m p i j r u r' h hr
    ⟨hJ.1, fun n _ hmarked => hJ.2 n id hmarked⟩
  refine ⟨hr', ⟨hJ'.1, fun n _ hmarked => hJ'.2 n ?_ hmarked⟩, trivial⟩
  rintro rfl
  exact hmarked (mem_changed_of_propagateTo h)

theorem keeps_followPaths (m fuel : ℕ) : Keeps su k (Raised S R fun _ => False) (followPaths su m fuel) fun _ => True := by
  induction fuel with
  | zero => exact .throw _
  | succ fuel ih =>
    refine .bind (keeps_nextRecorded m false) fun answer _ => ?_
    split
    · exact .pure trivial
    · exact .bind (keeps_propagate hD hf m _ _) fun _ _ => ih

theorem keeps_computeNode (m : ℕ) : Keeps su k (Raised S R fun _ => False) (computeNode su m) fun _ => True := by
  refine .bind (.setComputed m true) fun _ _ => .bind (keeps_startsPaths m) fun starts _ => ?_
  split
  · exact .bind (.memory fun _ h => h) fun _ _ => keeps_followPaths hD hf m _
  · exact .pure trivial

end Ascent

/-- The stores of all disjuncts. -/
def Unions (d : Disjunction) (σ : Store) : Prop := ∃ v ∈ d.toList, v.Allows σ.point

theorem Unions.set {d : Disjunction} {i : ℕ} {w : Value} {σ : Store} (h : Unions d σ)
    (hi : ∀ v, d.get? i = some v → v.Allows σ.point → w.Allows σ.point) : Unions (d.set i w) σ := by
  obtain ⟨v, hv, hσ⟩ := h
  obtain ⟨j, hj⟩ := List.getElem?_of_mem hv
  by_cases hji : j = i
  · subst hji
    exact ⟨w, List.mem_of_getElem? (d.get?_set j w), hi v hj hσ⟩
  · have hlt : j < d.size := (List.getElem?_eq_some_iff.mp hj).1
    exact ⟨v, List.mem_of_getElem? ((d.get?_set_of_ne w hji hlt).trans hj), hσ⟩

theorem Unions.joinOver {d : Disjunction} {i : ℕ} {v : Value} {σ : Store} (h : Unions d σ) (hd : GoodUnion k n d)
    (hv : v.OfKind k) (env : Environment) : Unions (d.joinOver env [v] i) σ := by
  refine Unions.set h fun w hw hσ => ?_
  have hget : d.get i = w := by rw [Disjunction.get, hw, Option.getD_some]
  rw [hget]
  exact Value.allows_joinOver (hd i w hw).kind (by simpa using hv) (.inl hσ)

/-- An image replaces a bottom disjunct and is joined into another one. -/
theorem Unions.take {d : Disjunction} {i : ℕ} {v : Value} {σ : Store} (h : Unions d σ) (hd : GoodUnion k n d)
    (hv : v.OfKind k) (env : Environment) :
    Unions (if d.isBottomAt i = true then d.set i v else d.joinOver env [v] i) σ := by
  split
  · rename_i hbottom
    refine h.set fun w hw hσ => absurd hσ (Value.not_allows_of_isBottom ?_ _)
    rwa [Disjunction.isBottomAt, hw, Option.all_some] at hbottom
  · exact h.joinOver hd hv env

/-- The path out of the node is recorded. -/
def isRecorded (R : List PathSet) (n : ℕ) (p : Path) : Bool := (R[n]?).any (·.has p)

/-- The steps along recorded paths. -/
def RecordedStep (su : Setup) (step : Block → Store → Block → Store → Prop) (R : List PathSet) (n : ℕ) (σ : Store) (q : ℕ)
    (σ' : Store) : Prop := ∃ p, Takes su step n σ p q σ' ∧ isRecorded R n p = true

section Descent

variable {J : Ledger → Prop} {step : Block → Store → Block → Store → Prop} (hD : k.domain = su.options.domain)
  (hf : su.transfer.Follows k step)

include hD

/-- A bottom value, where the entry is not concerned. -/
theorem GoodUnion.bottom {m : ℕ} (hm : m ≠ 0) (env : Environment) :
    GoodUnion k m (.single (.bottom su.options.domain env)) := by
  intro i v hv
  rw [List.mem_singleton.mp (List.mem_of_getElem? hv), ← hD]
  exact ⟨Value.ofKind_bottom env, fun h0 => absurd h0 hm⟩

theorem keeps_resetDescending (m : ℕ) : Keeps su k J (resetDescending su m) fun _ => True := by
  unfold resetDescending
  split
  · exact .bind (.slot m (.inl rfl)) fun d hd => .setDescending hd
  · rename_i hm
    intro r u r' h hr hJ
    obtain ⟨v, r₁, hv, hset⟩ := yields_bind.mp h
    obtain ⟨⟨env, rfl⟩, rfl⟩ := yields_bottom hv
    exact Keeps.setDescending (.bottom hD hm env) r₁ u r' hset hr hJ

include hf

theorem keeps_propagateDown (m : ℕ) (p : Path) (i : ℕ) : Keeps su k J (propagateDown su m p i) fun _ => True := by
  refine .bind (.stats _) fun _ _ => .bind (keeps_destinationOf p) fun succ _ => ?_
  refine .bind (keeps_imageOf hD hf m i p succ) fun image himage => .bind (.slot succ (.inr rfl)) fun target htarget => ?_
  refine .bind (keeps_place p i image target) fun chosen _ => .bind (.meetKnown succ image) fun met hmet => ?_
  subst hmet
  refine .bind (keeps_env succ) fun env _ => .bind (.setDescending ?_) fun _ _ => .bind (.push succ) fun _ _ =>
    .setComputed succ false
  split
  · rename_i hbottom
    exact htarget.replace himage hbottom
  · exact htarget.joinOver himage env chosen

theorem keeps_followPathsDown (m fuel : ℕ) : Keeps su k J (followPathsDown su m fuel) fun _ => True := by
  induction fuel with
  | zero => exact .throw _
  | succ fuel ih =>
    refine .bind (keeps_nextRecorded m true) fun answer _ => ?_
    split
    · exact .pure trivial
    · exact .bind (keeps_propagateDown hD hf m _ _) fun _ _ => ih

theorem keeps_narrowNode (m : ℕ) : Keeps su k J (narrowNode su m) fun _ => True := by
  refine .bind (.setComputed m true) fun _ _ => .bind (keeps_startsPaths m) fun starts _ => ?_
  split
  · exact keeps_followPathsDown hD hf m _
  · exact .pure trivial

/-- The descending pass leaves the ledger alone. -/
theorem keeps_descend : Keeps su k J (descend su (narrowNode su)) fun _ => True := by
  refine .bind (.engine (fun _ => rfl) fun _ => rfl) fun _ _ => .bind (.engine (fun _ => rfl) fun _ => rfl) fun _ _ => ?_
  refine .bind (.of_same fun _ _ _ h => (yields_nodeCount h).2) fun count _ => ?_
  refine .bind (.forM fun m _ => keeps_resetDescending hD m) fun _ _ => .bind (.push 0) fun _ _ => ?_
  exact keeps_drain (keeps_narrowNode hD hf) _

/-- The descending union at the end of a path only grows, and its node waits. -/
theorem lowers_propagateDown {m i : ℕ} {p : Path} {r r' : Run SearchOracle Memory} {u : Unit}
    (h : Yields (propagateDown su m p i) r u r') (hr : Asking su k r) :
    LowersBy Unions su.key (fun _ => True) r r' := by
  simp only [propagateDown, yields_bind, yields_slot] at h
  obtain ⟨u₁, r₁, hstats, q, r₂, hq, image, r₃, himage, d, r₄, ⟨⟨s, hs, rfl⟩, rfl⟩, chosen, r₅, hplace, met, r₆, hmeet, env,
    r₇, henv, u₂, r₈, hset, u₃, r₉, hpush, hcomputed⟩ := h
  obtain rfl := yields_destinationOf hq
  obtain rfl := yields_env henv
  have hquiet := yields_modifyStats hstats
  have hr₂ := hr.quiet hquiet
  obtain ⟨hr₄, -, hkind⟩ := keeps_imageOf (J := fun _ => True) hD hf m i p q r₂ image r₄ himage hr₂ trivial
  have halike : Alike su.key r r₅ :=
    (hquiet.trans (yields_imageOf himage)).alike.trans (yields_place hplace ▸ alike_memory r₄ _)
  obtain ⟨hr₅, -, -⟩ := keeps_place (J := fun _ => True) p i image _ r₄ chosen r₅ hplace hr₄ trivial
  obtain ⟨-, -, rfl⟩ := Keeps.meetKnown (J := fun _ => True) q image r₅ met r₇ hmeet hr₅ trivial
  obtain ⟨-, -, rfl, -⟩ := yields_meetKnown hmeet
  obtain ⟨t, ht, rfl⟩ := yields_setSlot hset
  obtain rfl : s = t := by
    rw [yields_place hplace] at ht
    exact Option.some.inj (hs.symm.trans ht)
  have hfills := (fills_put ht hpush).setComputed hcomputed
  refine halike.lowers.trans (hfills.lowers ht rfl fun σ hσ => ?_)
  exact Unions.take hσ (hr₅.regular.slots q s ht).descending hkind env

variable (hg : su.graph.Bounded)

include hg

omit hD in
theorem nextRecorded_covers {m : ℕ} {a : Option (Path × ℕ)} {r r' : Run SearchOracle Memory}
    (h : Yields (nextRecorded su m true) r a r') (hr : Asking su k r) : Alike su.key r r' ∧ r'.memory = r.memory ∧
      (a = none → ∀ σ q σ', RecordedStep su step r.memory.recorded m σ q σ' → r.Holds su.key .stable m σ →
        r.Holds su.key .descending q σ') := by
  simp only [nextRecorded, yields_bind, yields_memory] at h
  obtain ⟨mem, r₁, ⟨rfl, rfl⟩, h⟩ := h
  cases hpaths : r₁.memory.recorded[m]? with
  | none =>
    rw [hpaths] at h
    obtain ⟨-, rfl⟩ := yields_pure.mp h
    refine ⟨⟨rfl, rfl, fun _ => rfl, rfl, rfl⟩, rfl, fun _ σ q σ' hstep _ => ?_⟩
    obtain ⟨p, -, hrecorded⟩ := hstep
    rw [isRecorded, hpaths] at hrecorded
    cases hrecorded
  | some paths =>
    rw [hpaths] at h
    obtain ⟨answer, r₂, hquery, h⟩ := yields_bind.mp h
    obtain ⟨halike, hmemory, hlength, hcovered⟩ := query_covers hf hg hquery hr
    cases answer with
    | none =>
      obtain ⟨-, rfl⟩ := yields_pure.mp h
      refine ⟨halike, hmemory, fun _ σ q σ' hstep => ?_⟩
      obtain ⟨p, htakes, hrecorded⟩ := hstep
      rw [isRecorded, hpaths] at hrecorded
      exact hcovered rfl σ p q σ' htakes.leads hrecorded
    | some found =>
      obtain ⟨p, i⟩ := found
      simp only [hlength p i rfl, if_true, yields_pure] at h
      obtain ⟨rfl, rfl⟩ := h
      exact ⟨halike, hmemory, fun hnone => by cases hnone⟩

/-- Recorded paths are followed until none of them leaves the descending unions. -/
theorem followPathsDown_lowered {R : List PathSet} {m fuel : ℕ} {r r' : Run SearchOracle Memory} {u : Unit}
    (h : Yields (followPathsDown su m fuel) r u r') (hr : Asking su k r) (hR : r.memory.recorded = R) :
    LowersBy Unions su.key (fun _ => True) r r' ∧
      r'.LoweredBy Unions su.key (fun _ _ => True) (RecordedStep su step R) m := by
  induction fuel generalizing r with
  | zero => exact absurd h not_yields_throw
  | succ fuel ih =>
    simp only [followPathsDown, yields_bind] at h
    obtain ⟨a, r₁, hnext, h⟩ := h
    obtain ⟨halike, hmemory, hcovered⟩ := nextRecorded_covers hf hg hnext hr
    obtain ⟨hr₁, -, -⟩ := keeps_nextRecorded (J := fun _ => True) m true r a r₁ hnext hr trivial
    cases a with
    | none =>
      obtain ⟨-, rfl⟩ := yields_pure.mp h
      refine ⟨halike.lowers, fun σ q σ' _ hs hstep => halike.within.mpr ?_⟩
      exact hcovered rfl σ q σ' (hR ▸ hstep) (halike.within.mp hs)
    | some found =>
      simp only [yields_bind] at h
      obtain ⟨u₁, r₂, hpropagate, h⟩ := h
      obtain ⟨hr₂, hR₂, -⟩ := keeps_propagateDown (J := fun L => L.recorded = R) hD hf m _ _ r₁ u₁ r₂ hpropagate hr₁
        ((congrArg Memory.recorded hmemory).trans hR)
      obtain ⟨hlow, hlowered⟩ := ih h hr₂ hR₂
      exact ⟨(halike.lowers.trans (lowers_propagateDown hD hf hpropagate hr₁)).trans hlow, hlowered⟩

theorem narrowNode_lowered {R : List PathSet} {m : ℕ} {r r' : Run SearchOracle Memory} {u : Unit}
    (h : Yields (narrowNode su m) r u r') (hr : Asking su k r) (hR : r.memory.recorded = R) :
    LowersBy Unions su.key (· ≠ m) r r' ∧
      r'.LoweredBy Unions su.key (fun _ _ => True) (RecordedStep su step R) m := by
  simp only [narrowNode, yields_bind] at h
  obtain ⟨u₁, r₁, hset, b, r₂, hb, h⟩ := h
  obtain ⟨hr₁, hR₁, -⟩ := Keeps.setComputed (J := fun L => L.recorded = R) m true r u₁ r₁ hset hr hR
  obtain ⟨rfl, rfl⟩ := yields_startsPaths hb
  split at h
  · obtain ⟨hlow, hlowered⟩ := followPathsDown_lowered hD hf hg h hr₁ hR₁
    exact ⟨(lowers_setComputed hset).trans (hlow.mono fun _ _ => trivial), hlowered⟩
  · rename_i hstarts
    obtain ⟨-, rfl⟩ := yields_pure.mp h
    refine ⟨lowers_setComputed hset, fun σ q σ' _ _ hstep => ?_⟩
    obtain ⟨p, htakes, -⟩ := hstep
    rw [hr₁.regular.arena] at hstarts
    exact absurd htakes.starts hstarts

/-- A descending pass leaves the ledger alone. It takes the stable union of every node along the recorded paths into
the descending unions, unless the node has no descending store. -/
theorem descend_recorded {r r' : Run SearchOracle Memory} {u : Unit} (h : Yields (descend su (narrowNode su)) r u r')
    (hr : Asking su k r) : Asking su k r' ∧ ledger su.key r' = ledger su.key r ∧
      DescendedBy Unions su.key (fun _ _ => True) (RecordedStep su step r.memory.recorded) r r' := by
  obtain ⟨hr', hledger, -⟩ := keeps_descend (J := (· = ledger su.key r)) hD hf r u r' h hr rfl
  have hbottom : ∀ env σ, ¬ Unions (.single (.bottom su.options.domain env)) σ := by
    rintro env σ ⟨v, hv, hσ⟩
    rw [List.mem_singleton.mp hv] at hσ
    exact Value.not_allows_of_isBottom rfl _ hσ
  have hresets : ∀ n s s', ResetSlots su.options.domain n s s' → SlotsLawful k n s → SlotsLawful k n s' := by
    rintro n s s' ⟨d, rfl, ⟨rfl, rfl⟩ | ⟨hn, env, rfl⟩⟩ hz
    · exact ⟨hz.stable, hz.stable, hz.known⟩
    · exact ⟨hz.stable, .bottom hD hn env, hz.known⟩
  refine ⟨hr', hledger, ?_⟩
  exact (descend_spec (J := fun mem o => mem.recorded = r.memory.recorded ∧
    o.Lists su.graph su.transfer (Arena.build su.graph).isCutBlock) hbottom hresets
    (fun x n x' hx hJ hv => by
      have hasking : Asking su k x := ⟨hx, hJ.2⟩
      obtain ⟨hx', hR, -⟩ := keeps_narrowNode (J := fun L => L.recorded = r.memory.recorded) hD hf n x () x' hv hasking hJ.1
      exact ⟨hx'.regular, ⟨hR, hx'.oracle⟩, narrowNode_lowered hD hf hg hv hasking hJ.1⟩)
    h hr.regular ⟨rfl, hr.oracle⟩).2.2

end Descent

section Copying

theorem Unions.of_same {d e : Disjunction} {σ : Store} (hd : GoodUnion k n d) (he : GoodUnion k n e)
    (h : ∀ i < d.size, d.leqAt e i = true) (hσ : Unions d σ) : Unions e σ := by
  obtain ⟨v, hv, hσ⟩ := hσ
  obtain ⟨i, hi⟩ := List.getElem?_of_mem hv
  have hleq := h i (List.getElem?_eq_some_iff.mp hi).1
  rw [Disjunction.leqAt, show d.get? i = some v from hi] at hleq
  cases hw : e.get? i with
  | none =>
    rw [hw] at hleq
    exact absurd hσ (Value.not_allows_of_isBottom hleq _)
  | some w =>
    rw [hw] at hleq
    exact ⟨w, List.mem_of_getElem? hw, Value.allows_of_leq (hd i v hi).kind (he i w hw).kind hleq hσ⟩

theorem unions_iff_of_same {d e : Disjunction} {σ : Store} (hd : GoodUnion k n d) (he : GoodUnion k n e)
    (h : d.same e = true) : Unions d σ ↔ Unions e σ := by
  have hboth : ∀ i < d.size + e.size, d.leqAt e i = true ∧ e.leqAt d i = true := by
    intro i hi
    exact Bool.and_eq_true_iff.mp (List.all_eq_true.mp h i (List.mem_range.mpr hi))
  exact ⟨.of_same hd he fun i hi => (hboth i (by omega)).1, .of_same he hd fun i hi => (hboth i (by omega)).2⟩

/-- Copying makes the descending unions stable. -/
theorem settle_unions {r r' : Run SearchOracle Memory} {b : Bool} (ht : su.options.technique = .disjunctive)
    (h : Yields (settle su) r b r') (hr : Asking su k r) : Asking su k r' ∧ r'.memory = r.memory ∧
      ∀ m σ, r'.Holds su.key .stable m σ ↔ r.Holds su.key .descending m σ := by
  have hw := settle_rewrites h
  have hsettled : ∀ s s', (∃ c, settled su.options.technique s = .ok (s', c)) →
      s.stable.same s.descending = true ∧ s' = s ∨ s' = { s with stable := s.descending } := by
    rintro s s' ⟨c, hc⟩
    rw [ht] at hc
    have hc' : (if s.stable.same s.descending = true then (s, false) else ({ s with stable := s.descending }, true)) =
        (s', c) := Except.ok.inj hc
    split at hc'
    · rename_i hsame
      exact .inl ⟨hsame, (Prod.mk.inj hc').1.symm⟩
    · exact .inr (Prod.mk.inj hc').1.symm
  have hregular : r'.Regular su.key (.build su.graph) (SlotsLawful k) := by
    refine hw.regular hr.regular fun m s s' hs hz => ?_
    rcases hsettled s s' hs with ⟨-, rfl⟩ | rfl
    · exact hz
    · exact ⟨hz.descending, hz.descending, hz.known⟩
  refine ⟨⟨hregular, hw.oracle ▸ hr.oracle⟩, hw.memory, fun m σ => ?_⟩
  cases hs : r.slots? su.key m with
  | none => simp only [Holds, hw.absent m hs, hs, reduceCtorEq, false_and, exists_false]
  | some s =>
    obtain ⟨s', hs', hc⟩ := hw.slots m trivial s hs
    have hz := hr.regular.slots m s hs
    have hunions : Unions s'.stable σ ↔ Unions s.descending σ := by
      rcases hsettled s s' hc with ⟨hsame, rfl⟩ | rfl
      · exact unions_iff_of_same hz.stable hz.descending hsame
      · exact Iff.rfl
    simp only [Holds, hs, hs', Option.some.injEq, exists_eq_left']
    exact hunions

end Copying

end Disjunctive

end PathInvariants

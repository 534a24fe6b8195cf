import PathInvariants.Proofs.DisjunctiveSteps
import PathInvariants.Proofs.Outcomes

/-!
# Soundness of disjunctive path focusing

A path that is not recorded was covered when it was looked at, and copying may later take away from the
union that covers it; copying may also add to a union whose node is not looked at again. A run all of
whose rounds are faithful does neither, and its unions hold all stores of safe executions: the
descending passes cover the recorded paths and what discovery saw covers the others. Without faithful
rounds a run may miss stores.
-/
namespace PathInvariants

namespace Disjunctive

open Run Analysis

variable {k : ValueKind} {su : Setup}

/-- The state that a computation leaves behind. -/
def after {α : Type} (m : Analysis SearchOracle Memory α) (r : Run SearchOracle Memory) : Run SearchOracle Memory :=
  (m.run.run r).2

theorem after_eq {α : Type} {m : Analysis SearchOracle Memory α} {r r' : Run SearchOracle Memory} {a : α}
    (h : Yields m r a r') : after m r = r' := congrArg Prod.snd h

/-- The start of a round. -/
def beginRound : Analysis SearchOracle Memory Unit := do
  modifyStats fun s => { s with rounds := s.rounds + 1 }
  modifyMemory fun m => { m with recorded := m.recorded.map PathSet.clearPending }
  resetComputed
  clearWorklist

/-- The passes of a round up to its first copying. -/
def passes (su : Setup) : Analysis SearchOracle Memory Unit := do
  modifyMemory fun m => { m with recorded := m.recorded.map PathSet.commit }
  resetComputed
  ascend su (computeNode su) false
  descend su (narrowNode su)

theorem round_eq (su : Setup) : (round su : Analysis SearchOracle Memory Unit) = (do
    beginRound
    drainChanged su su.resources.fuel
    passes su
    descendAgain su (su.options.roundsFor .disjunctive)
    checkDeadline su) := by
  simp only [round, beginRound, passes, bind_assoc]

/-- The state with one changed node less. -/
def take (r : Run SearchOracle Memory) (changed : Worklist) : Run SearchOracle Memory :=
  { r with memory := { r.memory with changed } }

/-- The changed nodes in the order they are looked at, each with the state in which the paths out of it have been
found. -/
def explored (su : Setup) : ℕ → Run SearchOracle Memory → List (ℕ × Run SearchOracle Memory)
  | 0, _ => []
  | fuel + 1, r =>
    match r.memory.changed.pop? with
    | none => []
    | some (n, changed) => (n, after (findPaths su n) (take r changed)) ::
        explored su fuel (after (findPaths su n) (take r changed))

/-- The states between a descending pass and the copying that follows it. -/
def copied (su : Setup) : ℕ → Run SearchOracle Memory → List (Run SearchOracle Memory)
  | 0, r => [r]
  | count + 1, r =>
    match (settle su).run.run r with
    | (.ok true, r') => r :: copied su count (after (descend su (narrowNode su)) r')
    | _ => [r]

/-- Every disjunct that holds some state is below one of the other union. -/
def Below (d e : Disjunction) : Prop := ∀ v ∈ d.toList, v.isBottom = true ∨ ∃ w ∈ e.toList, v.leq w = true

/-- At a node, what a slot holds in one state another slot holds in another state. -/
def Retains (key : Key) (n : ℕ) (r : Run SearchOracle Memory) (sl : Slot) (r' : Run SearchOracle Memory) (sl' : Slot) :
    Prop :=
  ∀ s ∈ r.slots? key n, ∃ s' ∈ r'.slots? key n, Below (s.get sl) (s'.get sl')

/-- Where the paths out of a node have been found covered: in the unions that discovery gathers if the node has
changed, and in the stable ones of the start of the round otherwise. -/
def covering (su : Setup) (r : Run SearchOracle Memory) (n : ℕ) : List (Run SearchOracle Memory × Slot) :=
  if n ∈ r.memory.changed.nodes then
    ((explored su su.resources.fuel (after beginRound r)).filter (·.1 = n)).map fun x => (x.2, .descending)
  else [(r, .stable)]

/-- The round that starts in a state is faithful. Copying adds to the unions of marked nodes only. Unless a node is
marked, the union at the end of a path out of it that is not recorded keeps what covered the path. -/
structure Faithful (su : Setup) (r : Run SearchOracle Memory) : Prop where
  adds : ∀ y ∈ copied su (su.options.roundsFor .disjunctive)
      (after (passes su) (after (drainChanged su su.resources.fuel) (after beginRound r))),
    ∀ n ∈ (Arena.build su.graph).cuts.cutNodes, n ∉ y.memory.changed.nodes → Retains su.key n y .descending y .stable
  keeps : ∀ n ∈ (Arena.build su.graph).cuts.cutNodes, (Arena.build su.graph).cuts.isErrorSite n = false →
    n ∉ (after (round su) r).memory.changed.nodes → ∀ p ∈ su.graph.pathsAt n,
      isRecorded (after (round su) r).memory.recorded n p = false →
        ∀ q ∈ p.destination?.bind (Arena.build su.graph).index?, ∀ c ∈ covering su r n,
          Retains su.key q c.1 c.2 (after (round su) r) .stable

/-- The states in which the rounds start. -/
def roundStarts (su : Setup) : ℕ → Run SearchOracle Memory → List (Run SearchOracle Memory)
  | 0, _ => []
  | fuel + 1, r => if r.memory.changed.isEmpty then [] else r :: roundStarts su fuel (after (round su) r)

/-- The start of an analysis: nothing is recorded, and the entry is marked. -/
def beginFunction : Analysis SearchOracle Memory Unit := do
  let count ← nodeCount
  modifyMemory fun m =>
    { m with recorded := List.replicate count .empty, changed := .empty, placement := m.placement.clear }
  markChanged 0

theorem computeFunction_eq (su : Setup) : (computeFunction su : Analysis SearchOracle Memory Unit) = (do
    beginFunction
    rounds su su.resources.fuel) := by
  simp only [computeFunction, beginFunction, bind_assoc]

/-- The state in which the first round of an analysis starts. -/
def firstRound (su : Setup) (ctx : Context) : Run SearchOracle Memory :=
  after beginFunction
    (after (prepare su) ⟨.new su.options ctx (.new su.graph su.transfer), .new su.options.maxDisjuncts⟩)

/-- All rounds of an analysis are faithful. -/
def FaithfulRun (su : Setup) (ctx : Context) : Prop :=
  ∀ r ∈ roundStarts su su.resources.fuel (firstRound su ctx), Faithful su r

section Decidable

instance (d e : Disjunction) : Decidable (Below d e) := inferInstanceAs (Decidable (∀ v ∈ d.toList, _))

instance (key : Key) (n : ℕ) (r : Run SearchOracle Memory) (sl : Slot) (r' : Run SearchOracle Memory) (sl' : Slot) :
    Decidable (Retains key n r sl r' sl') := inferInstanceAs (Decidable (∀ s ∈ r.slots? key n, _))

instance (su : Setup) (r : Run SearchOracle Memory) : Decidable (Faithful su r) :=
  decidable_of_iff (_ ∧ _) ⟨fun h => ⟨h.1, h.2⟩, fun h => ⟨h.adds, h.keeps⟩⟩

instance (su : Setup) (ctx : Context) : Decidable (FaithfulRun su ctx) :=
  inferInstanceAs (Decidable (∀ r ∈ roundStarts su su.resources.fuel (firstRound su ctx), Faithful su r))

end Decidable

theorem holds_stable {key : Key} {r : Run SearchOracle Memory} {n : ℕ} {σ : Store} :
    r.Holds key .stable n σ ↔ ∃ d, (ledger key r).stable n = some d ∧ Unions d σ := by
  simp only [ledger, Option.map_eq_some_iff]
  constructor
  · rintro ⟨s, hs, hσ⟩
    exact ⟨s.stable, ⟨s, hs, rfl⟩, hσ⟩
  · rintro ⟨d, ⟨s, hs, rfl⟩, hσ⟩
    exact ⟨s, hs, hσ⟩

theorem Asking.kind {r : Run SearchOracle Memory} (hr : Asking su k r) {n : ℕ} {s : Slots Disjunction}
    (hs : r.slots? su.key n = some s) {sl : Slot} (hsl : sl = .stable ∨ sl = .descending) :
    ∀ v ∈ (s.get sl).toList, v.OfKind k := by
  have hunion := (hr.regular.slots n s hs).unionSlots
  rcases hsl with rfl | rfl
  · exact hunion.stable
  · exact hunion.descending

theorem Retains.holds {n : ℕ} {r r' : Run SearchOracle Memory} {sl sl' : Slot} {σ : Store}
    (h : Retains su.key n r sl r' sl') (hr : Asking su k r) (hr' : Asking su k r')
    (hsl : sl = .stable ∨ sl = .descending) (hsl' : sl' = .stable ∨ sl' = .descending) (hσ : r.Holds su.key sl n σ) : r'.Holds su.key sl' n σ := by
  obtain ⟨s, hs, v, hv, hall⟩ := hσ
  obtain ⟨s', hs', hbelow⟩ := h s hs
  rcases hbelow v hv with hbottom | ⟨w, hw, hleq⟩
  · exact absurd hall (Value.not_allows_of_isBottom hbottom _)
  · exact ⟨s', hs', w, hw, Value.allows_of_leq (hr.kind hs hsl v hv) (hr'.kind hs' hsl' w hw) hleq hall⟩

/-- Stores of the union at a node do not leave the stable unions along listed paths. -/
def ClosedAt (su : Setup) (step : Block → Store → Block → Store → Prop) (r : Run SearchOracle Memory) (n : ℕ) : Prop :=
  ∀ σ p q σ', Takes su step n σ p q σ' → r.Holds su.key .stable n σ → r.Holds su.key .stable q σ'

/-- Marks and recorded paths are as before. What is stable at an unmarked cut point was so before, and does not leave
the stable unions along recorded paths. -/
structure Confines (su : Setup) (step : Block → Store → Block → Store → Prop) (r r' : Run SearchOracle Memory) :
    Prop where
  changed : r'.memory.changed = r.memory.changed
  recorded : r'.memory.recorded = r.memory.recorded
  shrinks : ∀ n ∈ (Arena.build su.graph).cuts.cutNodes, n ∉ r.memory.changed.nodes → ∀ σ,
    r'.Holds su.key .stable n σ → r.Holds su.key .stable n σ
  closed : ∀ n ∈ (Arena.build su.graph).cuts.cutNodes, n ∉ r.memory.changed.nodes → ∀ σ q σ',
    RecordedStep su step r.memory.recorded n σ q σ' → r'.Holds su.key .stable n σ → r'.Holds su.key .stable q σ'

theorem Takes.mem_cutNodes {step : Block → Store → Block → Store → Prop} {n q : ℕ} {σ σ' : Store} {p : Path}
    (h : Takes su step n σ p q σ') : n ∈ (Arena.build su.graph).cuts.cutNodes := by
  have hcut := (Bool.and_eq_true_iff.mp (Bool.and_eq_true_iff.mp h.starts).1).1
  exact CutPoints.mem_cutNodes.mpr hcut

theorem Takes.not_isErrorSite {step : Block → Store → Block → Store → Prop} {n q : ℕ} {σ σ' : Store} {p : Path}
    (h : Takes su step n σ p q σ') : (Arena.build su.graph).cuts.isErrorSite n = false := by
  have hsite := (Bool.and_eq_true_iff.mp (Bool.and_eq_true_iff.mp h.starts).1).2
  simpa using hsite

/-- The start of a round leaves stable unions and marks alone. -/
theorem beginRound_spec {r r' : Run SearchOracle Memory} {u : Unit} (h : Yields beginRound r u r') (hr : Asking su k r) :
    Asking su k r' ∧ (ledger su.key r').stable = (ledger su.key r).stable ∧ r'.memory.changed = r.memory.changed := by
  have hkeeps : Keeps su k (Undisturbed (ledger su.key r).stable r.memory.changed) beginRound fun _ => True :=
    .bind (.stats _) fun _ _ => .bind (.memory fun _ h => h) fun _ _ =>
      .bind (.engine (fun _ => rfl) fun _ => rfl) fun _ _ => .engine (fun _ => rfl) fun _ => rfl
  obtain ⟨hr', ⟨hstable, hchanged⟩, -⟩ := hkeeps r u r' h hr ⟨rfl, rfl⟩
  exact ⟨hr', hstable, hchanged⟩

section Rounds

variable {step : Block → Store → Block → Store → Prop} (hD : k.domain = su.options.domain)
  (hf : su.transfer.Follows k step) (hg : su.graph.Bounded)

include hD hf hg

/-- Discovery looks at every changed node and finds all paths out of it covered by what it gathers. -/
theorem drainChanged_covers {fuel : ℕ} {r r' : Run SearchOracle Memory} {u : Unit}
    (h : Yields (drainChanged su fuel) r u r') (hr : Asking su k r) :
    Asking su k r' ∧ (ledger su.key r').stable = (ledger su.key r).stable ∧
      ∀ n ∈ r.memory.changed.nodes, ∃ x, (n, x) ∈ explored su fuel r ∧ Asking su k x ∧ ∀ σ p q σ',
        Takes su step n σ p q σ' → r.Holds su.key .stable n σ → x.Holds su.key .descending q σ' := by
  induction fuel generalizing r with
  | zero => exact absurd h not_yields_throw
  | succ fuel ih =>
    simp only [drainChanged, yields_bind, yields_memory] at h
    obtain ⟨mem, r₁, ⟨rfl, rfl⟩, h⟩ := h
    cases hqueue : r₁.memory.changed.queue with
    | nil =>
      have hpop : r₁.memory.changed.pop? = none := by rw [Worklist.pop?, hqueue]
      have hnodes : r₁.memory.changed.nodes = [] := by rw [Worklist.nodes, hqueue, List.map_nil]
      rw [hpop] at h
      obtain ⟨-, rfl⟩ := yields_pure.mp h
      refine ⟨hr, rfl, fun n hn => ?_⟩
      rw [hnodes] at hn
      cases hn
    | cons head queue =>
      have hpop : r₁.memory.changed.pop? = some (head.1, ⟨queue⟩) := by rw [Worklist.pop?, hqueue]
      have hnodes : r₁.memory.changed.nodes = head.1 :: (Worklist.mk queue).nodes := by
        rw [Worklist.nodes, hqueue, List.map_cons, Worklist.nodes]
      rw [hpop] at h
      simp only [yields_bind, yields_modifyMemory] at h
      obtain ⟨u₁, r₂, rfl, u₂, x, hfind, h⟩ := h
      have htaken : Asking su k (take r₁ ⟨queue⟩) := hr.memory _
      obtain ⟨hx, ⟨hstable, hchanged⟩, -⟩ := keeps_findPaths hD hf head.1 (take r₁ ⟨queue⟩) u₂ x hfind htaken ⟨rfl, rfl⟩
      obtain ⟨hr', hstable', hcovers⟩ := ih h hx
      have hexplored : explored su (fuel + 1) r₁ = (head.1, x) :: explored su fuel x := by
        have hafter : after (findPaths su head.1) (take r₁ ⟨queue⟩) = x := after_eq hfind
        simp only [explored, hpop, hafter]
      have hholds : ∀ n σ, r₁.Holds su.key .stable n σ → x.Holds su.key .stable n σ := by
        intro n σ hσ
        rw [holds_stable] at hσ ⊢
        rwa [hstable]
      refine ⟨hr', hstable'.trans hstable, fun n hn => ?_⟩
      rw [hexplored]
      rw [hnodes] at hn
      rcases List.mem_cons.mp hn with rfl | hn
      · exact ⟨x, List.mem_cons_self, hx, fun σ p q σ' hp hσ =>
          findPaths_covers hD hf hg hfind htaken hp (hholds _ σ hσ)⟩
      · obtain ⟨y, hy, hasking, hcovered⟩ := hcovers n (by rw [show x.memory.changed = ⟨queue⟩ from hchanged]; exact hn)
        exact ⟨y, List.mem_cons_of_mem _ hy, hasking, fun σ p q σ' hp hσ => hcovered σ p q σ' hp (hholds n σ hσ)⟩

/-- After the passes of a round, only marked nodes have another stable union than before, and the stable unions lead
along the recorded paths into the descending ones. -/
theorem passes_spec {r r' : Run SearchOracle Memory} {u : Unit} (h : Yields (passes su) r u r') (hr : Asking su k r) :
    Asking su k r' ∧ (∀ n, n ∉ r'.memory.changed.nodes → (ledger su.key r').stable n = (ledger su.key r).stable n) ∧
      ∃ x, DescendedBy Unions su.key (fun _ _ => True) (RecordedStep su step r'.memory.recorded) x r' := by
  simp only [passes, yields_bind, yields_modifyMemory] at h
  obtain ⟨u₁, r₁, rfl, u₂, r₂, hreset, u₃, r₃, hascend, hdescend⟩ := h
  have hkeeps : Keeps su k (Raised (ledger su.key r).stable (r.memory.recorded.map PathSet.commit) fun _ => False) (do
      resetComputed
      ascend su (computeNode su) false) fun _ => True :=
    .bind (.engine (fun _ => rfl) fun _ => rfl) fun _ _ => keeps_drain (keeps_computeNode hD hf) _
  obtain ⟨hr₃, hraised, -⟩ := hkeeps _ u₃ r₃ (yields_bind.mpr ⟨u₂, r₂, hreset, hascend⟩) (hr.memory _)
    ⟨rfl, fun _ _ _ => rfl⟩
  obtain ⟨hr', hledger, hdescended⟩ := descend_recorded hD hf hg hdescend hr₃
  have hmarks : r'.memory.changed = r₃.memory.changed := congrArg Ledger.changed hledger
  have hrecorded : r'.memory.recorded = r₃.memory.recorded := congrArg Ledger.recorded hledger
  refine ⟨hr', fun n hn => ?_, r₃, hrecorded ▸ hdescended⟩
  rw [hmarks] at hn
  rw [hledger]
  exact hraised.2 n id hn

omit hD hf hg in
/-- If copying adds nothing to unmarked cut points, then what it makes stable there was so before, and the recorded
paths lead it into stable unions. -/
theorem settle_confines {r x r' : Run SearchOracle Memory} {b : Bool} (ht : su.options.technique = .disjunctive)
    (h : Yields (settle su) r b r') (hr : Asking su k r)
    (hx : DescendedBy Unions su.key (fun _ _ => True) (RecordedStep su step r.memory.recorded) x r)
    (hadds : ∀ n ∈ (Arena.build su.graph).cuts.cutNodes, n ∉ r.memory.changed.nodes →
      Retains su.key n r .descending r .stable) : Asking su k r' ∧ Confines su step r r' := by
  obtain ⟨hr', hmemory, hstable⟩ := settle_unions ht h hr
  have hshrinks : ∀ n ∈ (Arena.build su.graph).cuts.cutNodes, n ∉ r.memory.changed.nodes → ∀ σ,
      r'.Holds su.key .stable n σ → r.Holds su.key .stable n σ := fun n hcut hn σ hσ =>
    (hadds n hcut hn).holds hr hr (.inr rfl) (.inl rfl) ((hstable n σ).mp hσ)
  refine ⟨hr', by rw [hmemory], by rw [hmemory], hshrinks, fun n hcut hn σ q σ' hstep hσ => (hstable q σ').mpr ?_⟩
  have hlowered := (hx.lowered n).resolve_right fun hnone => hnone σ ((hstable n σ).mp hσ)
  exact hlowered σ q σ' trivial (hshrinks n hcut hn σ hσ) hstep

/-- The same holds of all copyings and the descending passes between them. -/
theorem descendAgain_confines {count : ℕ} {r x r' : Run SearchOracle Memory} {u : Unit}
    (ht : su.options.technique = .disjunctive) (h : Yields (descendAgain su count) r u r') (hr : Asking su k r)
    (hx : DescendedBy Unions su.key (fun _ _ => True) (RecordedStep su step r.memory.recorded) x r)
    (hadds : ∀ y ∈ copied su count r, ∀ n ∈ (Arena.build su.graph).cuts.cutNodes, n ∉ y.memory.changed.nodes →
      Retains su.key n y .descending y .stable) : Asking su k r' ∧ Confines su step r r' := by
  induction count generalizing r x with
  | zero =>
    simp only [descendAgain, yields_bind, yields_pure] at h
    obtain ⟨b, z, hsettle, -, rfl⟩ := h
    exact settle_confines ht hsettle hr hx (hadds r (by simp [copied]))
  | succ count ih =>
    simp only [descendAgain, yields_bind] at h
    obtain ⟨b, z, hsettle, h⟩ := h
    have hrun : (settle su).run.run r = (.ok b, z) := hsettle
    cases b with
    | false =>
      obtain ⟨-, rfl⟩ := yields_pure.mp h
      exact settle_confines ht hsettle hr hx (hadds r (by simp [copied, hrun]))
    | true =>
      simp only [if_true, yields_bind] at h
      obtain ⟨u₁, y, hdescend, h⟩ := h
      have hcopied : copied su (count + 1) r = r :: copied su count y := by
        simp only [copied, hrun, after_eq hdescend]
      rw [hcopied] at hadds
      obtain ⟨hz, hfirst⟩ := settle_confines ht hsettle hr hx (hadds r List.mem_cons_self)
      obtain ⟨hy, hledger, hdescended⟩ := descend_recorded hD hf hg hdescend hz
      have hmarks : y.memory.changed = r.memory.changed := (congrArg Ledger.changed hledger).trans hfirst.changed
      have hrecorded : y.memory.recorded = z.memory.recorded := congrArg Ledger.recorded hledger
      obtain ⟨hr', hrest⟩ := ih h hy (hrecorded ▸ hdescended) fun w hw => hadds w (List.mem_cons_of_mem _ hw)
      refine ⟨hr', hrest.changed.trans hmarks, hrest.recorded.trans (hrecorded.trans hfirst.recorded),
        fun n hcut hn σ hσ => ?_, fun n hcut hn σ q σ' hstep => ?_⟩
      · have hσ' := hrest.shrinks n hcut (hmarks ▸ hn) σ hσ
        rw [holds_stable, hledger, ← holds_stable] at hσ'
        exact hfirst.shrinks n hcut hn σ hσ'
      · rw [← hfirst.recorded, ← hrecorded] at hstep
        exact hrest.closed n hcut (hmarks ▸ hn) σ q σ' hstep

/-- Whatever path an execution takes out of a stable union at the start of a round, the end of the path is found
covered: by this round's discovery if the node is marked, and by the start of the round otherwise. -/
theorem exists_covering {r r₁ r₂ : Run SearchOracle Memory} {u₁ u₂ : Unit} (hbegin : Yields beginRound r u₁ r₁)
    (hdrain : Yields (drainChanged su su.resources.fuel) r₁ u₂ r₂) (hr : Asking su k r)
    (hclosed : ∀ n, n ∉ r.memory.changed.nodes → ClosedAt su step r n) {n q : ℕ} {σ σ' : Store} {p : Path}
    (hp : Takes su step n σ p q σ') (hσ : r.Holds su.key .stable n σ) : ∃ c ∈ covering su r n,
      Asking su k c.1 ∧ (c.2 = .stable ∨ c.2 = .descending) ∧ c.1.Holds su.key c.2 q σ' := by
  obtain ⟨hr₁, hstable, hchanged⟩ := beginRound_spec hbegin hr
  rw [covering, after_eq hbegin]
  by_cases hmarked : n ∈ r.memory.changed.nodes
  · obtain ⟨-, -, hcovered⟩ := drainChanged_covers hD hf hg hdrain hr₁
    obtain ⟨y, hy, hasking, hcovers⟩ := hcovered n (by rwa [hchanged])
    have hσ₁ : r₁.Holds su.key .stable n σ := by rwa [holds_stable, hstable, ← holds_stable]
    rw [if_pos hmarked]
    refine ⟨(y, .descending), ?_, hasking, .inr rfl, hcovers σ p q σ' hp hσ₁⟩
    exact List.mem_map_of_mem (List.mem_filter.mpr ⟨hy, decide_eq_true rfl⟩)
  · rw [if_neg hmarked]
    exact ⟨(r, .stable), List.mem_cons_self, hr, .inl rfl, hclosed n hmarked σ p q σ' hp hσ⟩

/-- What faithful rounds preserve: the stable unions of unmarked nodes are left along no listed path. -/
theorem round_closed {r r' : Run SearchOracle Memory} {u : Unit} (ht : su.options.technique = .disjunctive)
    (h : Yields (round su) r u r') (hr : Asking su k r) (hfaithful : Faithful su r)
    (hclosed : ∀ n, n ∉ r.memory.changed.nodes → ClosedAt su step r n) :
    Asking su k r' ∧ ∀ n, n ∉ r'.memory.changed.nodes → ClosedAt su step r' n := by
  have hround := after_eq h
  rw [round_eq] at h
  simp only [yields_bind] at h
  obtain ⟨u₁, r₁, hbegin, u₂, r₂, hdrain, u₃, r₃, hpasses, u₄, r₄, hagain, hdeadline⟩ := h
  obtain ⟨hr₁, hstable₁, -⟩ := beginRound_spec hbegin hr
  obtain ⟨hr₂, hstable₂, -⟩ := drainChanged_covers hD hf hg hdrain hr₁
  obtain ⟨hr₃, hstable₃, x, hx⟩ := passes_spec hD hf hg hpasses hr₂
  have hadds := hfaithful.adds
  rw [after_eq hbegin, after_eq hdrain, after_eq hpasses] at hadds
  obtain ⟨hr₄, hconfines⟩ := descendAgain_confines hD hf hg ht hagain hr₃ hx hadds
  have hquiet := yields_checkDeadline hdeadline
  have hledger : ledger su.key r' = ledger su.key r₄ := ledger_eq (hquiet.slots? _) hquiet.memory
  have hmarks : r'.memory.changed = r₃.memory.changed := (congrArg Ledger.changed hledger).trans hconfines.changed
  have hrecorded : r'.memory.recorded = r₃.memory.recorded :=
    (congrArg Ledger.recorded hledger).trans hconfines.recorded
  have hr' := hr₄.quiet hquiet
  refine ⟨hr', fun n hn σ p q σ' hp hσ => ?_⟩
  have hcut := hp.mem_cutNodes
  have hn₃ : n ∉ r₃.memory.changed.nodes := hmarks ▸ hn
  have hσ₄ : r₄.Holds su.key .stable n σ := by rwa [holds_stable, hledger, ← holds_stable] at hσ
  -- The descending passes cover recorded paths. What was seen of the others before is kept.
  cases hrec : isRecorded r'.memory.recorded n p with
  | true =>
    have hq := hconfines.closed n hcut hn₃ σ q σ' ⟨p, hp, hrecorded ▸ hrec⟩ hσ₄
    rwa [holds_stable, hledger, ← holds_stable]
  | false =>
    have hstable : (ledger su.key r₃).stable n = (ledger su.key r).stable n := by
      rw [hstable₃ n hn₃, hstable₂, hstable₁]
    have hσ₀ := hconfines.shrinks n hcut hn₃ σ hσ₄
    rw [holds_stable, hstable, ← holds_stable] at hσ₀
    obtain ⟨b, hb, hq⟩ := hp.leads.ends
    have hend : q ∈ p.destination?.bind (Arena.build su.graph).index? := by
      rw [hb, Option.bind_some]
      exact Arena.index?_eq hg hq
    obtain ⟨c, hc, hasking, hslot, hcovered⟩ := exists_covering hD hf hg hbegin hdrain hr hclosed hp hσ₀
    have hkeeps := hfaithful.keeps n hcut hp.not_isErrorSite (hround ▸ hn) p hp.leads.listed (hround ▸ hrec) q hend c hc
    rw [hround] at hkeeps
    exact hkeeps.holds hasking hr' hslot (.inl rfl) hcovered

theorem rounds_closed {fuel : ℕ} {r r' : Run SearchOracle Memory} {u : Unit} (ht : su.options.technique = .disjunctive)
    (h : Yields (rounds su fuel) r u r') (hr : Asking su k r) (hfaithful : ∀ x ∈ roundStarts su fuel r, Faithful su x)
    (hclosed : ∀ n, n ∉ r.memory.changed.nodes → ClosedAt su step r n) :
    Asking su k r' ∧ ∀ n, ClosedAt su step r' n := by
  induction fuel generalizing r with
  | zero => exact absurd h not_yields_throw
  | succ fuel ih =>
    simp only [rounds, yields_bind, yields_memory] at h
    obtain ⟨mem, r₁, ⟨rfl, rfl⟩, h⟩ := h
    cases hempty : r₁.memory.changed.isEmpty with
    | true =>
      simp only [hempty, if_true] at h
      obtain ⟨-, rfl⟩ := yields_pure.mp h
      refine ⟨hr, fun n => hclosed n ?_⟩
      rw [Worklist.nodes, List.isEmpty_iff.mp hempty]
      exact List.not_mem_nil
    | false =>
      simp only [hempty, Bool.false_eq_true, if_false, yields_bind] at h
      obtain ⟨u₁, r₂, hround, h⟩ := h
      have hstarts : roundStarts su (fuel + 1) r₁ = r₁ :: roundStarts su fuel r₂ := by
        simp only [roundStarts, hempty, Bool.false_eq_true, if_false, after_eq hround]
      rw [hstarts] at hfaithful
      obtain ⟨hr₂, hclosed₂⟩ := round_closed hD hf hg ht hround hr (hfaithful r₁ List.mem_cons_self) hclosed
      exact ih h hr₂ (fun x hx => hfaithful x (List.mem_cons_of_mem _ hx)) hclosed₂

end Rounds

theorem asking_of_started {r : Run SearchOracle Memory} (hD : k.domain = su.options.domain) (hstart : Started su r)
    (hknown : su.options.known = none) (horacle : r.engine.oracle = .new su.graph su.transfer) : Asking su k r := by
  refine ⟨⟨hstart.arena, hstart.blocks, fun n s hs => ?_⟩, by rw [horacle]; exact SearchOracle.lists_new _ _ _⟩
  obtain ⟨⟨env, hstable, hdescending, -⟩, hothers⟩ := hstart.slots n s hs
  have hgood : GoodUnion k n s.stable := by
    intro i v hv
    rw [hstable] at hv
    rw [List.mem_singleton.mp (List.mem_of_getElem? hv)]
    refine ⟨ofKind_startValue hD n env, ?_⟩
    rintro rfl - σ
    exact Value.allows_top _ _ _
  refine ⟨hgood, hdescending ▸ hgood, fun v hv => ?_⟩
  rw [Disjunction.toList, hothers, List.mem_singleton] at hv
  rw [hv]
  exact hstart.unknown hknown n s hs

/-- At the start of the first round, only the entry has stores, and it is marked. -/
theorem beginFunction_closed (step : Block → Store → Block → Store → Prop) {r r' : Run SearchOracle Memory} {u : Unit}
    (hD : k.domain = su.options.domain) (hstart : Started su r) (hknown : su.options.known = none)
    (horacle : r.engine.oracle = .new su.graph su.transfer) (h : Yields beginFunction r u r') :
    Asking su k r' ∧ ∀ n, n ∉ r'.memory.changed.nodes → ClosedAt su step r' n := by
  simp only [beginFunction, yields_bind, yields_modifyMemory] at h
  obtain ⟨count, r₁, hcount, u₁, r₂, rfl, h⟩ := h
  obtain ⟨-, rfl⟩ := yields_nodeCount hcount
  rw [yields_markChanged h]
  refine ⟨(asking_of_started hD hstart hknown horacle).memory _, fun n hn σ p q σ' _ hσ => ?_⟩
  have hzero : n ≠ 0 := fun h0 => hn (Worklist.mem_nodes_push.mpr (.inl h0))
  obtain ⟨s, hs, v, hv, hall⟩ := hσ
  obtain ⟨env, hstable, -⟩ := (hstart.slots n s hs).start
  rw [Slots.get, hstable, startValue, if_neg hzero] at hv
  rw [List.mem_singleton.mp hv] at hall
  exact absurd hall (Value.not_allows_of_isBottom rfl _)

variable {p : Program} {options : Options} {resources : Resources} {name : String} {ctx c : Context} {o : Outcome}

/-- The report covers the stores in the stable unions. -/
theorem covers_of_holds {r : Run SearchOracle Memory} (hrep : o.Reports su r) (hg : su.graph.Bounded)
    (ht : su.options.technique = .disjunctive) (hk : k.domain = .intervals → k.rowless = true) (hr : Asking su k r)
    {n : ℕ} {b : Block} {σ : Store} (hn : r.blocks[n]? = some b) (hσ : r.Holds su.key .stable n σ) : o.Covers b σ := by
  obtain ⟨s, hs, v, hv, hall⟩ := hσ
  have hreported : s.reported su.options.technique = s.stable.toList := if_pos ht
  refine hrep.covers hg hn hs (by rw [hreported]; exact hv) (Value.contains_iff.mpr (hall.admits ?_ hk))
  exact hr.kind hs (.inl rfl) v hv

/-- A completed run of disjunctive path focusing with the searching oracle, without known properties and with faithful
rounds only, covers every store with which an execution that stops at the first error site stands at a cut point. So
no such execution comes to a site reported as proved. -/
theorem disjunctive_sound_of_faithfulRun (hp : p.graph.WellFormed) (ht : options.technique = .disjunctive)
    (hknown : options.known = none) (hctx : ctx.OfGraph p.graph.control)
    (h : analyze (p.setup options resources) name ctx = (.ok o, c)) (hc : o.isCompleted = true)
    (hfaithful : FaithfulRun (p.setup options resources) ctx) :
    o.CoversSafely p ∧ ∀ site ∈ o.sites, site.isProved = true → ∀ σ, ¬ p.ReachesSafely site.block σ := by
  obtain ⟨r₁, r, hprepare, hstart, -, horacle, hcompute, -, hreports⟩ :=
    exists_run_of_completed (strategy options.maxDisjuncts : Strategy SearchOracle Memory) hctx
      (fun e => by simp only [runTechnique, Program.setup, ht]) h hc
  let k : ValueKind := ⟨options.domain, options.domain == .intervals, by simp⟩
  have hf := p.transfer_follows k
  replace hcompute : Yields (computeFunction (p.setup options resources)) r₁ () r := hcompute
  rw [computeFunction_eq, yields_bind] at hcompute
  obtain ⟨u, r₂, hbegin, hrounds⟩ := hcompute
  have hfirst : firstRound (p.setup options resources) ctx = r₂ :=
    (congrArg (after beginFunction) (after_eq hprepare)).trans (after_eq hbegin)
  rw [FaithfulRun, hfirst] at hfaithful
  obtain ⟨hr₂, hclosed₂⟩ := beginFunction_closed (k := k) p.Step rfl hstart hknown horacle hbegin
  obtain ⟨hr, hclosed⟩ := rounds_closed rfl hf hp.bounded ht hrounds hr₂ hfaithful hclosed₂
  have hrep := hreports hr.regular.arena hr.regular.blocks
  have hentry : ∀ σ, r.Holds options.key .stable 0 σ := by
    intro σ
    have hzero : r.blocks[0]? = some p.graph.entry := by
      rw [hr.regular.blocks]
      exact Arena.blocks_zero hp.bounded
    obtain ⟨s, hs, -⟩ := hrep.invariant_of_node hp.bounded hzero
    exact ⟨s, hs, s.stable.first, by simp [Slots.get, Disjunction.toList],
      (hr.regular.slots 0 s hs).stable.first.entry rfl rfl σ⟩
  have hcovers : o.CoversSafely p := by
    intro b σ hcut hσ
    obtain ⟨n, hn, -⟩ := Program.exists_segment hp hσ
    have hcut' : p.arena.cuts.isCut n = true := (Arena.isCutBlock_eq hp.bounded hn).symm.trans hcut
    have hreached := (Program.reachesSafely_iff hp hn hcut').mp hσ
    have hn' : r.blocks[n]? = some b := by
      rw [hr.regular.blocks]
      exact hn
    refine covers_of_holds hrep hp.bounded ht (fun hd => by simpa [k] using hd) hr hn' ?_
    refine holds_of_closed (fun m τ q τ' _ hτ hstep => ?_) hentry hreached
    obtain ⟨walked, hleads⟩ := hstep.exists_leads p.step_edge hp.bounded
    exact hclosed m τ walked q τ' ⟨hstep.starts p.step_edge hp.bounded, hleads⟩ hτ
  exact ⟨hcovers, fun site hsite hproved σ => hrep.not_reachesSafely_of_proved hp hcovers hsite hproved σ⟩

theorem disjunctive_sound_of_faithfulRun_counter : ∃ o c,
    analyze (Program.counter.setup { technique := .disjunctive } .ample) "f" (.build Program.counter.graph.control) =
        (.ok o, c) ∧
      o.isCompleted = true ∧ o.CoversSafely Program.counter ∧ ∀ σ, ¬ Program.counter.ReachesSafely 3 σ := by
  obtain ⟨o, c, h, hc, hproves⟩ := exists_of_completes (Program.counter.setup { technique := .disjunctive } .ample)
    (.build Program.counter.graph.control) (fun o _ => o.proves 3) (by decide +kernel)
  obtain ⟨hcovers, hproved⟩ :=
    disjunctive_sound_of_faithfulRun Program.counter_wellFormed rfl rfl (Context.ofGraph_build _) h hc (by decide +kernel)
  obtain ⟨site, hmem, hblock, hp⟩ := Outcome.exists_of_proves hproves
  exact ⟨o, c, h, hc, hcovers, fun σ => hblock ▸ hproved site hmem hp σ⟩

/-- Narrowing joins what blocks 1 and 7 bring to block 4, and the union there comes to hold stores that no path has
brought. Paths that bring them later add nothing, so block 4 is not left again and the way to the assertion is
missed. The loops at the cut points are never entered. -/
def gap : Program where
  name := "gap"
  declared := [("x", some .int), ("y", some .int)]
  graph :=
    { payloads := List.replicate 10 ⟨[], none⟩
      roles := [(5, .assertionFailure)]
      edges := [(0, 1, bit ++ [.eq (.var "y")]), (0, 6, bit ++ [.ge (.var "y"), .ge (.const 10 - .var "y")]),
        (1, 4, [.eq (.var "x")]), (1, 2, [one, .eq (.var "y")]), (2, 4, []), (1, 3, [one, positive]), (3, 4, []),
        (4, 5, [one, positive]), (6, 7, [.eq (.var "x")]), (7, 4, []), (6, 8, []), (8, 9, []), (9, 1, [])] ++
          [1, 4, 6, 7, 8, 9].map fun b => (b, b, [.ge (.var "x" - .const 5)]) }
where
  bit : List LinearConstraint := [.ge (.var "x"), .ge (.const 1 - .var "x")]
  one : LinearConstraint := .eq (.var "x" - .const 1)
  positive : LinearConstraint := .ge (.var "y" - .const 1)

def stray : Store := fun s => if s = "x" then 1 else 5

theorem gap_reachesSafely : gap.ReachesSafely 5 stray := by
  have hgoes : ∀ e ∈ [(0, 6), (6, 8), (8, 9), (9, 1), (1, 3), (3, 4), (4, 5)], (gap.graph.role e.1).isErrorSite = false ∧
      gap.statements e.1 = [] ∧ e.2 ∈ gap.graph.successors e.1 ∧ ∀ c ∈ gap.guards e.1 e.2, c.holds stray = true := by
    decide +kernel
  have hstep : ∀ a b, (a, b) ∈ [(0, 6), (6, 8), (8, 9), (9, 1), (1, 3), (3, 4), (4, 5)] →
      gap.ReachesSafely a stray → gap.ReachesSafely b stray := by
    intro a b he ha
    obtain ⟨hrole, hbody, hedge, hguards⟩ := hgoes _ he
    exact ha.step hrole ⟨hedge, hbody ▸ .nil _, hguards⟩
  have hback := hstep 9 1 (by simp) (hstep 8 9 (by simp) (hstep 6 8 (by simp) (hstep 0 6 (by simp) (.entry stray))))
  exact hstep 4 5 (by simp) (hstep 3 4 (by simp) (hstep 1 3 (by simp) hback))

theorem disjunctive_misses_store : ∃ o c,
    analyze (gap.setup { technique := .disjunctive } .ample) "f" (.build gap.graph.control) = (.ok o, c) ∧
      o.isCompleted = true ∧ (∃ site ∈ o.sites, site.block = 5 ∧ site.isProved = true) ∧ (∃ σ, gap.ReachesSafely 5 σ) ∧
      ¬ o.CoversSafely gap := by
  obtain ⟨o, c, h, hc, htest⟩ := exists_of_completes (gap.setup { technique := .disjunctive } .ample)
    (.build gap.graph.control) (fun o _ => o.proves 5 && (o.invariant? 5).all (·.isBottom)) (by decide +kernel)
  obtain ⟨hproves, hbottom⟩ := Bool.and_eq_true_iff.mp htest
  refine ⟨o, c, h, hc, Outcome.exists_of_proves hproves, ⟨stray, gap_reachesSafely⟩, fun hcovers => ?_⟩
  obtain ⟨i, hi, v, hv, -⟩ := hcovers 5 stray (by decide +kernel) gap_reachesSafely
  rw [hi] at hbottom
  rw [List.isEmpty_iff.mp hbottom] at hv
  cases hv

end Disjunctive

end PathInvariants

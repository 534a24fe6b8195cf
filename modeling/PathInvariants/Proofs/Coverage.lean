import PathInvariants.Proofs.AnalysisRuns
import PathInvariants.Proofs.ArenaBlocks
import PathInvariants.Proofs.Executions

/-!
# Coverage

When the values of a run are inductive along a transition relation between nodes. A node is covered
when its stable value leads into the stable values of its successors. The ascending pass keeps every
node covered or owed a visit, so that all are covered when the worklist is empty. Coverage is
relative to a set `K` of stores that are known to lie in the known properties.
-/
namespace PathInvariants

variable {Ω S : Type} {key : Key} {k : ValueKind} {A : Arena} {K : ℕ → Store → Prop} {T : ℕ → Store → ℕ → Store → Prop}
  {Z : ℕ → Slots Disjunction → Prop}

/-- What holds of the slots of each node throughout a run: their values are of the kind, known properties, which may
come from another domain, hold on `K` when they are read as values of the kind, and every step of the descending pass
keeps it. -/
structure SlotLaw (technique : Technique) (k : ValueKind) (K : ℕ → Store → Prop)
    (Z : ℕ → Slots Disjunction → Prop) : Prop where
  stable {n : ℕ} {s : Slots Disjunction} : Z n s → s.stable.first.OfKind k
  descending {n : ℕ} {s : Slots Disjunction} : Z n s → s.descending.first.OfKind k
  known {n : ℕ} {s : Slots Disjunction} : Z n s → s.known.first.isBottom = true ∨
    ((s.known.first.recast k.domain).OfKind k ∧ ∀ σ, K n σ → (s.known.first.recast k.domain).Allows σ.point)
  reset {s : Slots Disjunction} : Z 0 s → Z 0 { s with descending := s.stable }
  clear {n : ℕ} {s : Slots Disjunction} (env : Environment) :
    Z n s → n ≠ 0 → Z n { s with descending := .single (.bottom k.domain env) }
  lower {n : ℕ} {s : Slots Disjunction} {v w : Value} : Z n s → v.OfKind k →
    (s.descending.first.isBottom = true ∧ w = v ∨ s.descending.first.join v = .ok w) →
    Z n { s with descending := s.descending.set 0 w }
  settle {n : ℕ} {s s' : Slots Disjunction} {changed : Bool} : Z n s →
    Analysis.settled technique s = .ok (s', changed) → Z n s'

/-- The stores that the transitions lead to from the entry. -/
inductive Reached (T : ℕ → Store → ℕ → Store → Prop) : ℕ → Store → Prop
  | entry (σ : Store) : Reached T 0 σ
  | step {n p : ℕ} {σ σ' : Store} : Reached T n σ → T n σ p σ' → Reached T p σ'

namespace Run

/-- The store is in the stable value of the node. -/
def Stable (r : Run Ω S) (key : Key) (n : ℕ) (σ : Store) : Prop :=
  ∃ s, r.slots? key n = some s ∧ s.stable.first.Allows σ.point

/-- The store is in the descending value of the node. -/
def Descending (r : Run Ω S) (key : Key) (n : ℕ) (σ : Store) : Prop :=
  ∃ s, r.slots? key n = some s ∧ s.descending.first.Allows σ.point

/-- The node waits and is not marked as computed. -/
def Owed (r : Run Ω S) (n : ℕ) : Prop := r.Waits n ∧ r.computed? n ≠ some true

/-- Every store of `K` that `H` gives the node leads to stores that `H` gives its successors. -/
def Closed (H : ℕ → Store → Prop) (K : ℕ → Store → Prop) (T : ℕ → Store → ℕ → Store → Prop) (n : ℕ) : Prop :=
  ∀ σ p σ', K n σ → H n σ → T n σ p σ' → H p σ'

/-- Every store of `K` in the stable value of the node leads into the stable values of its successors. -/
def Covered (r : Run Ω S) (key : Key) (K : ℕ → Store → Prop) (T : ℕ → Store → ℕ → Store → Prop) (n : ℕ) : Prop :=
  Closed (r.Stable key) K T n

theorem holds_of_closed {H : ℕ → Store → Prop} {n : ℕ} {σ : Store} (hc : ∀ n, Closed H (Reached T) T n)
    (h0 : ∀ σ, H 0 σ) (h : Reached T n σ) : H n σ := by
  induction h with
  | entry σ => exact h0 σ
  | step hn ht ih => exact hc _ _ _ _ hn ih ht

/-- Where all nodes are covered, the stable values hold all stores that are reached. -/
theorem stable_of_covered {r : Run Ω S} {n : ℕ} {σ : Store} (hc : ∀ n, r.Covered key (Reached T) T n)
    (h0 : ∀ σ, r.Stable key 0 σ) (h : Reached T n σ) : r.Stable key n σ := holds_of_closed hc h0 h

/-- The run works on the arena, and the slots of every node satisfy `Z`. -/
structure Regular (key : Key) (A : Arena) (Z : ℕ → Slots Disjunction → Prop) (r : Run Ω S) : Prop where
  arena : r.arena = A
  blocks : r.blocks = A.blocks
  slots : ∀ n s, r.slots? key n = some s → Z n s

theorem Regular.quiet {r r' : Run Ω S} (hr : r.Regular key A Z) (h : r.Quiet r') : r'.Regular key A Z := by
  obtain ⟨t, n, st, w, rfl⟩ := h
  exact ⟨hr.arena, hr.blocks, hr.slots⟩

/-- The slots of one node have changed, and it is owed a visit. -/
structure Stores (key : Key) (n : ℕ) (s : Slots Disjunction) (r r' : Run Ω S) : Prop where
  arena : r'.arena = r.arena
  blocks : r'.blocks = r.blocks
  slots (m : ℕ) : r'.slots? key m = if m = n then some s else r.slots? key m
  waits (m : ℕ) : r'.Waits m ↔ m = n ∨ r.Waits m
  computed (m : ℕ) : r'.computed? m = if m = n then some false else r.computed? m
  oracle : r'.engine.oracle = r.engine.oracle
  memory : r'.memory = r.memory

theorem Stores.regular {n : ℕ} {s : Slots Disjunction} {r r' : Run Ω S} (h : Stores key n s r r')
    (hr : r.Regular key A Z) (hs : Z n s) : r'.Regular key A Z := by
  refine ⟨h.arena.trans hr.arena, h.blocks.trans hr.blocks, fun m t hm => ?_⟩
  rw [h.slots] at hm
  split at hm
  · rename_i hmn
    cases hm
    rw [hmn]
    exact hs
  · exact hr.slots m t hm

/-- The stores that `Q` finds in the slots of a node. -/
def Within (r : Run Ω S) (key : Key) (Q : Slots Disjunction → Store → Prop) (n : ℕ) (σ : Store) : Prop :=
  ∃ s, r.slots? key n = some s ∧ Q s σ

/-- The stores that `H` gives the nodes grow on `K`, and a node chosen by `P` that has gained one is owed a visit. -/
structure Gains (H : Run Ω S → ℕ → Store → Prop) (K : ℕ → Store → Prop) (P : ℕ → Prop) (r r' : Run Ω S) : Prop where
  grows : ∀ n σ, K n σ → H r n σ → H r' n σ
  keeps : ∀ n, P n → ((∀ σ, H r' n σ → H r n σ) ∧ (r.Owed n → r'.Owed n)) ∨ r'.Owed n

/-- Stable values grow on `K`, and a node chosen by `P` whose value has grown is owed a visit. -/
abbrev Advance (key : Key) (K : ℕ → Store → Prop) (P : ℕ → Prop) (r r' : Run Ω S) : Prop :=
  Gains (fun r => r.Stable key) K P r r'

variable {P : ℕ → Prop} {H : Run Ω S → ℕ → Store → Prop} {Q : Slots Disjunction → Store → Prop}

/-- The nodes and the worklist look the same. -/
structure Alike (key : Key) (r r' : Run Ω S) : Prop where
  arena : r'.arena = r.arena
  blocks : r'.blocks = r.blocks
  slots (n : ℕ) : r'.slots? key n = r.slots? key n
  worklist : r'.engine.worklist = r.engine.worklist
  computed : r'.engine.computed = r.engine.computed

theorem Quiet.alike {r r' : Run Ω S} (h : r.Quiet r') : Alike key r r' := by
  obtain ⟨t, n, st, w, rfl⟩ := h
  exact ⟨rfl, rfl, fun _ => rfl, rfl, rfl⟩

theorem alike_memory (r : Run Ω S) (m : S) : Alike key r { r with memory := m } := ⟨rfl, rfl, fun _ => rfl, rfl, rfl⟩

theorem alike_put {r : Run Ω S} {n : ℕ} {s : Slots Disjunction} (hs : r.slots? key n = some s) :
    Alike key r (r.put key n s) := by
  refine ⟨rfl, r.blocks_put key n s, fun m => ?_, rfl, rfl⟩
  rw [r.slots?_put key n s m (by rw [hs]; rfl)]
  split
  · rename_i hm
    rw [hm, hs]
  · rfl

theorem Alike.trans {r r₁ r₂ : Run Ω S} (h : Alike key r r₁) (h' : Alike key r₁ r₂) : Alike key r r₂ :=
  ⟨h'.arena.trans h.arena, h'.blocks.trans h.blocks, fun n => (h'.slots n).trans (h.slots n),
    h'.worklist.trans h.worklist, h'.computed.trans h.computed⟩

theorem Alike.regular {r r' : Run Ω S} (h : Alike key r r') (hr : r.Regular key A Z) : r'.Regular key A Z :=
  ⟨h.arena.trans hr.arena, h.blocks.trans hr.blocks, fun n s hs => hr.slots n s ((h.slots n).symm.trans hs)⟩

/-- A change of the slots of one node may be told from a state that looks the same. -/
theorem Alike.stores {n : ℕ} {s : Slots Disjunction} {r r₁ r' : Run Ω S} (h : Alike key r r₁) (hs : Stores key n s r₁ r')
    (horacle : r₁.engine.oracle = r.engine.oracle) (hmemory : r₁.memory = r.memory) : Stores key n s r r' := by
  refine ⟨hs.arena.trans h.arena, hs.blocks.trans h.blocks, fun m => ?_, fun m => ?_, fun m => ?_,
    hs.oracle.trans horacle, hs.memory.trans hmemory⟩
  · rw [hs.slots, h.slots]
  · rw [hs.waits, Waits, Waits, h.worklist]
  · rw [hs.computed, computed?, computed?, h.computed]

theorem Alike.stable {r r' : Run Ω S} (h : Alike key r r') {n : ℕ} {σ : Store} :
    r'.Stable key n σ ↔ r.Stable key n σ := by
  rw [Stable, Stable, h.slots]

theorem Alike.gains {r r' : Run Ω S} (h : Alike key r r') : Gains (fun r => r.Within key Q) K P r r' := by
  have hslots : ∀ n σ, r'.Within key Q n σ ↔ r.Within key Q n σ := fun n σ => by rw [Within, Within, h.slots]
  refine ⟨fun n σ _ => (hslots n σ).mpr, fun n _ => .inl ⟨fun σ => (hslots n σ).mp, fun ho => ?_⟩⟩
  rwa [Owed, Waits, computed?, h.worklist, h.computed]

theorem Alike.advance {r r' : Run Ω S} (h : Alike key r r') : Advance key K P r r' := h.gains

theorem Advance.quiet {r r' : Run Ω S} (h : r.Quiet r') : Advance key K P r r' := h.alike.advance

theorem Advance.mono {Q : ℕ → Prop} {r r' : Run Ω S} (h : Advance key K P r r') (hQ : ∀ n, Q n → P n) :
    Advance key K Q r r' := ⟨h.grows, fun n hn => h.keeps n (hQ n hn)⟩

theorem Gains.trans {r r₁ r₂ : Run Ω S} (h : Gains H K P r r₁) (h' : Gains H K P r₁ r₂) : Gains H K P r r₂ := by
  refine ⟨fun n σ hK hs => h'.grows n σ hK (h.grows n σ hK hs), fun n hn => ?_⟩
  rcases h'.keeps n hn with ⟨hback', howed'⟩ | howed'
  · rcases h.keeps n hn with ⟨hback, howed⟩ | howed
    · exact .inl ⟨fun σ hs => hback σ (hback' σ hs), fun ho => howed' (howed ho)⟩
    · exact .inr (howed' howed)
  · exact .inr howed'

/-- A closed node stays closed while its own stores stay the same, and is owed a visit otherwise. -/
theorem Gains.closed_or_owed {r r' : Run Ω S} {n : ℕ} (hK : ∀ n σ p σ', K n σ → T n σ p σ' → K p σ')
    (h : Gains H K P r r') (hn : P n) (hc : Closed (H r) K T n ∨ r.Owed n) :
    Closed (H r') K T n ∨ r'.Owed n := by
  rcases h.keeps n hn with ⟨hback, howed⟩ | howed
  · rcases hc with hc | ho
    · exact .inl fun σ p σ' hσ hs ht => h.grows p σ' (hK n σ p σ' hσ ht) (hc σ p σ' hσ (hback σ hs) ht)
    · exact .inr (howed ho)
  · exact .inr howed

theorem Stores.gains {n : ℕ} {s s' : Slots Disjunction} {r r' : Run Ω S} (h : Stores key n s' r r')
    (hs : r.slots? key n = some s) (hg : ∀ σ, K n σ → Q s σ → Q s' σ) :
    Gains (fun r => r.Within key Q) K P r r' := by
  refine ⟨fun m σ hσ hm => ?_, fun m _ => ?_⟩
  · obtain ⟨t, ht, hallows⟩ := hm
    by_cases hmn : m = n
    · subst hmn
      obtain rfl : s = t := Option.some.inj (hs.symm.trans ht)
      exact ⟨s', by rw [h.slots, if_pos rfl], hg σ hσ hallows⟩
    · exact ⟨t, by rw [h.slots, if_neg hmn, ht], hallows⟩
  · by_cases hmn : m = n
    · subst hmn
      refine .inr ⟨(h.waits m).mpr (.inl rfl), ?_⟩
      rw [h.computed, if_pos rfl]
      nofun
    · refine .inl ⟨fun σ hm => ?_, fun ho => ⟨(h.waits m).mpr (.inr ho.1), ?_⟩⟩
      · obtain ⟨t, ht, hallows⟩ := hm
        rw [h.slots, if_neg hmn] at ht
        exact ⟨t, ht, hallows⟩
      · rw [h.computed, if_neg hmn]
        exact ho.2

theorem Stores.advance {n : ℕ} {s s' : Slots Disjunction} {r r' : Run Ω S} (h : Stores key n s' r r')
    (hs : r.slots? key n = some s)
    (hg : ∀ σ, K n σ → s.stable.first.Allows σ.point → s'.stable.first.Allows σ.point) : Advance key K P r r' :=
  h.gains hs hg

end Run

namespace Analysis

open Run

variable {su : Setup} {step : Block → Store → Block → Store → Prop}

theorem Rewrites.regular {P : ℕ → Prop} {R : ℕ → Slots Disjunction → Slots Disjunction → Prop}
    {r r' : Run Ω S} (h : Rewrites key P R r r') (hr : r.Regular key A Z)
    (hZ : ∀ n s s', R n s s' → Z n s → Z n s') : r'.Regular key A Z := by
  refine ⟨h.arena.trans hr.arena, h.blocks.trans hr.blocks, fun n s' hs' => ?_⟩
  obtain ⟨s, hs, ⟨-, hR⟩ | ⟨-, rfl⟩⟩ := h.exists_slots hs'
  · exact hZ n s s' hR (hr.slots n s hs)
  · exact hr.slots n s' hs

theorem stores_put {n : ℕ} {s s' : Slots Disjunction} {r r₁ r₂ r₃ : Run Ω S} {u : Unit} (hs : r.slots? key n = some s)
    (hput : (r.put key n s').Quiet r₁) (hpush : Yields (push n) r₁ u r₂) (hset : Yields (setComputed n false) r₂ u r₃) :
    Stores key n s' r r₃ := by
  obtain ⟨_, _, _, _, rfl⟩ := hput
  obtain rfl := yields_push.mp hpush
  obtain ⟨hn, rfl⟩ := yields_setComputed hset
  refine ⟨rfl, r.blocks_put key n s', fun m => ?_, fun m => Worklist.mem_nodes_push, fun m => ?_, rfl, rfl⟩
  · exact r.slots?_put key n s' m (by rw [hs]; rfl)
  · simp only [computed?, List.getElem?_set]
    by_cases hmn : m = n
    · subst hmn
      rw [if_pos rfl, if_pos rfl, if_pos hn]
    · rw [if_neg hmn, if_neg fun h => hmn h.symm]
      rfl

/-- A value that has grown takes the place of the stable one, and of the initial one if that was empty. -/
theorem yields_store {n : ℕ} {v w : Value} {r r' : Run Ω S} {u : Unit} (h : Yields (store su n v w) r u r') :
    ∃ s i, r.slots? su.key n = some s ∧ (i = s.initial ∨ v.isBottom = true ∧ i = s.initial.set 0 w) ∧
      Stores su.key n { s with stable := s.stable.set 0 w, initial := i } r r' := by
  simp only [store] at h
  split at h
  · rename_i hb
    simp only [setValue, yields_bind] at h
    obtain ⟨u₁, r₁, hi, u₂, r₂, hst, u₃, r₃, hpush, hset⟩ := h
    obtain ⟨s, hs, rfl⟩ := yields_setDisjunct hi
    obtain ⟨s', hs', rfl⟩ := yields_setDisjunct hst
    rw [r.slots?_put _ _ _ _ (by rw [hs]; rfl), if_pos rfl] at hs'
    obtain rfl := Option.some.inj hs'
    exact ⟨s, _, hs, .inr ⟨hb, rfl⟩, stores_put hs (r.put_put ..) hpush hset⟩
  · simp only [setValue, yields_bind] at h
    obtain ⟨u₂, r₂, hst, u₃, r₃, hpush, hset⟩ := h
    obtain ⟨s, hs, rfl⟩ := yields_setDisjunct hst
    exact ⟨s, _, hs, .inl rfl, stores_put hs (.refl _) hpush hset⟩

/-- A meet with what is known loses no store of `K`. -/
theorem meetKnown_spec {n : ℕ} {v w : Value} {r r' : Run Ω S} (h : Yields (meetKnown su n v) r w r')
    (hZ : SlotLaw su.options.technique k K Z) (hr : r.Regular su.key A Z) (hv : v.OfKind k) :
    r' = r ∧ w.OfKind k ∧ ∀ σ, K n σ → v.Allows σ.point → w.Allows σ.point := by
  obtain ⟨s, hs, rfl, hw⟩ := yields_meetKnown h
  refine ⟨rfl, ?_⟩
  rcases hw with ⟨-, rfl⟩ | ⟨hb, hmeet⟩
  · exact ⟨hv, fun σ _ h => h⟩
  · obtain ⟨hkind, hknown⟩ := (hZ.known (hr.slots n s hs)).resolve_left (by simp [hb])
    rw [← Value.meet_recast _ _ k.domain] at hmeet
    exact ⟨hv.meet hkind hmeet, fun σ hσ hvσ =>
      (Value.allows_meet hv hkind hmeet (Environment.integralAt_point _ σ)).mpr ⟨hvσ, hknown σ hσ⟩⟩

/-- The next value of a node is a widening or a join, met with what is known. -/
theorem yields_nextValue {n : ℕ} {v w x : Value} {r r' : Run Ω S} (h : Yields (nextValue su n v w) r x r') :
    ∃ y r₁, r.Quiet r₁ ∧ ((∃ thresholds, v.widenTo thresholds w = .ok y) ∨ w.join v = .ok y) ∧
      Yields (meetKnown su n y) r₁ x r' := by
  simp only [nextValue, yields_bind] at h
  obtain ⟨b, r₁, hb, h⟩ := h
  obtain rfl := yields_isWidening hb
  cases b with
  | true =>
    obtain ⟨y, r₂, hy, hx⟩ := yields_bind.mp h
    obtain ⟨hwiden, hq⟩ := yields_widen hy
    exact ⟨y, r₂, hq, .inl hwiden, hx⟩
  | false =>
    obtain ⟨y, r₂, hy, hx⟩ := yields_bind.mp h
    obtain ⟨hjoin, rfl⟩ := yields_ofFault.mp hy
    exact ⟨y, _, .refl _, .inr hjoin, hx⟩

theorem nextValue_spec {n : ℕ} {v w x : Value} {r r' : Run Ω S} (h : Yields (nextValue su n v w) r x r')
    (hZ : SlotLaw su.options.technique k K Z) (hr : r.Regular su.key A Z) (hv : v.OfKind k) (hw : w.OfKind k) :
    r.Quiet r' ∧ x.OfKind k ∧ ∀ σ, K n σ → (v.Allows σ.point ∨ w.Allows σ.point) → x.Allows σ.point := by
  obtain ⟨y, r₁, hq, hy, hx⟩ := yields_nextValue h
  have hnext : y.OfKind k ∧ ∀ σ : Store, (v.Allows σ.point ∨ w.Allows σ.point) → y.Allows σ.point := by
    rcases hy with ⟨thresholds, hwiden⟩ | hjoin
    · exact ⟨hv.widenTo hw hwiden, fun σ h => Value.allows_widenTo hv hw hwiden h⟩
    · exact ⟨hw.join hv hjoin, fun σ h => Value.allows_join hw hv hjoin h.symm⟩
  obtain ⟨rfl, hkind, hall⟩ := meetKnown_spec hx hZ (hr.quiet hq) hnext.1
  exact ⟨hq, hkind, fun σ hσ h => hall σ hσ (hnext.2 σ h)⟩

end Analysis

/-- A step of the program between the blocks of two nodes with an edge. -/
def Arena.EdgeStep (A : Arena) (step : Block → Store → Block → Store → Prop) (n : ℕ) (σ : Store) (p : ℕ)
    (σ' : Store) : Prop :=
  p ∈ A.successors n ∧ ∃ a b, A.blocks[n]? = some a ∧ A.blocks[p]? = some b ∧ step a σ b σ'

/-- What an analysis of the program works on. -/
def Program.setup (p : Program) (options : Options) (resources : Resources) : Setup :=
  ⟨p.graph.control, p.transfer, options, resources⟩

namespace Program

variable {p : Program} {b : Block} {σ : Store}

/-- The blocks in reach have nodes, and steps of the program are steps of the arena. -/
theorem reached_of_reaches (hp : p.graph.WellFormed) (h : p.Reaches b σ) :
    ∃ n, (Arena.build p.graph.control).blocks[n]? = some b ∧
      Reached ((Arena.build p.graph.control).EdgeStep p.Step) n σ := by
  induction h with
  | entry σ => exact ⟨0, Arena.blocks_zero hp.bounded, .entry σ⟩
  | step _ _ hs ih =>
    obtain ⟨n, hn, hreached⟩ := ih
    obtain ⟨m, hm, hmn⟩ := Arena.exists_successor hp.bounded hn hs.edge
    exact ⟨m, hm, hreached.step ⟨hmn, _, _, hn, hm, hs⟩⟩

theorem reaches_of_reached (hp : p.graph.WellFormed) {n : ℕ} (hn : (Arena.build p.graph.control).blocks[n]? = some b)
    (h : Reached ((Arena.build p.graph.control).EdgeStep p.Step) n σ) : p.Reaches b σ := by
  induction h generalizing b with
  | entry σ =>
    rw [Arena.blocks_zero hp.bounded] at hn
    obtain rfl := Option.some.inj hn
    exact .entry σ
  | step _ ht ih =>
    obtain ⟨-, a, b', ha, hb', hs⟩ := ht
    obtain rfl := Option.some.inj (hn.symm.trans hb')
    exact .step (ih ha) rfl hs

end Program

namespace Analysis

open Run

variable {su : Setup} {step : Block → Store → Block → Store → Prop}

theorem transformEdge_spec {n p : ℕ} {v w : Value} {r r' : Run Ω S} (ht : su.transfer.Follows k step)
    (h : Yields (transformEdge su n p v) r w r') (hr : r.Regular su.key A Z) (hv : v.OfKind k) :
    r.Quiet r' ∧ w.OfKind k ∧ ∀ σ σ', v.Allows σ.point → A.EdgeStep step n σ p σ' → w.Allows σ'.point := by
  obtain ⟨a, b, env, ha, hb, rfl, hq⟩ := yields_transformEdge h
  refine ⟨hq, (ht.ofKind a b hv).withEnv env, fun σ σ' hσ hstep => ?_⟩
  obtain ⟨-, a', b', ha', hb', hs⟩ := hstep
  rw [hr.blocks] at ha hb
  obtain rfl : a = a' := Option.some.inj (ha.symm.trans ha')
  obtain rfl : b = b' := Option.some.inj (hb.symm.trans hb')
  exact Value.allows_withEnv (ht.allows hs hv hσ)

/-- Propagation along an edge takes the image to the target and stores its next value if that is not below. -/
theorem yields_ascendEdge {n p : ℕ} {v : Value} {grown : Bool} {r r' : Run Ω S}
    (h : Yields (ascendEdge su n v p) r grown r') : ∃ r₁ r₂ r₃ w s y, r.Quiet r₁ ∧
      Yields (transformEdge su n p v) r₁ w r₂ ∧ r₂.slots? su.key p = some s ∧
      Yields (nextValue su p s.stable.first w) r₂ y r₃ ∧
      (y.leq s.stable.first = true ∧ grown = false ∧ r' = r₃ ∨
        y.leq s.stable.first = false ∧ grown = true ∧ Yields (store su p s.stable.first y) r₃ () r') := by
  simp only [ascendEdge, yields_bind, yields_value] at h
  obtain ⟨u, r₁, hstats, w, r₂, hedge, x, r₂', ⟨⟨s, hs, rfl⟩, rfl⟩, y, r₃, hnext, h⟩ := h
  refine ⟨r₁, r₂', r₃, w, s, y, yields_modifyStats hstats, hedge, hs, hnext, ?_⟩
  cases hleq : y.leq s.stable.first with
  | true =>
    simp only [Slots.get, hleq, if_true, yields_pure] at h
    exact .inl ⟨rfl, h⟩
  | false =>
    simp only [Slots.get, hleq, Bool.false_eq_true, if_false, yields_bind, yields_pure] at h
    obtain ⟨u₂, r₄, hstore, rfl, rfl⟩ := h
    exact .inr ⟨rfl, rfl, hstore⟩

/-- Propagation along an edge either changes no slot or makes its target owed a visit; the target then holds
the images of the source. -/
theorem ascendEdge_spec {n p : ℕ} {v : Value} {grown : Bool} {r r' : Run Ω S} (ht : su.transfer.Follows k step)
    (hZ : SlotLaw su.options.technique k K Z) (h : Yields (ascendEdge su n v p) r grown r')
    (hr : r.Regular su.key A Z) (hv : v.OfKind k) :
    ((grown = false ∧ r.Quiet r') ∨
      (grown = true ∧ ∃ s w i, r.slots? su.key p = some s ∧ w.OfKind k ∧ w.leq s.stable.first = false ∧
        (∀ σ, K p σ → s.stable.first.Allows σ.point → w.Allows σ.point) ∧
        (i = s.initial ∨ s.stable.first.isBottom = true ∧ i = s.initial.set 0 w) ∧
        Stores su.key p { s with stable := s.stable.set 0 w, initial := i } r r')) ∧
      ∀ σ σ', K p σ' → v.Allows σ.point → A.EdgeStep step n σ p σ' → r'.Stable su.key p σ' := by
  obtain ⟨r₁, r₃, r₄, w, s, y, hq₁, hedge, hs, hnext, h⟩ := yields_ascendEdge h
  obtain ⟨hq₂, hw, himage⟩ := transformEdge_spec ht hedge (hr.quiet hq₁) hv
  have hq₃ := hq₁.trans hq₂
  have hstable := hZ.stable ((hr.quiet hq₃).slots p s hs)
  obtain ⟨hq₄, hy, hgrow⟩ := nextValue_spec hnext hZ (hr.quiet hq₃) hstable hw
  have hq := hq₃.trans hq₄
  have hs' : r.slots? su.key p = some s := by
    obtain ⟨t, c, st, w, rfl⟩ := hq₃
    exact hs
  rcases h with ⟨hleq, rfl, rfl⟩ | ⟨hleq, rfl, hstore⟩
  · refine ⟨.inl ⟨rfl, hq⟩, fun σ σ' hσ' hσ hstep => ⟨s, ?_, ?_⟩⟩
    · obtain ⟨t, c, st, w, rfl⟩ := hq
      exact hs'
    · exact Value.allows_of_leq hy hstable hleq (hgrow σ' hσ' (.inr (himage σ σ' hσ hstep)))
  · obtain ⟨s'', i, hs'', hi, hstores⟩ := yields_store hstore
    obtain ⟨t, c, st, w, rfl⟩ := hq
    obtain rfl : s = s'' := Option.some.inj (hs'.symm.trans hs'')
    have hstores' : Stores su.key p { s with stable := s.stable.set 0 y, initial := i } r r' :=
      ⟨hstores.arena, hstores.blocks, hstores.slots, hstores.waits, hstores.computed, hstores.oracle, hstores.memory⟩
    refine ⟨.inr ⟨rfl, s, y, i, hs', hy, hleq, fun σ hσ h => hgrow σ hσ (.inl h), hi, hstores'⟩,
      fun σ σ' hσ' hσ hstep => ⟨_, by rw [hstores'.slots, if_pos rfl], ?_⟩⟩
    exact hgrow σ' hσ' (.inr (himage σ σ' hσ hstep))

end Analysis

namespace Run

/-- The run after a node has been taken from the worklist. -/
def pop (r : Run Ω S) (queue : List (ℕ × ℕ)) : Run Ω S :=
  { r with engine := { r.engine with worklist := ⟨queue⟩ } }

theorem Owed.pop {r : Run Ω S} {n m label : ℕ} {queue : List (ℕ × ℕ)}
    (hq : r.engine.worklist.queue = (n, label) :: queue) (hm : m ≠ n) (h : r.Owed m) : (r.pop queue).Owed m := by
  refine ⟨?_, h.2⟩
  have hw := h.1
  rw [Waits, Worklist.nodes, hq, List.map_cons, List.mem_cons] at hw
  exact hw.resolve_left hm

end Run

namespace Analysis

open Run

/-- A pass whose visits close their node, or leave it owed another one, ends with every node closed. -/
theorem drain_closed {visit : ℕ → Analysis Ω S Unit} {I : Run Ω S → Prop} {Q : Slots Disjunction → Store → Prop}
    {fuel : ℕ} {r r' : Run Ω S} {u : Unit} (hK : ∀ n σ p σ', K n σ → T n σ p σ' → K p σ')
    (hpop : ∀ r queue, I r → I (r.pop queue))
    (hvisit : ∀ r n r', I r → Yields (visit n) r () r' →
      I r' ∧ Gains (fun r => r.Within key Q) K (· ≠ n) r r' ∧ (Closed (r'.Within key Q) K T n ∨ r'.Owed n))
    (h : Yields (drain visit fuel) r u r') (hI : I r) (hc : ∀ n, Closed (r.Within key Q) K T n ∨ r.Owed n) :
    I r' ∧ (∀ n σ, K n σ → r.Within key Q n σ → r'.Within key Q n σ) ∧ (∀ n, Closed (r'.Within key Q) K T n) ∧
      r'.engine.worklist = .empty := by
  let J : Run Ω S → Prop := fun x => I x ∧ (∀ n σ, K n σ → r.Within key Q n σ → x.Within key Q n σ) ∧
    ∀ n, Closed (x.Within key Q) K T n ∨ x.Owed n
  have hJ := yields_drain (I := J) h ⟨hI, fun _ _ _ h => h, hc⟩ ?_ ?_
  · obtain ⟨⟨hI', hg, hall⟩, hempty⟩ := hJ
    refine ⟨hI', hg, fun n => (hall n).resolve_right fun ho => ?_, hempty⟩
    have hw := ho.1
    rw [Waits, hempty] at hw
    cases hw
  · rintro x n label queue ⟨hx, hg, hall⟩ hq hcomp
    refine ⟨hpop x queue hx, hg, fun m => ?_⟩
    rcases hall m with hm | ho
    · exact .inl hm
    · refine .inr (ho.pop hq ?_)
      rintro rfl
      exact ho.2 hcomp
  · rintro x n label queue x' ⟨hx, hg, hall⟩ hq hv
    obtain ⟨hx', hadv, hn⟩ := hvisit (x.pop queue) n x' (hpop x queue hx) hv
    refine ⟨hx', fun m σ hσ hs => hadv.grows m σ hσ (hg m σ hσ hs), fun m => ?_⟩
    by_cases hmn : m = n
    · rw [hmn]
      exact hn
    · refine hadv.closed_or_owed hK hmn ?_
      rcases hall m with hm | ho
      · exact .inl hm
      · exact .inr (ho.pop hq hmn)

/-- A pass whose visits cover their node, or leave it owed another one, ends with every node covered. -/
theorem drain_covered {visit : ℕ → Analysis Ω S Unit} {I : Run Ω S → Prop} {fuel : ℕ} {r r' : Run Ω S} {u : Unit}
    (hK : ∀ n σ p σ', K n σ → T n σ p σ' → K p σ') (hpop : ∀ r queue, I r → I (r.pop queue))
    (hvisit : ∀ r n r', I r → Yields (visit n) r () r' →
      I r' ∧ Advance key K (· ≠ n) r r' ∧ (r'.Covered key K T n ∨ r'.Owed n))
    (h : Yields (drain visit fuel) r u r') (hI : I r) (hc : ∀ n, r.Covered key K T n ∨ r.Owed n) :
    I r' ∧ (∀ n σ, K n σ → r.Stable key n σ → r'.Stable key n σ) ∧ (∀ n, r'.Covered key K T n) ∧
      r'.engine.worklist = .empty :=
  drain_closed (Q := fun s σ => s.stable.first.Allows σ.point) hK hpop hvisit h hI hc

/-- An ascending pass from nodes that are closed or wait for a visit closes all of them. -/
theorem ascend_closed {su : Setup} {visit : ℕ → Analysis Ω S Unit} {I : Run Ω S → Prop}
    {Q : Slots Disjunction → Store → Prop} {fromEntry : Bool} {r r' : Run Ω S} {u : Unit}
    (hK : ∀ n σ p σ', K n σ → T n σ p σ' → K p σ')
    (hqueue : ∀ (r : Run Ω S) w, I r → I { r with engine := { r.engine with worklist := w } })
    (hvisit : ∀ r n r', I r → Yields (visit n) r () r' →
      I r' ∧ Gains (fun r => r.Within key Q) K (· ≠ n) r r' ∧ (Closed (r'.Within key Q) K T n ∨ r'.Owed n))
    (h : Yields (ascend su visit fromEntry) r u r') (hI : I r) (hcomputed : ∀ n, r.computed? n ≠ some true)
    (hc : ∀ n, Closed (r.Within key Q) K T n ∨ r.Waits n ∨ fromEntry = true ∧ n = 0) :
    I r' ∧ (∀ n σ, K n σ → r.Within key Q n σ → r'.Within key Q n σ) ∧ ∀ n, Closed (r'.Within key Q) K T n := by
  have hpop : ∀ (x : Run Ω S) queue, I x → I (x.pop queue) := fun x queue hx => hqueue x ⟨queue⟩ hx
  simp only [ascend] at h
  cases fromEntry with
  | true =>
    simp only [if_true, yields_bind, yields_push] at h
    obtain ⟨u₁, r₁, rfl, h⟩ := h
    obtain ⟨hr', hgrows, hall, -⟩ := drain_closed hK hpop hvisit h (hqueue r _ hI) fun n => by
      rcases hc n with hn | hw | ⟨-, rfl⟩
      · exact .inl hn
      · exact .inr ⟨Worklist.mem_nodes_push.mpr (.inr hw), hcomputed n⟩
      · exact .inr ⟨Worklist.mem_nodes_push.mpr (.inl rfl), hcomputed 0⟩
    exact ⟨hr', hgrows, hall⟩
  | false =>
    obtain ⟨hr', hgrows, hall, -⟩ := drain_closed hK hpop hvisit h hI fun n => by
      rcases hc n with hn | hw | ⟨hfalse, -⟩
      · exact .inl hn
      · exact .inr ⟨hw, hcomputed n⟩
      · cases hfalse
    exact ⟨hr', hgrows, hall⟩

theorem gains_setComputed {Q : Slots Disjunction → Store → Prop} {n : ℕ} {b : Bool} {r r' : Run Ω S} {u : Unit}
    (h : Yields (setComputed n b) r u r') : Gains (fun r => r.Within key Q) K (· ≠ n) r r' := by
  obtain ⟨-, rfl⟩ := yields_setComputed h
  refine ⟨fun _ _ _ hs => hs, fun m hm => .inl ⟨fun _ hs => hs, fun ho => ⟨ho.1, ?_⟩⟩⟩
  rw [computed?, List.getElem?_set_ne fun hnm => hm hnm.symm]
  exact ho.2

theorem advance_setComputed {n : ℕ} {b : Bool} {r r' : Run Ω S} {u : Unit} (h : Yields (setComputed n b) r u r') :
    Advance key K (· ≠ n) r r' := gains_setComputed h

/-- Propagation from a node to all its successors closes it, unless it has gained a store on the way. The stores `V`
to propagate are those of the node at the start. -/
theorem forM_closed {f : ℕ → Analysis Ω S Unit} {I : Run Ω S → Prop} {Q : Slots Disjunction → Store → Prop}
    {V : Store → Prop} {n : ℕ} {r r' : Run Ω S} {u : Unit} (hK : ∀ n σ p σ', K n σ → T n σ p σ' → K p σ')
    (hT : ∀ n σ p σ', T n σ p σ' → p ∈ A.successors n)
    (hf : ∀ p x x', I x → Yields (f p) x () x' → I x' ∧ Gains (fun r => r.Within key Q) K (fun _ => True) x x' ∧
      ∀ σ σ', K p σ' → V σ → T n σ p σ' → x'.Within key Q p σ')
    (h : Yields ((A.successors n).forM f) r u r') (hr : I r) (hV : ∀ σ, r.Within key Q n σ → V σ) :
    I r' ∧ Gains (fun r => r.Within key Q) K (fun _ => True) r r' ∧ (Closed (r'.Within key Q) K T n ∨ r'.Owed n) := by
  obtain ⟨⟨hr', hadv⟩, hall, -⟩ := yields_forM
    (I := fun x => I x ∧ Gains (fun r => r.Within key Q) K (fun _ => True) r x)
    (Q := fun p x => ∀ σ σ', K p σ' → V σ → T n σ p σ' → x.Within key Q p σ')
    h ⟨hr, (Quiet.refl r).alike.gains⟩ fun p _ x x' hx hp => by
      obtain ⟨hx', hadv, hcov⟩ := hf p x x' hx.1 hp
      exact ⟨⟨hx', hx.2.trans hadv⟩, hcov, fun q hq σ σ' hσ' hσ ht => hadv.grows q σ' hσ' (hq σ σ' hσ' hσ ht)⟩
  refine ⟨hr', hadv, ?_⟩
  rcases hadv.keeps n trivial with ⟨hback, -⟩ | howed
  · exact .inl fun σ p σ' hσ hs ht => hall p (hT n σ p σ' ht) σ σ' (hK n σ p σ' hσ ht) (hV σ (hback σ hs)) ht
  · exact .inr howed

/-- A visit that propagates the stable value of a node along its edges covers it, unless it has grown on the way. -/
theorem visit_covered {su : Setup} {f : Value → ℕ → Analysis Ω S Unit} {I : Run Ω S → Prop} {n : ℕ} {r r' : Run Ω S}
    {u : Unit} (hK : ∀ n σ p σ', K n σ → T n σ p σ' → K p σ') (hT : ∀ n σ p σ', T n σ p σ' → p ∈ A.successors n)
    (hI : ∀ r, I r → r.arena = A)
    (hcomputed : ∀ r c, I r → I { r with engine := { r.engine with computed := c } })
    (hf : ∀ s : Slots Disjunction, r.slots? su.key n = some s → ∀ p r r', I r → Yields (f s.stable.first p) r () r' →
      I r' ∧ Advance su.key K (fun _ => True) r r' ∧
        ∀ σ σ', K p σ' → s.stable.first.Allows σ.point → T n σ p σ' → r'.Stable su.key p σ')
    (h : Yields (do
      setComputed n true
      let start ← value su n .stable
      unless start.isBottom do ((← arena).successors n).forM (f start)) r u r') (hr : I r) :
    I r' ∧ Advance su.key K (· ≠ n) r r' ∧ (r'.Covered su.key K T n ∨ r'.Owed n) := by
  simp only [yields_bind, yields_value] at h
  obtain ⟨u₁, r₁, hset, v, r₂, ⟨⟨s, hs, rfl⟩, rfl⟩, h⟩ := h
  obtain ⟨-, heq⟩ := yields_setComputed hset
  have hr₁ : I r₂ := heq ▸ hcomputed r _ hr
  have hslots : r.slots? su.key n = some s := by
    rw [heq] at hs
    exact hs
  have hset' : Advance su.key K (· ≠ n) r r₂ := advance_setComputed hset
  cases hb : s.stable.first.isBottom with
  | true =>
    simp only [Slots.get, hb, if_true, yields_pure] at h
    obtain ⟨-, rfl⟩ := h
    refine ⟨hr₁, hset', .inl fun σ p σ' _ hstable _ => ?_⟩
    obtain ⟨t, ht, hσ⟩ := hstable
    obtain rfl : s = t := Option.some.inj (hs.symm.trans ht)
    exact absurd hσ (Value.not_allows_of_isBottom hb _)
  | false =>
    simp only [Slots.get, hb, Bool.false_eq_true, if_false, yields_bind, yields_arena] at h
    obtain ⟨a, r₃, ⟨rfl, rfl⟩, h⟩ := h
    rw [hI _ hr₁] at h
    obtain ⟨hr', hadv, hn⟩ := forM_closed (Q := fun s σ => s.stable.first.Allows σ.point)
      (V := fun σ => s.stable.first.Allows σ.point) hK hT (hf s hslots) h hr₁ fun σ hσ => by
        obtain ⟨t, ht, hσ⟩ := hσ
        obtain rfl : s = t := Option.some.inj (hs.symm.trans ht)
        exact hσ
    exact ⟨hr', hset'.trans ⟨hadv.grows, fun m _ => hadv.keeps m trivial⟩, hn⟩

end Analysis

end PathInvariants

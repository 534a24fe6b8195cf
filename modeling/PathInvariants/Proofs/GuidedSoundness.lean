import PathInvariants.Proofs.Narrowing
import PathInvariants.Proofs.Preparation

/-!
# Soundness of guided iteration

Guided iteration follows the edges it has found feasible. A node is blocked when no store of its value
takes an edge that has not been found. Every node is blocked or marked as changed, and every node is
covered along the feasible edges, so once nothing is marked the values are inductive along all edges.
-/
namespace PathInvariants

namespace Box

theorem isTop_iff {b : Box} : b.isTop = true ↔ ∀ m, b.Admits m := by
  cases b with
  | bottom => exact iff_of_false nofun fun h => not_admits_bottom 0 (h 0)
  | ranges f hf =>
    constructor
    · intro h m s
      have hget : f.get s = Interval.top := by
        by_contra hne
        have hmem := Sparse.mem_entries.mpr ⟨rfl, hne⟩
        rw [List.isEmpty_iff.mp h] at hmem
        cases hmem
      change (f.get s).Admits (m s)
      rw [hget]
      exact Interval.admits_top _
    · intro h
      refine List.isEmpty_iff.mpr (List.eq_nil_iff_forall_not_mem.mpr fun e he => ?_)
      obtain ⟨hget, hne⟩ := Sparse.mem_entries.mp he
      have hall : ∀ n : ℤ, n ∈ e.2 := by
        intro n
        have hadmits := h (fun _ => n) e.1
        rw [show (ranges f hf).get e.1 = e.2 from hget] at hadmits
        exact Interval.admits_intCast.mp hadmits
      exact hne (Interval.ext fun n => ⟨fun _ => Interval.mem_top, fun _ => hall n⟩)

theorem leq_of_isTop {a b : Box} (h : b.isTop = true) : a.leq b = true := by
  cases a with
  | bottom => rfl
  | ranges f hf =>
    cases b with
    | bottom => cases h
    | ranges g hg =>
      rw [leq, List.isEmpty_iff.mp h]
      rfl

end Box

/-- Nothing follows from no equations. -/
theorem Equalities.empty_join (q : Equalities) : empty.join q = empty := by
  unfold join
  split
  · rename_i h
    cases h
  · split
    · rfl
    · rename_i hp hq
      refine ofRows_eq_empty fun m => ?_
      have hjoin := solvedBy_join (q := q) (.inl (solvedBy_empty m))
      rw [join, if_neg hp, if_neg hq] at hjoin
      exact hjoin

namespace Value

variable {v w : Value}

theorem isTop_iff : v.isTop = true ↔ (∀ m, v.box.Admits m) ∧ v.eqs = .empty := by
  rw [isTop, Bool.and_eq_true, Box.isTop_iff, Equalities.isEmpty, List.isEmpty_iff]
  refine and_congr_right fun _ => ⟨fun h => ?_, fun h => by rw [h]; rfl⟩
  cases hq : v.eqs
  rw [hq] at h
  rw [Equalities.empty, ← h]

theorem leq_of_isTop (h : w.isTop = true) : v.leq w = true := by
  have hb : w.isBottom = false := by
    rw [Bool.eq_false_iff]
    exact fun hb => Box.ne_bottom ((isTop_iff.mp h).1 0) (Box.isBottom_iff.mp hb)
  rw [isTop, Bool.and_eq_true] at h
  rw [leq, hb, Box.leq_of_isTop h.1, h.2]
  simp

theorem isTop_withEnv (h : v.isTop = true) (env : Environment) : (v.withEnv env).isTop = true := by
  unfold withEnv
  generalize (v.env.symbols.filter fun s => !env.contains s) = dropped
  induction dropped generalizing v with
  | nil => exact h
  | cons s ss ih =>
    refine ih (isTop_iff.mpr ⟨fun m => Box.admits_forget (fun _ _ => rfl) ((isTop_iff.mp h).1 m), ?_⟩)
    change v.eqs.project s = .empty
    rw [(isTop_iff.mp h).2]
    rfl

theorem allEqualities_of_isTop (h : v.isTop = true) : v.allEqualities = .empty := by
  have hfixed : v.fixedSymbols = [] := by
    rw [isTop, Bool.and_eq_true] at h
    cases hb : v.box with
    | bottom => rw [fixedSymbols, hb]; rfl
    | ranges f hf =>
      rw [hb] at h
      rw [fixedSymbols, hb, Box.bindings, List.isEmpty_iff.mp h.1]
      rfl
  rw [allEqualities, hfixed]
  exact (isTop_iff.mp h).2

theorem isTop_joinAligned (h : v.isTop = true) (w : Value) : (v.joinAligned w).isTop = true := by
  obtain ⟨hbox, heqs⟩ := isTop_iff.mp h
  unfold joinAligned
  split
  · exact h
  · split
    · rename_i hb
      exact absurd (Box.isBottom_iff.mp hb) (Box.ne_bottom (hbox 0))
    · refine isTop_iff.mpr ⟨fun m => Box.admits_join (.inl (hbox m)), ?_⟩
      dsimp only
      split
      · rw [allEqualities_of_isTop h]
        exact Equalities.empty_join _
      · exact heqs

theorem isTop_join {u : Value} (h : v.isTop = true) (hu : v.join w = .ok u) : u.isTop = true := by
  obtain ⟨env, rfl⟩ := join_eq hu
  exact isTop_joinAligned (isTop_withEnv h env) _

end Value

namespace Guided

open Run Analysis

variable {Ω : Type} {su : Setup} {k : ValueKind} {A : Arena} {step : Block → Store → Block → Store → Prop}

/-- Slots hold values of the kind, nothing is known beforehand, and the entry stays at top. -/
structure SlotsLawful (k : ValueKind) (n : ℕ) (s : Slots Disjunction) : Prop where
  stable : s.stable.first.OfKind k
  descending : s.descending.first.OfKind k
  known : s.known.first.isBottom = true
  entry : n = 0 → s.stable.first.isTop = true ∧ s.descending.first.isTop = true

theorem slotLaw {technique : Technique} (ht : technique ≠ .disjunctive) :
    SlotLaw technique k (fun _ _ => True) (SlotsLawful k) where
  stable h := h.stable
  descending h := h.descending
  known h := .inl h.known
  reset h := ⟨h.stable, h.stable, h.known, fun h0 => ⟨(h.entry h0).1, (h.entry h0).1⟩⟩
  clear env h hn := ⟨h.stable, Value.ofKind_bottom env, h.known, fun h0 => absurd h0 hn⟩
  lower {n s v w} h hv hw := by
    refine ⟨h.stable, ?_, h.known, fun h0 => ⟨(h.entry h0).1, ?_⟩⟩
    · rcases hw with ⟨-, rfl⟩ | hjoin
      · exact hv
      · exact h.descending.join hv hjoin
    · rcases hw with ⟨hb, -⟩ | hjoin
      · exact absurd (Box.isBottom_iff.mp hb) (Box.ne_bottom ((Value.isTop_iff.mp (h.entry h0).2).1 0))
      · exact Value.isTop_join (h.entry h0).2 hjoin
  settle {n s s' changed} h hs := by
    obtain ⟨v, hv, hs'⟩ := settled_eq ht hs
    rcases hs' with ⟨-, rfl⟩ | ⟨hnot, rfl⟩
    · exact h
    · have hkind : v.OfKind k := by
        rcases hv with ⟨-, rfl⟩ | ⟨-, hmeet⟩
        · exact h.descending
        · exact h.descending.meet h.stable hmeet
      refine ⟨hkind, h.descending, h.known, fun h0 => ?_⟩
      -- At the entry both values are top, and settling leaves them as they are.
      rcases hv with ⟨-, rfl⟩ | ⟨hleq, -⟩
      · rw [Value.leq_of_isTop (h.entry h0).2] at hnot
        cases hnot
      · rw [Value.leq_of_isTop (h.entry h0).1] at hleq
        cases hleq

/-- A value that has grown does not belong to the entry. -/
theorem SlotsLawful.raise {n : ℕ} {s : Slots Disjunction} {w : Value} {i : Disjunction} (h : SlotsLawful k n s)
    (hw : w.OfKind k) (hleq : w.leq s.stable.first = false) :
    SlotsLawful k n { s with stable := s.stable.set 0 w, initial := i } := by
  refine ⟨hw, h.descending, h.known, fun h0 => ?_⟩
  rw [Value.leq_of_isTop (h.entry h0).1] at hleq
  cases hleq

/-- Steps along the edges found feasible. -/
def FeasibleStep (A : Arena) (step : Block → Store → Block → Store → Prop) (feasible : List (ℕ × ℕ)) (n : ℕ) (σ : Store)
    (p : ℕ) (σ' : Store) : Prop :=
  (n, p) ∈ feasible ∧ A.EdgeStep step n σ p σ'

/-- The stores of the node take no edge that has not been found feasible. -/
def Blocked (su : Setup) (A : Arena) (step : Block → Store → Block → Store → Prop) (r : Run Ω Memory) (n : ℕ) : Prop :=
  ∀ σ p σ', r.Stable su.key n σ → A.EdgeStep step n σ p σ' → (n, p) ∈ r.memory.feasible

/-- Every store in the value of the node stays in the values along the feasible edges. -/
def Followed (su : Setup) (A : Arena) (step : Block → Store → Block → Store → Prop) (r : Run Ω Memory) (n : ℕ) : Prop :=
  r.Covered su.key (fun _ _ => True) (FeasibleStep A step r.memory.feasible) n

/-- The node is marked as changed. -/
def Marked (r : Run Ω Memory) (n : ℕ) : Prop := n ∈ r.memory.changed.nodes

theorem yields_markChanged {n : ℕ} {r r' : Run Ω Memory} {u : Unit} : Yields (markChanged n) r u r' ↔
    r' = { r with memory := { r.memory with changed := r.memory.changed.push n (r.arena.label n) } } := by
  simp only [markChanged, yields_bind, yields_arena, yields_modifyMemory]
  constructor
  · rintro ⟨a, r₁, ⟨rfl, rfl⟩, rfl⟩
    rfl
  · rintro rfl
    exact ⟨_, _, ⟨rfl, rfl⟩, rfl⟩

theorem yields_isFeasible {n p : ℕ} {b : Bool} {r r' : Run Ω Memory} :
    Yields (isFeasible n p) r b r' ↔ (b = true ↔ (n, p) ∈ r.memory.feasible) ∧ r' = r := by
  simp only [isFeasible, yields_bind, yields_memory, yields_pure]
  constructor
  · rintro ⟨m, r₁, ⟨rfl, rfl⟩, rfl, rfl⟩
    exact ⟨List.contains_iff_mem, rfl⟩
  · rintro ⟨hb, rfl⟩
    refine ⟨_, _, ⟨rfl, rfl⟩, ?_, rfl⟩
    rw [Bool.eq_iff_iff, hb, List.contains_iff_mem]

/-- What a pass over the feasible edges preserves. -/
structure Passing (su : Setup) (k : ValueKind) (A : Arena) (step : Block → Store → Block → Store → Prop)
    (feasible : List (ℕ × ℕ)) (r : Run Ω Memory) : Prop where
  regular : r.Regular su.key A (SlotsLawful k)
  feasible : r.memory.feasible = feasible
  blocked : ∀ n, Blocked su A step r n ∨ Marked r n

variable {feasible : List (ℕ × ℕ)}

/-- The invariant speaks of the slots and the memory only. -/
theorem Passing.congr {r r' : Run Ω Memory} (h : Passing su k A step feasible r) (harena : r'.arena = r.arena)
    (hblocks : r'.blocks = r.blocks) (hslots : ∀ n, r'.slots? su.key n = r.slots? su.key n)
    (hmemory : r'.memory = r.memory) : Passing su k A step feasible r' := by
  refine ⟨⟨harena.trans h.regular.arena, hblocks.trans h.regular.blocks, fun n s hs => h.regular.slots n s ?_⟩,
    by rw [hmemory]; exact h.feasible, fun n => (h.blocked n).imp (fun hn σ p σ' hs => ?_) fun hn => ?_⟩
  · rw [← hslots n]
    exact hs
  · rw [hmemory]
    rw [Run.Stable, hslots n] at hs
    exact hn σ p σ' hs
  · rw [Marked, hmemory]
    exact hn

theorem Passing.quiet {r r' : Run Ω Memory} (h : Passing su k A step feasible r) (hq : r.Quiet r') :
    Passing su k A step feasible r' := by
  obtain ⟨t, c, st, w, rfl⟩ := hq
  exact h.congr rfl rfl (fun _ => rfl) rfl

/-- A node whose value has grown is marked. -/
theorem Passing.stores {p : ℕ} {s : Slots Disjunction} {r r' : Run Ω Memory} (h : Passing su k A step feasible r)
    (hstores : Stores su.key p s r r') (hs : SlotsLawful k p s) : Passing su k A step feasible
      { r' with memory := { r'.memory with changed := r'.memory.changed.push p (r'.arena.label p) } } := by
  obtain ⟨harena, hblocks, hslots⟩ := hstores.regular h.regular hs
  refine ⟨⟨harena, hblocks, hslots⟩, ?_, fun n => ?_⟩
  · change r'.memory.feasible = feasible
    rw [hstores.memory]
    exact h.feasible
  · by_cases hn : n = p
    · exact .inr (Worklist.mem_nodes_push.mpr (.inl hn))
    · refine (h.blocked n).imp (fun hb σ q σ' hσ => ?_) fun hm => Worklist.mem_nodes_push.mpr (.inr ?_)
      · obtain ⟨t, ht, hall⟩ := hσ
        change r'.slots? su.key n = some t at ht
        rw [hstores.slots, if_neg hn] at ht
        change _ → _ ∈ r'.memory.feasible
        rw [hstores.memory]
        exact hb σ q σ' ⟨t, ht, hall⟩
      · rw [hstores.memory]
        exact hm

theorem computeNode_spec {n : ℕ} {r r' : Run Ω Memory} {u : Unit} (ht : su.options.technique ≠ .disjunctive)
    (hf : su.transfer.Follows k step) (h : Yields (computeNode su n) r u r') (hr : Passing su k A step feasible r) :
    Passing su k A step feasible r' ∧ Advance su.key (fun _ _ => True) (· ≠ n) r r' ∧
      (r'.Covered su.key (fun _ _ => True) (FeasibleStep A step feasible) n ∨ r'.Owed n) := by
  refine visit_covered (I := fun x => Passing su k A step feasible x) (fun _ _ _ _ _ _ => trivial)
    (fun _ _ _ _ h => h.2.1) (fun _ h => h.regular.arena) (fun _ _ h => h.congr rfl rfl (fun _ => rfl) rfl) ?_ h hr
  intro s hs p x x' hx hp
  obtain ⟨b, x₁, hb, hp⟩ := yields_bind.mp hp
  obtain ⟨hb, rfl⟩ := yields_isFeasible.mp hb
  cases b with
  | false =>
    obtain ⟨-, rfl⟩ := yields_pure.mp hp
    refine ⟨hx, .quiet (.refl _), fun σ σ' _ _ hstep => ?_⟩
    have hmem := hstep.1
    rw [← hx.feasible] at hmem
    exact absurd (hb.mpr hmem) nofun
  | true =>
    obtain ⟨grown, x₂, hedge, hp⟩ := yields_bind.mp hp
    obtain ⟨hcase, himage⟩ := ascendEdge_spec hf (slotLaw ht) hedge hx.regular (hr.regular.slots n s hs).stable
    rcases hcase with ⟨rfl, hq⟩ | ⟨rfl, t, w, i, ht, hw, hleq, hg, -, hstores⟩
    · obtain ⟨-, rfl⟩ := yields_pure.mp hp
      exact ⟨hx.quiet hq, .quiet hq, fun σ σ' hσ' hσ hstep => himage σ σ' hσ' hσ hstep.2⟩
    · obtain rfl := yields_markChanged.mp hp
      have hadv : Advance su.key (fun _ _ => True) (fun _ => True) x₁ x₂ := hstores.advance ht hg
      exact ⟨hx.stores hstores ((hx.regular.slots p t ht).raise hw hleq), ⟨hadv.grows, hadv.keeps⟩,
        fun σ σ' hσ' hσ hstep => himage σ σ' hσ' hσ hstep.2⟩

theorem narrowNode_spec {n : ℕ} {r r' : Run Ω Memory} {u : Unit} (ht : su.options.technique ≠ .disjunctive)
    (hf : su.transfer.Follows k step) (h : Yields (narrowNode su n) r u r')
    (hr : r.Regular su.key A (SlotsLawful k)) :
    r'.Regular su.key A (SlotsLawful k) ∧ r'.memory = r.memory ∧ r'.engine.oracle = r.engine.oracle ∧
      Lowers su.key (· ≠ n) r r' ∧
      r'.Lowered su.key (fun _ _ => True) (FeasibleStep A step r.memory.feasible) n := by
  refine visit_lowered (fun _ _ _ _ h => h.2.1) ?_ h hr
  intro s hs p x x' hx hmemory hp
  obtain ⟨b, x₁, hb, hp⟩ := yields_bind.mp hp
  obtain ⟨hb, rfl⟩ := yields_isFeasible.mp hb
  cases b with
  | false =>
    obtain ⟨-, rfl⟩ := yields_pure.mp hp
    refine ⟨hx, rfl, rfl, .quiet (.refl _), fun σ σ' _ hstep => ?_⟩
    have hmem := hstep.1
    rw [← hmemory] at hmem
    exact absurd (hb.mpr hmem) nofun
  | true =>
    obtain ⟨hx', hm, ho, hlow, hdesc⟩ := descendEdge_spec hf (slotLaw ht) hp hx (hr.slots n s hs).stable
    exact ⟨hx', hm, ho, hlow, fun σ σ' hσ hstep => hdesc σ σ' hσ hstep.2⟩

/-- The node is marked as changed and not yet looked at. -/
def Pending (r : Run Ω Memory) (n : ℕ) : Prop := Marked r n ∧ r.computed? n ≠ some true

/-- A step of the search for feasible edges. Values grow and edges are added; a node with a new value is pending, and
one with a new value or a new edge waits. -/
structure Explores (su : Setup) (r r' : Run Ω Memory) : Prop where
  feasible : ∀ e ∈ r.memory.feasible, e ∈ r'.memory.feasible
  added : ∀ m p, (m, p) ∈ r'.memory.feasible → (m, p) ∈ r.memory.feasible ∨ r'.Waits m
  grows : ∀ m σ, r.Stable su.key m σ → r'.Stable su.key m σ
  keeps : ∀ m, (∀ σ, r'.Stable su.key m σ → r.Stable su.key m σ) ∨ Pending r' m ∧ r'.Waits m
  pending : ∀ m, Pending r m → Pending r' m
  waits : ∀ m, r.Waits m → r'.Waits m

theorem Explores.quiet {r r' : Run Ω Memory} (h : r.Quiet r') : Explores su r r' := by
  obtain ⟨t, c, st, w, rfl⟩ := h
  exact ⟨fun _ h => h, fun _ _ h => .inl h, fun _ _ h => h, fun _ => .inl fun _ h => h, fun _ h => h, fun _ h => h⟩

theorem Explores.trans {r r₁ r₂ : Run Ω Memory} (h : Explores su r r₁) (h' : Explores su r₁ r₂) : Explores su r r₂ := by
  refine ⟨fun e he => h'.feasible e (h.feasible e he), fun m p hp => ?_, fun m σ hs => h'.grows m σ (h.grows m σ hs),
    fun m => ?_, fun m hm => h'.pending m (h.pending m hm), fun m hw => h'.waits m (h.waits m hw)⟩
  · rcases h'.added m p hp with hp | hw
    · exact (h.added m p hp).imp_right (h'.waits m)
    · exact .inr hw
  · rcases h'.keeps m with hback' | hm
    · rcases h.keeps m with hback | ⟨hm, hw⟩
      · exact .inl fun σ hs => hback σ (hback' σ hs)
      · exact .inr ⟨h'.pending m hm, h'.waits m hw⟩
    · exact .inr hm

/-- A new feasible edge schedules its source. -/
theorem explores_addEdge (r : Run Ω Memory) (n p label : ℕ) : Explores su r
    { engine := { r.engine with worklist := r.engine.worklist.push n label },
      memory := { r.memory with feasible := (n, p) :: r.memory.feasible } } := by
  refine ⟨fun e he => List.mem_cons_of_mem _ he, fun m q hq => ?_, fun _ _ h => h, fun _ => .inl fun _ h => h,
    fun _ h => h, fun m hw => Worklist.mem_nodes_push.mpr (.inr hw)⟩
  rcases List.mem_cons.mp hq with heq | hq
  · exact .inr (Worklist.mem_nodes_push.mpr (.inl (Prod.mk.inj heq).1))
  · exact .inl hq

/-- A value that has grown makes its node pending. -/
theorem explores_stores {p : ℕ} {s s' : Slots Disjunction} {r r' : Run Ω Memory} (h : Stores su.key p s' r r')
    (hs : r.slots? su.key p = some s)
    (hg : ∀ σ : Store, s.stable.first.Allows σ.point → s'.stable.first.Allows σ.point) : Explores su r
      { r' with memory := { r'.memory with changed := r'.memory.changed.push p (r'.arena.label p) } } := by
  have hadv : Advance su.key (fun _ _ => True) (fun _ => True) r r' := h.advance hs fun σ _ => hg σ
  have hpending : ∀ m, m = p ∨ Pending r m → Pending
      { r' with memory := { r'.memory with changed := r'.memory.changed.push p (r'.arena.label p) } } m := by
    intro m hm
    refine ⟨Worklist.mem_nodes_push.mpr (hm.imp_right fun hm => ?_), fun hc => ?_⟩
    · rw [h.memory]
      exact hm.1
    · change r'.computed? m = some true at hc
      rw [h.computed] at hc
      split at hc
      · cases hc
      · exact (hm.resolve_left ‹_›).2 hc
  refine ⟨fun e he => ?_, fun m q hq => .inl ?_, fun m σ => hadv.grows m σ trivial, fun m => ?_,
    fun m hm => hpending m (.inr hm), fun m hw => (h.waits m).mpr (.inr hw)⟩
  · change e ∈ r'.memory.feasible
    rw [h.memory]
    exact he
  · change (m, q) ∈ r'.memory.feasible at hq
    rw [h.memory] at hq
    exact hq
  · by_cases hm : m = p
    · exact .inr ⟨hpending m (.inl hm), (h.waits m).mpr (.inl hm)⟩
    · refine .inl fun σ hσ => ?_
      obtain ⟨t, ht, hall⟩ := hσ
      change r'.slots? su.key m = some t at ht
      rw [h.slots, if_neg hm] at ht
      exact ⟨t, ht, hall⟩

theorem tryEdge_spec {n p : ℕ} {v : Value} {r r' : Run Ω Memory} {u : Unit} (hf : su.transfer.Follows k step)
    (h : Yields (tryEdge su n v p) r u r') (hr : r.Regular su.key A (SlotsLawful k)) (hv : v.OfKind k) :
    r'.Regular su.key A (SlotsLawful k) ∧ Explores su r r' ∧
      ∀ σ σ', v.Allows σ.point → A.EdgeStep step n σ p σ' → (n, p) ∈ r'.memory.feasible := by
  simp only [tryEdge, yields_bind] at h
  obtain ⟨b, r₁, hb, h⟩ := h
  obtain ⟨hb, rfl⟩ := yields_isFeasible.mp hb
  cases b with
  | true =>
    obtain ⟨-, rfl⟩ := yields_pure.mp h
    exact ⟨hr, .quiet (.refl _), fun _ _ _ _ => hb.mp rfl⟩
  | false =>
    simp only [Bool.false_eq_true, if_false, yields_bind] at h
    obtain ⟨u₁, r₂, hstats, w, r₃, hedge, h⟩ := h
    have hq := yields_modifyStats hstats
    obtain ⟨hq', hw, himage⟩ := transformEdge_spec hf hedge (hr.quiet hq) hv
    have hr₃ := hr.quiet (hq.trans hq')
    have hquiet : Explores su r₁ r₃ := .quiet (hq.trans hq')
    cases hbottom : w.isBottom with
    | true =>
      simp only [hbottom, if_true, yields_pure] at h
      obtain ⟨-, rfl⟩ := h
      exact ⟨hr₃, hquiet, fun σ σ' hσ hstep =>
        absurd (himage σ σ' hσ hstep) (Value.not_allows_of_isBottom hbottom _)⟩
    | false =>
      simp only [hbottom, Bool.false_eq_true, if_false, yields_bind, yields_modifyMemory, yields_push, yields_value,
        yields_ofFault] at h
      obtain ⟨u₂, r₄, rfl, u₃, r₅, rfl, x, r₆, ⟨⟨s, hs, rfl⟩, rfl⟩, y, r₇, ⟨hjoin, rfl⟩, h⟩ := h
      have hadd := hquiet.trans (explores_addEdge r₃ n p (r₃.arena.label n))
      have hz := hr₃.slots p s hs
      split at h
      · obtain ⟨-, rfl⟩ := yields_pure.mp h
        exact ⟨⟨hr₃.arena, hr₃.blocks, hr₃.slots⟩, hadd, fun _ _ _ _ => List.mem_cons_self ..⟩
      · rename_i hleq
        obtain ⟨u₄, r₈, hstore, hmark⟩ := yields_bind.mp h
        obtain ⟨t, i, ht, -, hstores⟩ := yields_store hstore
        obtain rfl : s = t := Option.some.inj (hs.symm.trans ht)
        obtain rfl := yields_markChanged.mp hmark
        have hregular := hstores.regular ⟨hr₃.arena, hr₃.blocks, hr₃.slots⟩
          (hz.raise (hw.join hz.stable hjoin) (Bool.eq_false_iff.mpr hleq))
        have hgrown := explores_stores hstores hs fun σ hσ => Value.allows_join hw hz.stable hjoin (.inr hσ)
        refine ⟨⟨hregular.arena, hregular.blocks, hregular.slots⟩, hadd.trans hgrown, fun _ _ _ _ => ?_⟩
        exact hgrown.feasible _ (List.mem_cons_self ..)

theorem Explores.followed {m : ℕ} {r r' : Run Ω Memory} (h : Explores su r r')
    (hm : Followed su A step r m ∨ r.Waits m) : Followed su A step r' m ∨ r'.Waits m := by
  by_cases hw : r'.Waits m
  · exact .inr hw
  · refine .inl fun σ p σ' _ hs hstep => ?_
    have hcov := hm.resolve_right fun hw' => hw (h.waits m hw')
    have hback := (h.keeps m).resolve_right fun hpend => hw hpend.2
    have hmem := (h.added m p hstep.1).resolve_right hw
    exact h.grows p σ' (hcov σ p σ' trivial (hback σ hs) ⟨hmem, hstep.2⟩)

theorem Explores.blocked {m : ℕ} {r r' : Run Ω Memory} (h : Explores su r r')
    (hm : Blocked su A step r m ∨ Pending r m) : Blocked su A step r' m ∨ Pending r' m := by
  rcases hm with hm | hm
  · rcases h.keeps m with hback | hpend
    · exact .inl fun σ p σ' hs hstep => h.feasible _ (hm σ p σ' (hback σ hs) hstep)
    · exact .inr hpend.1
  · exact .inr (h.pending m hm)

/-- The state of the search for feasible edges. -/
structure Exploring (su : Setup) (k : ValueKind) (A : Arena) (step : Block → Store → Block → Store → Prop)
    (r : Run Ω Memory) : Prop where
  regular : r.Regular su.key A (SlotsLawful k)
  entry : ∀ σ, r.Stable su.key 0 σ
  followed : ∀ n, Followed su A step r n ∨ r.Waits n
  blocked : ∀ n, Blocked su A step r n ∨ Pending r n

/-- After the edges out of a node have been tried, it is blocked or pending again. -/
theorem findEdges_spec {n : ℕ} {r r' : Run Ω Memory} {u : Unit} (hf : su.transfer.Follows k step)
    (h : Yields (findEdges su n) r u r') (hr : r.Regular su.key A (SlotsLawful k))
    (hentry : ∀ σ, r.Stable su.key 0 σ) (hfollowed : ∀ m, Followed su A step r m ∨ r.Waits m)
    (hblocked : ∀ m, Blocked su A step r m ∨ r.computed? m ≠ some true ∧ (m = n ∨ Marked r m)) :
    Exploring su k A step r' := by
  simp only [findEdges, yields_bind, yields_isComputed] at h
  obtain ⟨b, r₁, ⟨hb, rfl⟩, h⟩ := h
  cases b with
  | true =>
    obtain ⟨-, rfl⟩ := yields_pure.mp h
    refine ⟨hr, hentry, hfollowed, fun m => (hblocked m).imp_right fun hm => ⟨hm.2.resolve_left ?_, hm.1⟩⟩
    rintro rfl
    exact hm.1 hb
  | false =>
    simp only [Bool.false_eq_true, if_false, yields_bind, yields_value] at h
    obtain ⟨u₁, r₂, hset, v, r₃, ⟨⟨s, hs, rfl⟩, rfl⟩, h⟩ := h
    obtain ⟨-, heq⟩ := yields_setComputed hset
    have hslots : ∀ m, r₃.slots? su.key m = r₁.slots? su.key m := fun m => by rw [heq]; rfl
    have hmemory : r₃.memory = r₁.memory := by rw [heq]
    have hwaits : ∀ m, r₃.Waits m ↔ r₁.Waits m := fun m => by rw [heq]; rfl
    have hstable : ∀ m σ, r₃.Stable su.key m σ ↔ r₁.Stable su.key m σ := fun m σ => by
      rw [Run.Stable, Run.Stable, hslots m]
    have hr₃ : r₃.Regular su.key A (SlotsLawful k) := by
      rw [heq]
      exact ⟨hr.arena, hr.blocks, hr.slots⟩
    have hfollowed₃ : ∀ m, Followed su A step r₃ m ∨ r₃.Waits m := by
      intro m
      refine (hfollowed m).imp (fun hm σ p σ' hK hσ hstep => ?_) (hwaits m).mpr
      rw [hmemory] at hstep
      exact (hstable p σ').mpr (hm σ p σ' hK ((hstable m σ).mp hσ) hstep)
    have hblocked₃ : ∀ m, m ≠ n → Blocked su A step r₃ m ∨ Pending r₃ m := by
      intro m hm
      refine (hblocked m).imp (fun hb σ p σ' hσ hstep => ?_) fun hp => ⟨?_, ?_⟩
      · rw [hmemory]
        exact hb σ p σ' ((hstable m σ).mp hσ) hstep
      · rw [Marked, hmemory]
        exact hp.2.resolve_left hm
      · rw [heq, computed?, List.getElem?_set_ne fun hnm => hm hnm.symm]
        exact hp.1
    have hz := hr₃.slots n s hs
    have hfinish : ∀ x, Explores su r₃ x → x.Regular su.key A (SlotsLawful k) →
        (∀ σ p σ', s.stable.first.Allows σ.point → A.EdgeStep step n σ p σ' → (n, p) ∈ x.memory.feasible) →
        Exploring su k A step x := by
      intro x hx hreg hfound
      refine ⟨hreg, fun σ => hx.grows 0 σ ((hstable 0 σ).mpr (hentry σ)), fun m => hx.followed (hfollowed₃ m),
        fun m => ?_⟩
      by_cases hm : m = n
      · subst hm
        refine (hx.keeps m).imp (fun hback σ p σ' hσ hstep => ?_) fun hp => hp.1
        obtain ⟨t, ht, hall⟩ := hback σ hσ
        obtain rfl : s = t := Option.some.inj (hs.symm.trans ht)
        exact hfound σ p σ' hall hstep
      · exact hx.blocked (hblocked₃ m hm)
    cases hbottom : s.stable.first.isBottom with
    | true =>
      simp only [Slots.get, hbottom, if_true, yields_pure] at h
      obtain ⟨-, rfl⟩ := h
      exact hfinish r' (.quiet (.refl _)) hr₃ fun σ _ _ hσ =>
        absurd hσ (Value.not_allows_of_isBottom hbottom _)
    | false =>
      simp only [Slots.get, hbottom, Bool.false_eq_true, if_false, yields_bind, yields_arena] at h
      obtain ⟨a, r₄, ⟨rfl, rfl⟩, h⟩ := h
      obtain ⟨⟨hreg, hx⟩, hall, -⟩ := yields_forM
        (I := fun x => x.Regular su.key A (SlotsLawful k) ∧ Explores su r₄ x)
        (Q := fun p x => ∀ σ σ', s.stable.first.Allows σ.point → A.EdgeStep step n σ p σ' → (n, p) ∈ x.memory.feasible)
        h ⟨hr₃, .quiet (.refl _)⟩ fun p _ x x' hx hp => by
          obtain ⟨hreg', hexp, hfound⟩ := tryEdge_spec hf hp hx.1 hz.stable
          exact ⟨⟨hreg', hx.2.trans hexp⟩, hfound, fun q hq σ σ' hσ hstep => hexp.feasible _ (hq σ σ' hσ hstep)⟩
      refine hfinish r' hx hreg fun σ p σ' hσ hstep => hall p ?_ σ σ' hσ hstep
      rw [hr₃.arena]
      exact hstep.1

theorem drainChanged_spec {fuel : ℕ} {r r' : Run Ω Memory} {u : Unit} (hf : su.transfer.Follows k step)
    (h : Yields (drainChanged su fuel) r u r') (hr : Exploring su k A step r) : Exploring su k A step r' := by
  induction fuel generalizing r with
  | zero => exact absurd h not_yields_throw
  | succ fuel ih =>
    simp only [drainChanged, yields_bind, yields_memory] at h
    obtain ⟨m, r₁, ⟨rfl, rfl⟩, h⟩ := h
    cases hqueue : r₁.memory.changed.queue with
    | nil =>
      simp only [Worklist.pop?, hqueue, yields_pure] at h
      obtain ⟨-, rfl⟩ := h
      exact hr
    | cons a queue =>
      simp only [Worklist.pop?, hqueue, yields_bind, yields_modifyMemory] at h
      obtain ⟨u₁, r₂, rfl, u₂, r₃, hfind, h⟩ := h
      refine ih h (findEdges_spec hf hfind ⟨hr.regular.arena, hr.regular.blocks, hr.regular.slots⟩ hr.entry hr.followed
        fun m => (hr.blocked m).imp_right fun hm => ⟨hm.2, ?_⟩)
      have hmarked := hm.1
      rw [Marked, Worklist.nodes, hqueue, List.map_cons, List.mem_cons] at hmarked
      exact hmarked

/-- What holds between two rounds. -/
structure Settled (su : Setup) (k : ValueKind) (A : Arena) (step : Block → Store → Block → Store → Prop)
    (r : Run Ω Memory) : Prop where
  regular : r.Regular su.key A (SlotsLawful k)
  entry : ∀ σ, r.Stable su.key 0 σ
  followed : ∀ n, Followed su A step r n
  blocked : ∀ n, Blocked su A step r n ∨ Marked r n

theorem computed?_reset {r : Run Ω Memory} {n : ℕ} :
    Run.computed? { r with engine := { r.engine with computed := r.engine.computed.map fun _ => false } } n ≠ some true := by
  intro hn
  simp only [computed?, List.getElem?_map] at hn
  cases hc : r.engine.computed[n]? <;> simp [hc] at hn

/-- The ascending pass over the feasible edges. -/
theorem ascend_spec {r r' : Run Ω Memory} {u : Unit} (ht : su.options.technique ≠ .disjunctive)
    (hf : su.transfer.Follows k step) (h : Yields (ascend su (computeNode su) false) r u r')
    (hr : Exploring su k A step r) (hcomputed : ∀ n, r.computed? n ≠ some true) : Settled su k A step r' := by
  obtain ⟨hpass, hgrows, hall, -⟩ := drain_covered (K := fun _ _ => True)
    (T := FeasibleStep A step r.memory.feasible) (I := fun x => Passing su k A step r.memory.feasible x)
    (fun _ _ _ _ _ _ => trivial) (fun _ _ hx => hx.congr rfl rfl (fun _ => rfl) rfl)
    (fun x n x' hx hv => computeNode_spec ht hf hv hx) h
    ⟨hr.regular, rfl, fun n => (hr.blocked n).imp_right fun hn => hn.1⟩
    fun n => (hr.followed n).imp_right fun hw => ⟨hw, hcomputed n⟩
  refine ⟨hpass.regular, fun σ => hgrows 0 σ trivial (hr.entry σ), fun n => ?_, hpass.blocked⟩
  rw [Followed, hpass.feasible]
  exact hall n

/-- Narrowing only takes stores away, which blocks no less. -/
theorem descendRounds_settled {rounds : ℕ} {r r' : Run Ω Memory} {u : Unit} (hD : k.domain = su.options.domain)
    (ht : su.options.technique ≠ .disjunctive) (hf : su.transfer.Follows k step)
    (h : Yields (descendRounds su (narrowNode su) rounds) r u r') (hr : Settled su k A step r) :
    Settled su k A step r' := by
  obtain ⟨hr', hmemory, hn⟩ := descendRounds_spec (J := fun m _ => m = r.memory) hD ht (slotLaw ht)
    (fun x n x' hx hm hv => by
      obtain ⟨hx', hm', -, hlow, hn⟩ := narrowNode_spec ht hf hv hx
      rw [hm] at hn hm'
      exact ⟨hx', hm', hlow, hn⟩) h hr.regular rfl hr.followed
  refine ⟨hr', fun σ => hn.entry σ (hr.entry σ), fun n => ?_, fun n => ?_⟩
  · rw [Followed, hmemory]
    exact hn.covered n
  · rw [Blocked, Marked, hmemory]
    exact (hr.blocked n).imp_left fun hb σ p σ' hs hstep => hb σ p σ' (hn.shrinks n σ hs) hstep

theorem round_spec {r r' : Run Ω Memory} {u : Unit} (hD : k.domain = su.options.domain)
    (ht : su.options.technique ≠ .disjunctive) (hf : su.transfer.Follows k step)
    (h : Yields (round su) r u r') (hr : Settled su k A step r) : Settled su k A step r' := by
  simp only [round, resetComputed, yields_bind, yields_modifyEngine] at h
  obtain ⟨u₁, r₁, hstats, u₂, r₂, rfl, u₃, r₃, hdrain, u₄, r₄, rfl, u₅, r₅, hascend, u₆, r₆, hdescend, hdeadline⟩ := h
  obtain ⟨t, c, st, w, rfl⟩ := yields_modifyStats hstats
  have hr₃ := drainChanged_spec hf hdrain (k := k) (A := A) ⟨⟨hr.regular.arena, hr.regular.blocks, hr.regular.slots⟩,
    hr.entry, fun n => .inl (hr.followed n), fun n => (hr.blocked n).imp_right fun hn => ⟨hn, computed?_reset⟩⟩
  have hr₅ := ascend_spec ht hf hascend ⟨⟨hr₃.regular.arena, hr₃.regular.blocks, hr₃.regular.slots⟩, hr₃.entry,
    hr₃.followed, fun n => (hr₃.blocked n).imp_right fun hn => ⟨hn.1, computed?_reset⟩⟩ fun n => computed?_reset
  have hr₆ := descendRounds_settled hD ht hf hdescend hr₅
  obtain ⟨t', c', st', w', rfl⟩ := yields_checkDeadline hdeadline
  exact ⟨⟨hr₆.regular.arena, hr₆.regular.blocks, hr₆.regular.slots⟩, hr₆.entry, hr₆.followed, hr₆.blocked⟩

/-- The analysis ends with a round after which nothing is marked. -/
theorem rounds_spec {fuel : ℕ} {r r' : Run Ω Memory} {u : Unit} (hD : k.domain = su.options.domain)
    (ht : su.options.technique ≠ .disjunctive) (hf : su.transfer.Follows k step)
    (h : Yields (rounds su fuel) r u r') (hr : Settled su k A step r) :
    Settled su k A step r' ∧ ∀ n, Blocked su A step r' n := by
  induction fuel generalizing r with
  | zero => exact absurd h not_yields_throw
  | succ fuel ih =>
    simp only [rounds, yields_bind, yields_memory] at h
    obtain ⟨m, r₁, ⟨rfl, rfl⟩, h⟩ := h
    split at h
    · rename_i hempty
      obtain ⟨-, rfl⟩ := yields_pure.mp h
      refine ⟨hr, fun n => (hr.blocked n).resolve_right fun hn => ?_⟩
      rw [Marked, Worklist.nodes, List.isEmpty_iff.mp hempty] at hn
      cases hn
    · obtain ⟨u₁, r₂, hround, h⟩ := yields_bind.mp h
      exact ih h (round_spec hD ht hf hround hr)

theorem computeFunction_spec {r r' : Run Ω Memory} {u : Unit} (hD : k.domain = su.options.domain)
    (ht : su.options.technique ≠ .disjunctive) (hf : su.transfer.Follows k step)
    (h : Yields (computeFunction su) r u r') (hr : r.Regular su.key A (SlotsLawful k))
    (hentry : ∀ σ, r.Stable su.key 0 σ) (hothers : ∀ n σ, n ≠ 0 → ¬ r.Stable su.key n σ) :
    Settled su k A step r' ∧ ∀ n, Blocked su A step r' n := by
  simp only [computeFunction, yields_bind, yields_modifyMemory, yields_markChanged] at h
  obtain ⟨u₁, r₁, rfl, u₂, r₂, rfl, h⟩ := h
  refine rounds_spec hD ht hf h ⟨⟨hr.arena, hr.blocks, hr.slots⟩, hentry, fun n σ p σ' _ _ hstep => ?_, fun n => ?_⟩
  · exact absurd hstep.1 List.not_mem_nil
  · by_cases hn : n = 0
    · exact .inr (Worklist.mem_nodes_push.mpr (.inl hn))
    · exact .inl fun σ p σ' hs => absurd hs (hothers n σ hn)

/-- When nothing is left to find, the stable values are inductive along every edge. -/
theorem stable_of_step {n p : ℕ} {σ σ' : Store} {r : Run Ω Memory} (hr : Settled su k A step r)
    (hb : ∀ n, Blocked su A step r n) (hs : r.Stable su.key n σ) (hstep : A.EdgeStep step n σ p σ') :
    r.Stable su.key p σ' :=
  hr.followed n σ p σ' trivial hs ⟨hb n σ p σ' hs hstep, hstep⟩

variable [PathOracle Ω] {p : Program} {options : Options} {resources : Resources} {name : String} {oracle : Ω}
  {ctx c : Context} {o : Outcome}

/-- Without known properties, a completed guided run reports values that are inductive along all edges, also those
never found feasible, and top at the entry. So they cover every store in reach. -/
theorem guided_inductive (hp : p.graph.WellFormed) (ht : options.technique = .guided) (hknown : options.known = none)
    (hctx : ctx.OfGraph p.graph.control) (h : analyzeWith (p.setup options resources) name oracle ctx = (.ok o, c))
    (hc : o.isCompleted = true) :
    (∀ a σ b σ', o.Covers a σ → p.Step a σ b σ' → o.Covers b σ') ∧
      (∃ i v, o.invariant? p.graph.entry = some i ∧ i.disjuncts = [v] ∧ v.isTop = true) ∧
      (∀ b σ, p.Reaches b σ → o.Covers b σ) ∧
      ∀ site ∈ o.sites, site.isProved = true → ∀ σ, ¬ p.Reaches site.block σ := by
  obtain ⟨r₁, r, -, hstart, -, -, hcompute, -, hreports⟩ := exists_run_of_completed strategy hctx
    (fun e => by simp only [runTechnique, Program.setup, ht]) h hc
  let k : ValueKind := ⟨options.domain, options.domain == .intervals, by simp⟩
  have ht' : (p.setup options resources).options.technique ≠ .disjunctive := by simp [Program.setup, ht]
  have hregular : r₁.Regular (p.setup options resources).key (.build p.graph.control) (SlotsLawful k) := by
    refine ⟨hstart.arena, hstart.blocks, fun n s hs => ?_⟩
    obtain ⟨⟨env, hstable, hdescending, -⟩, -⟩ := hstart.slots n s hs
    have hkind : s.stable.first.OfKind k := by
      rw [hstable]
      exact ofKind_startValue rfl n env
    have htop : n = 0 → s.stable.first.isTop = true := by
      rintro rfl
      rw [hstable]
      rfl
    exact ⟨hkind, by rw [hdescending]; exact hkind, hstart.unknown hknown n s hs,
      fun h0 => ⟨htop h0, by rw [hdescending]; exact htop h0⟩⟩
  obtain ⟨hr, hb⟩ := computeFunction_spec rfl ht' (p.transfer_follows k) hcompute hregular
    (hstart.stable_zero hp.bounded) fun n σ hn => hstart.not_stable hn σ
  have hrep := hreports hr.regular.arena hr.regular.blocks
  have hcovers : ∀ {b σ}, o.Covers b σ ↔ ∃ n, r.blocks[n]? = some b ∧ r.Stable (p.setup options resources).key n σ :=
    hrep.covers_iff_stable hp.bounded ht' (fun hd => by simpa [k] using hd) fun n s hs => (hr.regular.slots n s hs).stable
  have hinductive : ∀ a σ b σ', o.Covers a σ → p.Step a σ b σ' → o.Covers b σ' := by
    intro a σ b σ' hσ hstep
    obtain ⟨n, hn, hs⟩ := hcovers.mp hσ
    rw [hr.regular.blocks] at hn
    obtain ⟨m, hm, hmn⟩ := Arena.exists_successor hp.bounded hn hstep.edge
    exact hcovers.mpr ⟨m, by rw [hr.regular.blocks, hm], stable_of_step hr hb hs ⟨hmn, a, b, hn, hm, hstep⟩⟩
  have hzero : r.blocks[0]? = some p.graph.entry := by rw [hr.regular.blocks, Arena.blocks_zero hp.bounded]; rfl
  have hreach : ∀ b σ, p.Reaches b σ → o.Covers b σ := by
    intro b σ hσ
    induction hσ with
    | entry σ => exact hcovers.mpr ⟨0, hzero, hr.entry σ⟩
    | step _ _ hstep ih => exact hinductive _ _ _ _ ih hstep
  refine ⟨hinductive, ?_, hreach, fun site hsite hproved σ hσ =>
    hrep.not_covers_of_proved hp.bounded hsite hproved σ (hreach _ σ hσ)⟩
  obtain ⟨s, hs, hall⟩ := hr.entry 0
  obtain ⟨i, hi, hdisjuncts⟩ := hrep.disjuncts_eq hp.bounded ht' hzero hs (Bool.eq_false_iff.mpr fun hb =>
    Value.not_allows_of_isBottom hb _ hall)
  exact ⟨i, _, hi, hdisjuncts, ((hr.regular.slots 0 s hs).entry rfl).1⟩

theorem guided_inductive_counter : ∃ o c,
    analyze (Program.counter.setup { technique := .guided } .ample) "f" (.build Program.counter.graph.control) = (.ok o, c) ∧
      o.isCompleted = true ∧ (∀ a σ b σ', o.Covers a σ → Program.counter.Step a σ b σ' → o.Covers b σ') ∧
      ∀ σ, ¬ Program.counter.Reaches 3 σ := by
  obtain ⟨o, c, h, hc, hproves⟩ := exists_of_completes (Program.counter.setup { technique := .guided } .ample)
    (.build Program.counter.graph.control) (fun o _ => o.proves 3) (by decide +kernel)
  obtain ⟨hinductive, -, -, hproved⟩ :=
    guided_inductive Program.counter_wellFormed rfl rfl (Context.ofGraph_build _) h hc
  obtain ⟨site, hmem, hblock, hp⟩ := Outcome.exists_of_proves hproves
  exact ⟨o, c, h, hc, hinductive, fun σ => hblock ▸ hproved site hmem hp σ⟩

end Guided

end PathInvariants

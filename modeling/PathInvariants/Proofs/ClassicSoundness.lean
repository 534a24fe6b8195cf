import PathInvariants.Proofs.Narrowing
import PathInvariants.Proofs.Outcomes
import PathInvariants.Proofs.Preparation

/-!
# Soundness of classic iteration

Classic iteration covers every edge of the program. With known properties the result is inductive only
on the stores they hold for, which are all the reachable ones.
-/
namespace PathInvariants

namespace Classic

open Run Analysis

variable {Ω : Type} {su : Setup} {k : ValueKind} {A : Arena} {K : ℕ → Store → Prop}
  {step : Block → Store → Block → Store → Prop}

/-- All slots hold values of the kind, known properties hold on `K`, and at the entry nothing is excluded. -/
structure SlotsLawful (k : ValueKind) (K : ℕ → Store → Prop) (n : ℕ) (s : Slots Disjunction) : Prop where
  stable : s.stable.first.OfKind k
  descending : s.descending.first.OfKind k
  initial : s.initial.first.OfKind k
  known : s.known.first.isBottom = true ∨
    ((s.known.first.recast k.domain).OfKind k ∧ ∀ σ, K n σ → (s.known.first.recast k.domain).Allows σ.point)
  entry : n = 0 → ∀ σ : Store, s.stable.first.Allows σ.point ∧ s.descending.first.Allows σ.point ∧
    s.initial.first.Allows σ.point

theorem slotLaw {technique : Technique} (ht : technique ≠ .disjunctive) :
    SlotLaw technique k K (SlotsLawful k K) where
  stable h := h.stable
  descending h := h.descending
  known h := h.known
  reset h := ⟨h.stable, h.stable, h.initial, h.known, fun h0 σ =>
    ⟨(h.entry h0 σ).1, (h.entry h0 σ).1, (h.entry h0 σ).2.2⟩⟩
  clear env h hn := ⟨h.stable, Value.ofKind_bottom env, h.initial, h.known, fun h0 => absurd h0 hn⟩
  lower h hv hw := by
    refine ⟨h.stable, ?_, h.initial, h.known, fun h0 σ => ⟨(h.entry h0 σ).1, ?_, (h.entry h0 σ).2.2⟩⟩
    · rcases hw with ⟨-, rfl⟩ | hjoin
      · exact hv
      · exact h.descending.join hv hjoin
    · exact allows_joined h.descending hv hw σ (.inl (h.entry h0 σ).2.1)
  settle {n s s' changed} h hs := by
    obtain ⟨v, hv, hs'⟩ := settled_eq ht hs
    have hkind : v.OfKind k := by
      rcases hv with ⟨-, rfl⟩ | ⟨-, hmeet⟩
      · exact h.descending
      · exact h.descending.meet h.stable hmeet
    have hentry : n = 0 → ∀ σ : Store, s'.stable.first.Allows σ.point := fun h0 σ =>
      (allows_settled ht hs h.stable h.descending).mpr ⟨(h.entry h0 σ).1, (h.entry h0 σ).2.1⟩
    rcases hs' with ⟨-, rfl⟩ | ⟨-, rfl⟩
    · exact h
    · exact ⟨hkind, h.descending, h.initial, h.known, fun h0 σ => ⟨hentry h0 σ, (h.entry h0 σ).2⟩⟩

theorem SlotsLawful.of_fresh {n : ℕ} {s : Slots Disjunction} (h : FreshSlots k.domain n s)
    (hknown : s.known.first.isBottom = true ∨
      (s.known.first.recast k.domain).OfKind k ∧ ∀ σ, K n σ → (s.known.first.recast k.domain).Allows σ.point) :
    SlotsLawful k K n s := by
  obtain ⟨⟨env, hstable, hdescending, hinitial⟩, -⟩ := h
  have hkind : s.stable.first.OfKind k := by
    rw [hstable]
    exact ofKind_startValue rfl n env
  have hentry : n = 0 → ∀ σ : Store, s.stable.first.Allows σ.point := by
    rintro rfl σ
    rw [hstable]
    exact Value.allows_top _ _ _
  refine ⟨hkind, by rw [hdescending]; exact hkind, by rw [hinitial]; exact hkind, hknown, fun h0 σ => ?_⟩
  rw [hdescending, hinitial]
  exact ⟨hentry h0 σ, hentry h0 σ, hentry h0 σ⟩

theorem SlotsLawful.raise {n : ℕ} {s : Slots Disjunction} {w : Value} {i : Disjunction} (h : SlotsLawful k K n s)
    (hK : ∀ σ, K 0 σ) (hw : w.OfKind k) (hg : ∀ σ, K n σ → s.stable.first.Allows σ.point → w.Allows σ.point)
    (hi : i = s.initial ∨ s.stable.first.isBottom = true ∧ i = s.initial.set 0 w) :
    SlotsLawful k K n { s with stable := s.stable.set 0 w, initial := i } := by
  have hentry : n = 0 → ∀ σ : Store, w.Allows σ.point := by
    rintro rfl σ
    exact hg σ (hK σ) (h.entry rfl σ).1
  rcases hi with rfl | ⟨hb, rfl⟩
  · exact ⟨hw, h.descending, h.initial, h.known, fun h0 σ => ⟨hentry h0 σ, (h.entry h0 σ).2⟩⟩
  · exact ⟨hw, h.descending, hw, h.known, fun h0 σ => ⟨hentry h0 σ, (h.entry h0 σ).2.1, hentry h0 σ⟩⟩

theorem computeNode_spec {n : ℕ} {r r' : Run Ω Unit} {u : Unit} (ht : su.options.technique ≠ .disjunctive)
    (hf : su.transfer.Follows k step) (h0 : ∀ σ, K 0 σ)
    (hK : ∀ n σ p σ', K n σ → A.EdgeStep step n σ p σ' → K p σ') (h : Yields (computeNode su n) r u r')
    (hr : r.Regular su.key A (SlotsLawful k K)) :
    r'.Regular su.key A (SlotsLawful k K) ∧ Advance su.key K (· ≠ n) r r' ∧
      (r'.Covered su.key K (A.EdgeStep step) n ∨ r'.Owed n) := by
  refine visit_covered (I := fun x => x.Regular su.key A (SlotsLawful k K)) hK (fun _ _ _ _ h => h.1)
    (fun _ h => h.arena) (fun _ _ h => ⟨h.arena, h.blocks, h.slots⟩) ?_ h hr
  intro s hs p x x' hx hp
  obtain ⟨grown, x₁, hedge, hp⟩ := yields_bind.mp hp
  obtain ⟨-, rfl⟩ := yields_pure.mp hp
  obtain ⟨hcase, himage⟩ := ascendEdge_spec hf (slotLaw ht) hedge hx (hr.slots n s hs).stable
  rcases hcase with ⟨-, hq⟩ | ⟨-, t, w, i, ht, hw, -, hg, hi, hstores⟩
  · exact ⟨hx.quiet hq, .quiet hq, himage⟩
  · exact ⟨hstores.regular hx ((hx.slots p t ht).raise h0 hw hg hi), hstores.advance ht hg, himage⟩

theorem narrowNode_spec {n : ℕ} {r r' : Run Ω Unit} {u : Unit} (ht : su.options.technique ≠ .disjunctive)
    (hf : su.transfer.Follows k step) (h : Yields (narrowNode su n) r u r')
    (hr : r.Regular su.key A (SlotsLawful k K)) :
    r'.Regular su.key A (SlotsLawful k K) ∧ r'.memory = r.memory ∧ r'.engine.oracle = r.engine.oracle ∧
      Lowers su.key (· ≠ n) r r' ∧ r'.Lowered su.key K (A.EdgeStep step) n := by
  refine visit_lowered (fun _ _ _ _ h => h.1) ?_ h hr
  intro s hs p x x' hx _ hp
  exact descendEdge_spec hf (slotLaw ht) hp hx (hr.slots n s hs).stable

/-- An ascending pass from nodes that are covered or owed a visit covers all of them. -/
theorem ascend_spec {fromEntry : Bool} {r r' : Run Ω Unit} {u : Unit} (ht : su.options.technique ≠ .disjunctive)
    (hf : su.transfer.Follows k step) (h0 : ∀ σ, K 0 σ)
    (hK : ∀ n σ p σ', K n σ → A.EdgeStep step n σ p σ' → K p σ')
    (h : Yields (ascend su (computeNode su) fromEntry) r u r') (hr : r.Regular su.key A (SlotsLawful k K))
    (hcomputed : ∀ n, r.computed? n ≠ some true)
    (hc : ∀ n, r.Covered su.key K (A.EdgeStep step) n ∨ r.Waits n ∨ fromEntry = true ∧ n = 0) :
    r'.Regular su.key A (SlotsLawful k K) ∧ (∀ n σ, K n σ → r.Stable su.key n σ → r'.Stable su.key n σ) ∧
      ∀ n, r'.Covered su.key K (A.EdgeStep step) n := by
  exact ascend_closed (I := fun x => x.Regular su.key A (SlotsLawful k K))
    (Q := fun s σ => s.stable.first.Allows σ.point) hK (fun _ _ hx => ⟨hx.arena, hx.blocks, hx.slots⟩)
    (fun x n x' hx hv => computeNode_spec ht hf h0 hK hv hx) h hr hcomputed hc

/-- The first result becomes the known property of every node. -/
theorem keepStable_spec {r r' : Run Ω Unit} {u : Unit} (h : Yields (keepStable su) r u r')
    (hr : r.Regular su.key A (SlotsLawful k K)) (hstable : ∀ n σ, K n σ → r.Stable su.key n σ) :
    r'.Regular su.key A (SlotsLawful k K) ∧
      Rewrites su.key (fun _ => True) (fun _ s s' => s' = { s with known := s.stable }) r r' := by
  simp only [keepStable, yields_bind] at h
  obtain ⟨count, r₁, hcount, h⟩ := h
  obtain ⟨rfl, rfl⟩ := yields_nodeCount hcount
  have hw : Rewrites su.key (fun _ => True) (fun _ s s' => s' = { s with known := s.stable }) r₁ r' := by
    refine Rewrites.of_range (yields_forM_rewrites List.nodup_range (fun n _ x x' _ hx => ?_) h) rfl
    simp only [yields_bind, yields_slots] at hx
    obtain ⟨s, x₁, ⟨hs, rfl⟩, hset⟩ := hx
    rw [yields_setSlots hset]
    exact .put hs rfl
  refine ⟨⟨hw.arena.trans hr.arena, hw.blocks.trans hr.blocks, fun n s' hs' => ?_⟩, hw⟩
  obtain ⟨s, hs, ⟨-, rfl⟩ | ⟨hn, -⟩⟩ := hw.exists_slots hs'
  · have hz := hr.slots n s hs
    refine ⟨hz.stable, hz.descending, hz.initial, .inr ?_, hz.entry⟩
    rw [hz.stable.recast]
    refine ⟨hz.stable, fun σ hσ => ?_⟩
    obtain ⟨t, ht, hall⟩ := hstable n σ hσ
    obtain rfl : s = t := Option.some.inj (hs.symm.trans ht)
    exact hall
  · exact absurd trivial hn

/-- Looking for seeds touches no stable or known value. -/
structure Seeking (su : Setup) (k : ValueKind) (K : ℕ → Store → Prop) (A : Arena) (r r' : Run Ω Unit) : Prop where
  regular : r'.Regular su.key A (SlotsLawful k K)
  slots : ∀ n s', r'.slots? su.key n = some s' → ∃ s, r.slots? su.key n = some s ∧ s'.stable = s.stable ∧ s'.known = s.known
  present : ∀ n s, r.slots? su.key n = some s → ∃ s', r'.slots? su.key n = some s' ∧ s'.stable = s.stable

theorem Seeking.put {n : ℕ} {s : Slots Disjunction} {d : Disjunction} {r r' : Run Ω Unit} (h : Seeking su k K A r r')
    (hs : r'.slots? su.key n = some s) (hd : SlotsLawful k K n { s with descending := d }) :
    Seeking su k K A r (r'.put su.key n { s with descending := d }) := by
  have hput := r'.slots?_put su.key n { s with descending := d }
  have hsome : (r'.slots? su.key n).isSome = true := by rw [hs]; rfl
  refine ⟨⟨h.regular.arena, (r'.blocks_put _ _ _).trans h.regular.blocks, fun m t ht => ?_⟩, fun m t ht => ?_,
    fun m t ht => ?_⟩
  · rw [hput m hsome] at ht
    split at ht
    · rename_i hmn
      rw [hmn, ← Option.some.inj ht]
      exact hd
    · exact h.regular.slots m t ht
  · rw [hput m hsome] at ht
    split at ht
    · rename_i hmn
      rw [hmn, ← Option.some.inj ht]
      exact h.slots n s hs
    · exact h.slots m t ht
  · rw [hput m hsome]
    obtain ⟨t', ht', hstable⟩ := h.present m t ht
    split
    · rename_i hmn
      rw [hmn, hs] at ht'
      rw [← Option.some.inj ht'] at hstable
      exact ⟨_, rfl, hstable⟩
    · exact ⟨t', ht', hstable⟩

theorem plantSeeds_spec {n : ℕ} {b : Bool} {r₀ r r' : Run Ω Unit} (h : Yields (plantSeeds su n) r b r')
    (hr : Seeking su k K A r₀ r) : Seeking su k K A r₀ r' := by
  have hseeds : ∀ {seeds : List LinearConstraint} {x x' : Run Ω Unit}, Yields (seedsAt su n) x seeds x' → x' = x := by
    intro seeds x x' hx
    simp only [seedsAt, yields_bind, yields_value] at hx
    obtain ⟨v, x₁, ⟨-, rfl⟩, hx⟩ := hx
    split at hx
    · exact (yields_pure.mp hx).2
    · simp only [yields_bind, yields_value, yields_pure] at hx
      obtain ⟨w, x₂, ⟨-, rfl⟩, -, rfl⟩ := hx
      rfl
  simp only [plantSeeds, yields_bind] at h
  obtain ⟨seeds, r₁, hfound, h⟩ := h
  obtain rfl := hseeds hfound
  split at h
  · obtain ⟨-, rfl⟩ := yields_pure.mp h
    exact hr
  · simp only [yields_bind, yields_value, yields_modifyEngine, yields_pure] at h
    obtain ⟨v, r₂, ⟨⟨s, hs, rfl⟩, rfl⟩, u₁, r₃, hset, u₂, r₄, rfl, -, rfl⟩ := h
    obtain ⟨s', hs', rfl⟩ := yields_setDisjunct hset
    obtain rfl : s = s' := Option.some.inj (hs.symm.trans hs')
    have hz := hr.regular.slots n s hs
    have hput := hr.put (d := s.descending.set 0 s.initial.first) hs ⟨hz.stable, hz.initial, hz.initial, hz.known,
      fun h0 σ => ⟨(hz.entry h0 σ).1, (hz.entry h0 σ).2.2, (hz.entry h0 σ).2.2⟩⟩
    exact ⟨⟨hput.regular.arena, hput.regular.blocks, hput.regular.slots⟩, hput.slots, hput.present⟩

theorem findSeeds_spec {b : Bool} {r r' : Run Ω Unit} (hD : k.domain = su.options.domain)
    (h : Yields (findSeeds su) r b r') (hr : r.Regular su.key A (SlotsLawful k K)) : Seeking su k K A r r' := by
  simp only [findSeeds, yields_bind, yields_arena] at h
  obtain ⟨count, r₁, hcount, u₁, r₂, hclear, a, r₃, ⟨rfl, rfl⟩, found, r₄, hplant, h⟩ := h
  obtain ⟨rfl, rfl⟩ := yields_nodeCount hcount
  have hclear' : Seeking su k K A r₁ r₃ := by
    refine (yields_forM (I := fun x => Seeking su k K A r₁ x) (Q := fun _ _ => True) hclear
      ⟨hr, fun n s hs => ⟨s, hs, rfl, rfl⟩, fun n s hs => ⟨s, hs, rfl⟩⟩ fun n hn x x' hx hstep => ?_).1
    obtain ⟨v, x₁, hv, hset⟩ := yields_bind.mp hstep
    obtain ⟨⟨env, rfl⟩, rfl⟩ := yields_bottom hv
    obtain ⟨s, hs, rfl⟩ := yields_setSlot hset
    have hn0 : n ≠ 0 := by simpa using (List.mem_filter.mp hn).2
    have hlaw : SlotLaw .classic k K (SlotsLawful k K) := slotLaw (by decide)
    have hz := hlaw.clear env (hx.regular.slots n s hs) hn0
    rw [hD] at hz
    exact ⟨hx.put hs hz, trivial, fun _ _ => trivial⟩
  have hplant' : Seeking su k K A r₁ r₄ :=
    (yields_forM (I := fun x => Seeking su k K A r₁ x) (Q := fun _ _ => True) (yields_forM_of_mapM hplant) hclear'
      fun n _ x x' hx hstep => by
        obtain ⟨b, x₁, hseeds, hstep⟩ := yields_bind.mp hstep
        obtain ⟨-, rfl⟩ := yields_pure.mp hstep
        exact ⟨plantSeeds_spec hseeds hx, trivial, fun _ _ => trivial⟩).1
  split at h
  · simp only [yields_bind, yields_modifyEngine, yields_pure] at h
    obtain ⟨u₂, r₅, rfl, -, rfl⟩ := h
    exact ⟨⟨hplant'.regular.arena, hplant'.regular.blocks, hplant'.regular.slots⟩, hplant'.slots, hplant'.present⟩
  · obtain ⟨-, rfl⟩ := yields_pure.mp h
    exact hplant'

/-- Every node with some state is scheduled. -/
theorem pushLive_spec {count : ℕ} {r r' : Run Ω Unit} {u : Unit} (hcount : count = r.engine.context.nodes.length)
    (h : Yields ((List.range count).forM fun n => do
      unless (← slot su n .stable).isBottom do push n) r u r') :
    (∃ w, r' = { r with engine := { r.engine with worklist := w } }) ∧
      ∀ n, (∀ σ, ¬ r.Stable su.key n σ) ∨ r'.Waits n := by
  obtain ⟨hI, hall, -⟩ := yields_forM
    (I := fun x : Run Ω Unit => ∃ w, x = { r with engine := { r.engine with worklist := w } })
    (Q := fun n x => (∀ σ, ¬ r.Stable su.key n σ) ∨ x.Waits n) h ⟨_, rfl⟩ fun n _ x x' hx hstep => by
      obtain ⟨w, rfl⟩ := hx
      simp only [yields_bind, yields_slot] at hstep
      obtain ⟨d, x₁, ⟨⟨s, hs, rfl⟩, rfl⟩, hstep⟩ := hstep
      split at hstep
      · rename_i hb
        obtain ⟨-, rfl⟩ := yields_pure.mp hstep
        refine ⟨⟨w, rfl⟩, .inl ?_, fun _ hm => hm⟩
        rintro σ ⟨t, ht, hσ⟩
        obtain rfl : s = t := Option.some.inj (hs.symm.trans ht)
        exact Value.not_allows_of_isBottom (List.all_eq_true.mp hb _ (by simp [Disjunction.toList, Slots.get])) _ hσ
      · obtain rfl := yields_push.mp hstep
        exact ⟨⟨_, rfl⟩, .inr (Worklist.mem_nodes_push.mpr (.inl rfl)),
          fun m hm => hm.imp_right fun hw => Worklist.mem_nodes_push.mpr (.inr hw)⟩
  refine ⟨hI, fun n => ?_⟩
  by_cases hn : n < count
  · exact hall n (List.mem_range.mpr hn)
  · refine .inl ?_
    rintro σ ⟨s, hs, -⟩
    rw [slots?, List.getElem?_eq_none (by omega)] at hs
    cases hs

/-- Without seeds the first result comes back. -/
theorem restoreKnown_spec {r r' : Run Ω Unit} {u : Unit} (h : Yields (restoreKnown su) r u r')
    (hr : r.Regular su.key A (SlotsLawful k K)) (hsame : ∀ n s, r.slots? su.key n = some s → s.known = s.stable) :
    r'.Regular su.key A (SlotsLawful k K) ∧ ∀ n, r'.slots? su.key n = r.slots? su.key n := by
  simp only [restoreKnown, yields_bind] at h
  obtain ⟨count, r₁, hcount, h⟩ := h
  obtain ⟨rfl, rfl⟩ := yields_nodeCount hcount
  have hw : Rewrites su.key (fun _ => True) (fun _ s s' => s' = { s with stable := s.known }) r₁ r' := by
    refine Rewrites.of_range (yields_forM_rewrites List.nodup_range (fun n _ x x' _ hx => ?_) h) rfl
    simp only [yields_bind, yields_slots] at hx
    obtain ⟨s, x₁, ⟨hs, rfl⟩, hset⟩ := hx
    rw [yields_setSlots hset]
    exact .put hs rfl
  have hslots : ∀ n, r'.slots? su.key n = r₁.slots? su.key n := by
    intro n
    cases hs : r₁.slots? su.key n with
    | none => exact hw.absent n hs
    | some s =>
      obtain ⟨s', hs', rfl⟩ := hw.slots n trivial s hs
      have heq := hsame n s hs
      obtain ⟨stable, descending, initial, known⟩ := s
      obtain rfl : known = stable := heq
      exact hs'
  refine ⟨⟨hw.arena.trans hr.arena, hw.blocks.trans hr.blocks, fun n s hs => hr.slots n s ?_⟩, hslots⟩
  rw [← hslots n]
  exact hs

/-- What every phase of the iteration starts and ends with: lawful slots, every store at the entry, and values
that the reached stores do not leave. -/
structure Sound (su : Setup) (k : ValueKind) (A : Arena) (step : Block → Store → Block → Store → Prop)
    (r : Run Ω Unit) : Prop where
  regular : r.Regular su.key A (SlotsLawful k (Reached (A.EdgeStep step)))
  entry : ∀ σ, r.Stable su.key 0 σ
  covered : ∀ n, r.Covered su.key (Reached (A.EdgeStep step)) (A.EdgeStep step) n

theorem descendRounds_sound {rounds : ℕ} {r r' : Run Ω Unit} {u : Unit} (hD : k.domain = su.options.domain)
    (ht : su.options.technique ≠ .disjunctive) (hf : su.transfer.Follows k step)
    (h : Yields (descendRounds su (narrowNode su) rounds) r u r') (hr : Sound su k A step r) : Sound su k A step r' := by
  obtain ⟨hr', -, hn⟩ := descendRounds_spec (J := fun _ _ => True) hD ht (slotLaw ht)
    (fun x n x' hx _ hv => by
      obtain ⟨hx', -, -, hlow, hn⟩ := narrowNode_spec ht hf hv hx
      exact ⟨hx', trivial, hlow, hn⟩) h hr.regular trivial hr.covered
  exact ⟨hr', fun σ => hn.entry σ (hr.entry σ), hn.covered⟩

/-- A restart from the seeds either brings the first result back, or starts a second ascending pass from lawful
slots with every node that has some state in the worklist. The law may say more about stable values than that of
classic iteration. -/
theorem restartFromSeeds_cases {Z : ℕ → Slots Disjunction → Prop} {compute narrow : ℕ → Analysis Ω Unit Unit}
    {rounds : ℕ} {r r' : Run Ω Unit} {u : Unit} (hD : k.domain = su.options.domain)
    (ht : su.options.technique ≠ .disjunctive) (hZ : SlotLaw su.options.technique k K Z)
    (hlaw : ∀ n s, Z n s → SlotsLawful k K n s)
    (hraise : ∀ n s s', Z n s → SlotsLawful k K n s' → s'.stable = s.stable → Z n s')
    (h : Yields (restartFromSeeds su compute narrow rounds) r u r') (hr : r.Regular su.key A Z)
    (hstable : ∀ n σ, K n σ → r.Stable su.key n σ) :
    (r'.Regular su.key A Z ∧ ∀ n σ, r'.Stable su.key n σ ↔ r.Stable su.key n σ) ∨
      ∃ r₁ r₂, r₁.Regular su.key A Z ∧ (∀ σ, r.Stable su.key 0 σ → r₁.Stable su.key 0 σ) ∧
        (∀ n, r₁.computed? n ≠ some true) ∧ (∀ n, (∀ σ, ¬ r₁.Stable su.key n σ) ∨ r₁.Waits n) ∧
        Yields (ascend su compute false) r₁ () r₂ ∧ Yields (descendRounds su narrow rounds) r₂ u r' := by
  simp only [restartFromSeeds, yields_bind] at h
  obtain ⟨u₁, r₁, hkeep, b, r₂, hseeds, h⟩ := h
  obtain ⟨hr₁, hw⟩ := keepStable_spec hkeep ⟨hr.arena, hr.blocks, fun n s hs => hlaw n s (hr.slots n s hs)⟩ hstable
  have hseek := findSeeds_spec hD hseeds hr₁
  have hback : ∀ n s₂, r₂.slots? su.key n = some s₂ →
      ∃ s, r.slots? su.key n = some s ∧ s₂.stable = s.stable ∧ s₂.known = s.stable := by
    intro n s₂ hs₂
    obtain ⟨s₁, hs₁, heq, heq'⟩ := hseek.slots n s₂ hs₂
    obtain ⟨s, hs, ⟨-, rfl⟩ | ⟨hn, -⟩⟩ := hw.exists_slots hs₁
    · exact ⟨s, hs, heq, heq'⟩
    · exact absurd trivial hn
  have hsame : ∀ n σ, r₂.Stable su.key n σ ↔ r.Stable su.key n σ := by
    intro n σ
    constructor
    · rintro ⟨s₂, hs₂, hσ⟩
      obtain ⟨s, hs, heq, -⟩ := hback n s₂ hs₂
      exact ⟨s, hs, heq ▸ hσ⟩
    · rintro ⟨s, hs, hσ⟩
      obtain ⟨s₁, hs₁, rfl⟩ := hw.slots n trivial s hs
      obtain ⟨s₂, hs₂, heq⟩ := hseek.present n _ hs₁
      exact ⟨s₂, hs₂, heq.symm ▸ hσ⟩
  have hr₂ : r₂.Regular su.key A Z := by
    refine ⟨hseek.regular.arena, hseek.regular.blocks, fun n s₂ hs₂ => ?_⟩
    obtain ⟨s, hs, heq, -⟩ := hback n s₂ hs₂
    exact hraise n s s₂ (hr.slots n s hs) (hseek.regular.slots n s₂ hs₂) heq
  cases b with
  | false =>
    simp only [Bool.false_eq_true, if_false] at h
    obtain ⟨hr', hslots⟩ := restoreKnown_spec h hseek.regular fun n s₂ hs₂ => by
      obtain ⟨s, hs, heq, heq'⟩ := hback n s₂ hs₂
      rw [heq, heq']
    refine .inl ⟨⟨hr'.arena, hr'.blocks, fun n s hs => hr₂.slots n s (hslots n ▸ hs)⟩, fun n σ => ?_⟩
    rw [← hsame n σ, Run.Stable, Run.Stable, hslots n]
  | true =>
    simp only [if_true, resetComputed, clearWorklist, yields_bind, yields_modifyEngine] at h
    obtain ⟨b₁, r₃, hsettle, u₂, r₄, rfl, u₃, r₅, rfl, count, r₆, hcount, u₄, r₇, hpush, u₅, r₈, hascend, h⟩ := h
    obtain ⟨rfl, rfl⟩ := yields_nodeCount hcount
    obtain ⟨hr₃, -, -, hsettled⟩ := settle_spec ht hZ hsettle hr₂
    obtain ⟨⟨w, rfl⟩, hlive⟩ := pushLive_spec rfl hpush
    refine .inr ⟨_, r₈, ?_, fun σ hσ => ?_, fun n hn => ?_, fun n => ?_, hascend, h⟩
    · exact ⟨hr₃.arena, hr₃.blocks, hr₃.slots⟩
    · obtain ⟨s, hs, hσ⟩ := (hsame 0 σ).mpr hσ
      exact (hsettled 0 σ).mpr ⟨⟨s, hs, hσ⟩, s, hs, ((hseek.regular.slots 0 s hs).entry rfl σ).2.1⟩
    · simp only [computed?, List.getElem?_map] at hn
      cases hc : r₃.engine.computed[n]? <;> simp [hc] at hn
    · exact (hlive n).imp_left fun hnone σ hs => hnone σ hs

theorem restartFromSeeds_sound {rounds : ℕ} {r r' : Run Ω Unit} {u : Unit} (hD : k.domain = su.options.domain)
    (ht : su.options.technique ≠ .disjunctive) (hf : su.transfer.Follows k step)
    (h : Yields (restartFromSeeds su (computeNode su) (narrowNode su) rounds) r u r') (hr : Sound su k A step r) :
    Sound su k A step r' := by
  rcases restartFromSeeds_cases hD ht (slotLaw ht) (fun _ _ hz => hz) (fun _ _ _ _ hz _ => hz) h hr.regular
    (fun n σ hσ => stable_of_covered hr.covered hr.entry hσ) with
    ⟨hr', hsame⟩ | ⟨r₁, r₂, hr₁, hentry, hcomputed, hlive, hascend, hdescend⟩
  · exact ⟨hr', fun σ => (hsame 0 σ).mpr (hr.entry σ), fun n σ p σ' hσ hs hstep =>
      (hsame p σ').mpr (hr.covered n σ p σ' hσ ((hsame n σ).mp hs) hstep)⟩
  · obtain ⟨hr₂, hgrows, hcov⟩ := ascend_spec ht hf Reached.entry (fun _ _ _ _ h h' => h.step h') hascend hr₁ hcomputed
      fun n => by
        rcases hlive n with hnone | hw
        · exact .inl fun σ _ _ _ hs _ => absurd hs (hnone σ)
        · exact .inr (.inl hw)
    exact descendRounds_sound hD ht hf hdescend
      ⟨hr₂, fun σ => hgrows 0 σ (.entry σ) (hentry σ (hr.entry σ)), hcov⟩

theorem computeFunction_sound {r r' : Run Ω Unit} {u : Unit} (hD : k.domain = su.options.domain)
    (ht : su.options.technique ≠ .disjunctive) (hf : su.transfer.Follows k step)
    (h : Yields (computeFunction su) r u r') (hr : r.Regular su.key A (SlotsLawful k (Reached (A.EdgeStep step))))
    (hentry : ∀ σ, r.Stable su.key 0 σ) (hothers : ∀ n σ, n ≠ 0 → ¬ r.Stable su.key n σ)
    (hcomputed : ∀ n, r.computed? n ≠ some true) : Sound su k A step r' := by
  simp only [computeFunction, yields_bind] at h
  obtain ⟨u₁, r₁, hascend, u₂, r₂, hdescend, h⟩ := h
  obtain ⟨hr₁, hgrows, hcov⟩ := ascend_spec ht hf Reached.entry (fun _ _ _ _ h h' => h.step h') hascend hr hcomputed
    fun n => by
      by_cases hn : n = 0
      · exact .inr (.inr ⟨rfl, hn⟩)
      · exact .inl fun σ _ _ _ hs _ => absurd hs (hothers n σ hn)
  have hr₂ := descendRounds_sound hD ht hf hdescend ⟨hr₁, fun σ => hgrows 0 σ (.entry σ) (hentry σ), hcov⟩
  split at h
  · exact restartFromSeeds_sound hD ht hf h hr₂
  · obtain ⟨-, rfl⟩ := yields_pure.mp h
    exact hr₂

end Classic

/-- The known property of each block, as a run finds it when it starts. -/
def knownValues {Ω : Type} (su : Setup) (e : Engine Ω) : List (Block × Value) :=
  ((Analysis.prepare su).run.run (⟨e, ()⟩ : Run Ω Unit)).2.engine.context.nodes.filterMap fun node =>
    (node.slots? su.key).map fun s => (node.block, s.known.first)

namespace Classic

open Run Analysis

variable {Ω : Type} {p : Program} {options : Options} {resources : Resources} {name : String}
  {oracle : Ω} {ctx c : Context} {o : Outcome} {k : ValueKind}

theorem mem_knownValues {su : Setup} {e : Engine Ω} {r : Run Ω Unit} {n : ℕ} {b : Block} {s : Slots Disjunction}
    (h : Yields (prepare su) ⟨e, ()⟩ () r) (hb : r.blocks[n]? = some b) (hs : r.slots? su.key n = some s) :
    (b, s.known.first) ∈ knownValues su e := by
  rw [Yields] at h
  rw [knownValues, h]
  cases hnode : r.engine.context.nodes[n]? with
  | none =>
    rw [Run.slots?, hnode] at hs
    cases hs
  | some node =>
    rw [Run.slots?, hnode] at hs
    rw [Run.blocks, List.getElem?_map, hnode] at hb
    refine List.mem_filterMap.mpr ⟨node, List.mem_of_getElem? hnode, ?_⟩
    rw [Option.bind_some] at hs
    rw [hs, ← Option.some.inj hb]
    rfl

variable [PathOracle Ω]

/-- A completed run ends in a sound state if the known properties, read as values of the kind, hold on all stores in
reach. -/
theorem sound_of_recast (hp : p.graph.WellFormed) (ht : options.technique = .classic)
    (hctx : ctx.OfGraph p.graph.control) (h : analyzeWith (p.setup options resources) name oracle ctx = (.ok o, c))
    (hc : o.isCompleted = true) (hD : k.domain = options.domain)
    (hknown : ∀ bv ∈ knownValues (p.setup options resources) (.new options ctx oracle), bv.2.isBottom = true ∨
      (bv.2.recast k.domain).OfKind k ∧ ∀ σ, p.Reaches bv.1 σ → (bv.2.recast k.domain).Allows σ.point) :
    ∃ r : Run Ω Unit, c = r.engine.context ∧ o.Reports (p.setup options resources) r ∧
      Sound (p.setup options resources) k (.build p.graph.control) p.Step r := by
  obtain ⟨r₁, r₂, hprepare, hstart, -, -, hcompute, hcontext, hreports⟩ := exists_run_of_completed strategy hctx
    (fun e => by simp only [runTechnique, Program.setup, ht]) h hc
  have hregular : r₁.Regular (p.setup options resources).key (.build p.graph.control)
      (SlotsLawful k (Reached ((Arena.build p.graph.control).EdgeStep p.Step))) := by
    refine ⟨hstart.arena, hstart.blocks, fun n s hs => ?_⟩
    refine .of_fresh (hD ▸ hstart.slots n s hs) ?_
    obtain ⟨b, hb⟩ := exists_block hs
    refine (hknown _ (mem_knownValues hprepare hb hs)).imp_right fun hv => ⟨hv.1, fun σ hσ => ?_⟩
    rw [hstart.blocks] at hb
    exact hv.2 σ (Program.reaches_of_reached hp hb hσ)
  have hsound := computeFunction_sound hD (by simp [Program.setup, ht]) (p.transfer_follows k) hcompute hregular
    (hstart.stable_zero hp.bounded) (fun n σ hn => hstart.not_stable hn σ) hstart.computed
  exact ⟨r₂, hcontext, hreports hsound.regular.arena hsound.regular.blocks, hsound⟩

/-- A completed run ends in a sound state if the known properties are values of the kind that hold on all stores
in reach. -/
theorem sound_of_completed (hp : p.graph.WellFormed) (ht : options.technique = .classic)
    (hctx : ctx.OfGraph p.graph.control) (h : analyzeWith (p.setup options resources) name oracle ctx = (.ok o, c))
    (hc : o.isCompleted = true) (hD : k.domain = options.domain)
    (hknown : ∀ bv ∈ knownValues (p.setup options resources) (.new options ctx oracle), bv.2.isBottom = true ∨
      bv.2.OfKind k ∧ ∀ σ, p.Reaches bv.1 σ → bv.2.Contains σ) :
    ∃ r : Run Ω Unit, c = r.engine.context ∧ o.Reports (p.setup options resources) r ∧
      Sound (p.setup options resources) k (.build p.graph.control) p.Step r := by
  refine sound_of_recast hp ht hctx h hc hD fun bv hbv => (hknown bv hbv).imp_right fun hv => ?_
  rw [hv.1.recast]
  exact ⟨hv.1, fun σ hσ => (Value.contains_iff.mp (hv.2 σ hσ)).allows⟩

omit [PathOracle Ω] in
/-- Every store that reaches a block is allowed by the one value that is reported for it. -/
theorem exists_invariant (hp : p.graph.WellFormed) (ht : options.technique = .classic) {r : Run Ω Unit}
    (hrep : o.Reports (p.setup options resources) r)
    (hr : Sound (p.setup options resources) k (.build p.graph.control) p.Step r) {b : Block} {σ : Store}
    (hσ : p.Reaches b σ) :
    ∃ i v, o.invariant? b = some i ∧ i.disjuncts = [v] ∧ v.OfKind k ∧ v.Allows σ.point := by
  obtain ⟨n, hn, hreached⟩ := Program.reached_of_reaches hp hσ
  obtain ⟨s, hs, hall⟩ := stable_of_covered hr.covered hr.entry hreached
  have hb : s.stable.first.isBottom = false := by
    rw [Bool.eq_false_iff]
    exact fun hb => Value.not_allows_of_isBottom hb _ hall
  obtain ⟨i, hi, hdisjuncts⟩ := hrep.disjuncts_eq hp.bounded (by simp [Program.setup, ht])
    (by rw [hr.regular.blocks, hn]) hs hb
  exact ⟨i, _, hi, hdisjuncts, (hr.regular.slots n s hs).stable, hall⟩

/-- Soundness of classic iteration with known properties of the run's domain that hold on all stores in reach. Every
store that reaches a block lies in the reported box, and a proved site is never reached. The equality rows that are
reported beside the box hold too when the domain keeps equalities or the known values have none; a run over
intervals that takes over rows may report rows that fail, and exactly then a store is not covered. -/
theorem classic_sound (hp : p.graph.WellFormed) (ht : options.technique = .classic)
    (hctx : ctx.OfGraph p.graph.control) (h : analyzeWith (p.setup options resources) name oracle ctx = (.ok o, c))
    (hc : o.isCompleted = true)
    (hknown : ∀ bv ∈ knownValues (p.setup options resources) (.new options ctx oracle), bv.2.isBottom = true ∨
      bv.2.domain = options.domain ∧ ∀ σ, p.Reaches bv.1 σ → bv.2.Contains σ) :
    (∀ b σ, p.Reaches b σ → ∃ i, o.invariant? b = some i ∧ ∃ v ∈ i.disjuncts, ∀ s, σ s ∈ v.rangeOf s) ∧
      (∀ site ∈ o.sites, site.isProved = true → ∀ σ, ¬ p.Reaches site.block σ) ∧
      (∀ b σ, p.Reaches b σ → (o.Covers b σ ↔
        ∀ i, o.invariant? b = some i → ∀ v ∈ i.disjuncts, ∀ e ∈ v.eqs.rows, e.eval σ = 0)) ∧
      (options.domain = .intervalEqualities ∨
        (∀ bv ∈ knownValues (p.setup options resources) (.new options ctx oracle), bv.2.eqs = .empty) →
          ∀ b σ, p.Reaches b σ → o.Covers b σ) := by
  obtain ⟨r, -, hrep, hr⟩ := sound_of_completed (k := ⟨options.domain, false, nofun⟩) hp ht hctx h hc rfl
    fun bv hbv => (hknown bv hbv).imp_right fun hv => ⟨⟨hv.1, nofun⟩, hv.2⟩
  have hcovers : ∀ {k : ValueKind} {r : Run Ω Unit}, o.Reports (p.setup options resources) r →
      Sound (p.setup options resources) k (.build p.graph.control) p.Step r →
      (k.domain = .intervals → k.rowless = true) → ∀ b σ, p.Reaches b σ → o.Covers b σ := by
    intro k r hrep hr hk b σ hσ
    obtain ⟨i, v, hi, hv, hkind, hall⟩ := exists_invariant hp ht hrep hr hσ
    exact ⟨i, hi, v, by simp [hv], Value.contains_iff.mpr (hall.admits hkind hk)⟩
  refine ⟨fun b σ hσ => ?_, fun site hsite hproved σ hσ => ?_, fun b σ hσ => ?_, fun hrows => ?_⟩
  · obtain ⟨i, v, hi, hv, -, hall⟩ := exists_invariant hp ht hrep hr hσ
    exact ⟨i, hi, v, by simp [hv], fun s => Interval.admits_intCast.mp (hall.1 s)⟩
  · obtain ⟨n, s, hn, hs, hbottom⟩ := hrep.bottom_of_proved hsite hproved
    obtain ⟨m, hm, hreached⟩ := Program.reached_of_reaches hp hσ
    obtain ⟨t, ht', hall⟩ := stable_of_covered hr.covered hr.entry hreached
    rw [hr.regular.blocks] at hn
    obtain rfl := Arena.node_unique hp.bounded hn hm
    obtain rfl : s = t := Option.some.inj (hs.symm.trans ht')
    refine Value.not_allows_of_isBottom (hbottom _ ?_) _ hall
    simp [Slots.reported, Program.setup, ht]
  · obtain ⟨i, v, hi, hv, -, hall⟩ := exists_invariant hp ht hrep hr hσ
    constructor
    · rintro ⟨i', hi', w, hw, hcontains⟩ j hj x hx e he
      obtain rfl := Option.some.inj (hi.symm.trans hi')
      obtain rfl := Option.some.inj (hi.symm.trans hj)
      rw [hv, List.mem_singleton] at hw hx
      rw [hx, ← hw] at he
      exact hcontains.2 e he
    · intro hrows
      exact ⟨i, hi, v, by simp [hv], fun s => Interval.admits_intCast.mp (hall.1 s), hrows i hi v (by simp [hv])⟩
  · cases hd : options.domain with
    | intervalEqualities => exact hcovers hrep hr fun hk => by simp [hd] at hk
    | intervals =>
      have hempty := hrows.resolve_left (by rw [hd]; decide)
      obtain ⟨r', -, hrep', hr'⟩ := sound_of_completed (k := ⟨options.domain, true, fun _ => hd⟩) hp ht hctx h hc rfl
        fun bv hbv => (hknown bv hbv).imp_right fun hv => ⟨⟨hv.1, fun _ => hempty bv hbv⟩, hv.2⟩
      exact hcovers hrep' hr' fun _ => rfl

/-- A run on top of one with the standing options, whose result it takes as known. -/
def refined : Options := { technique := .classic, thresholds := true, known := some (Options.key { technique := .classic }) }

/-- The known values of a refined run, each with its block. -/
def refinedKnown (c : Context) : List (Block × Value) :=
  knownValues (Program.counter.setup refined .ample)
    (.new refined c (SearchOracle.new Program.counter.graph.control Program.counter.transfer))

/-- What is known for a refined run is what the first run reports. -/
def knowsReport (o : Outcome) (c : Context) : Bool :=
  (refinedKnown c).all fun bv => bv.2.isBottom || (bv.2.domain == .intervalEqualities &&
    (o.invariant? bv.1).any fun i => i.disjuncts == [bv.2])

theorem contains_of_knowsReport {o : Outcome} {c : Context} (h : knowsReport o c = true)
    (hcovers : ∀ b σ, Program.counter.Reaches b σ → o.Covers b σ) : ∀ bv ∈ refinedKnown c, bv.2.isBottom = true ∨
      bv.2.domain = .intervalEqualities ∧ ∀ σ, Program.counter.Reaches bv.1 σ → bv.2.Contains σ := by
  intro bv hbv
  rcases Bool.or_eq_true_iff.mp (List.all_eq_true.mp h bv hbv) with hbottom | hreported
  · exact .inl hbottom
  · obtain ⟨hdomain, hany⟩ := Bool.and_eq_true_iff.mp hreported
    refine .inr ⟨beq_iff_eq.mp hdomain, fun σ hσ => ?_⟩
    obtain ⟨i, hi, v, hv, hcontains⟩ := hcovers bv.1 σ hσ
    rw [hi] at hany
    rw [beq_iff_eq.mp hany, List.mem_singleton] at hv
    rwa [← hv]

theorem classic_sound_counter : ∃ o₁ c₁ o₂ c₂,
    analyze (Program.counter.setup { technique := .classic } .ample) "f" (.build Program.counter.graph.control) =
        (.ok o₁, c₁) ∧
      analyze (Program.counter.setup refined .ample) "f" c₁ = (.ok o₂, c₂) ∧ o₂.isCompleted = true ∧
      (∃ bv ∈ refinedKnown c₁, bv.1 = 1 ∧ bv.2.isBottom = false ∧ bv.2.isTop = false) ∧
      (∀ b σ, Program.counter.Reaches b σ → o₂.Covers b σ) ∧ ∀ σ, ¬ Program.counter.Reaches 3 σ := by
  obtain ⟨o₁, c₁, h₁, hc₁, htest⟩ := exists_of_completes (Program.counter.setup { technique := .classic } .ample)
    (.build Program.counter.graph.control) (fun o c =>
      completes (Program.counter.setup refined .ample) c (fun o _ => o.proves 3) && (knowsReport o c &&
      (refinedKnown c).any fun bv => bv.1 == 1 && (!bv.2.isBottom && !bv.2.isTop))) (by decide +kernel)
  obtain ⟨hagain, htest⟩ := Bool.and_eq_true_iff.mp htest
  obtain ⟨hreport, hlive⟩ := Bool.and_eq_true_iff.mp htest
  have hnothing : (knownValues (Program.counter.setup { technique := .classic } .ample) (.new { technique := .classic }
      (.build Program.counter.graph.control) (SearchOracle.new Program.counter.graph.control Program.counter.transfer))).all
      (fun bv => bv.2.isBottom) = true := by
    decide +kernel
  have hcovers := (classic_sound Program.counter_wellFormed rfl (Context.ofGraph_build _) h₁ hc₁ fun bv hbv =>
    .inl (List.all_eq_true.mp hnothing bv hbv)).2.2.2 (.inl rfl)
  have hctx : c₁.OfGraph Program.counter.graph.control := by
    obtain ⟨r, rfl, hrep, -⟩ := sound_of_completed (k := ⟨.intervalEqualities, false, nofun⟩) Program.counter_wellFormed rfl
      (Context.ofGraph_build _) h₁ hc₁ rfl fun bv hbv => .inl (List.all_eq_true.mp hnothing bv hbv)
    exact hrep.ofGraph
  obtain ⟨o₂, c₂, h₂, hc₂, hproves⟩ := exists_of_completes _ c₁ _ hagain
  obtain ⟨-, hproved, -, hcovers₂⟩ := classic_sound Program.counter_wellFormed rfl hctx h₂ hc₂
    (contains_of_knowsReport hreport hcovers)
  obtain ⟨site, hmem, hblock, hp⟩ := Outcome.exists_of_proves hproves
  refine ⟨o₁, c₁, o₂, c₂, h₁, h₂, hc₂, ?_, hcovers₂ (.inl rfl), fun σ => hblock ▸ hproved site hmem hp σ⟩
  simpa using hlive

/-- Makes `y` equal to `x`, then adds one to `x` and to `y` in turn, for ever. -/
def lockstep : Program where
  name := "lockstep"
  declared := [("x", some .int), ("y", some .int)]
  graph :=
    { payloads := [⟨[.assign "y" (.var "x")], none⟩, ⟨[.assign "x" (.var "x" + .const 1)], none⟩,
        ⟨[.assign "y" (.var "y" + .const 1)], none⟩]
      roles := []
      edges := [(0, 1, []), (1, 2, []), (2, 1, [])] }

theorem lockstep_reaches {b : Block} {σ : Store} (h : lockstep.Reaches b σ) :
    b < 3 ∧ (b = 1 → σ "x" = σ "y") ∧ (b = 2 → σ "x" = σ "y" + 1) := by
  induction h with
  | entry σ => exact ⟨by decide, nofun, nofun⟩
  | @step a b σ σ' _ _ hs ih =>
    obtain ⟨hedge, hbody, -⟩ := hs
    obtain ⟨hlt, hone, htwo⟩ := ih
    obtain ⟨e, he⟩ := (FlowGraph.mem_successors _ hlt).mp hedge
    have hcases : a = 0 ∧ b = 1 ∨ a = 1 ∧ b = 2 ∨ a = 2 ∧ b = 1 := by
      simp only [lockstep, List.mem_cons, Prod.mk.injEq, List.not_mem_nil, or_false] at he
      tauto
    rcases hcases with ⟨rfl, rfl⟩ | ⟨rfl, rfl⟩ | ⟨rfl, rfl⟩
    · obtain _ | ⟨⟨⟩, ⟨⟩⟩ := (hbody : Statement.Runs [.assign "y" (.var "x")] σ σ')
      simp
    · obtain _ | ⟨⟨⟩, ⟨⟩⟩ := (hbody : Statement.Runs [.assign "x" (.var "x" + .const 1)] σ σ')
      simp [hone]
    · obtain _ | ⟨⟨⟩, ⟨⟩⟩ := (hbody : Statement.Runs [.assign "y" (.var "y" + .const 1)] σ σ')
      simp [htwo]

theorem exists_lockstep_reaches : ∃ σ, lockstep.Reaches 2 σ := by
  have hone : lockstep.Reaches 1 _ :=
    .step (.entry fun _ => 0) rfl ⟨by decide +kernel, .cons (.assign "y" (.var "x") _) (.nil _), by decide⟩
  exact ⟨_, hone.step rfl ⟨by decide +kernel, .cons (.assign "x" (.var "x" + .const 1) _) (.nil _), by decide⟩⟩

/-- A run over intervals on top of path focusing over intervals. -/
def rangesOnly : Options where
  technique := .classic
  domain := .intervals
  known := some (Options.key { technique := .focusing, domain := .intervals })

/-- The context that path focusing over intervals leaves when it knows the result of a run with equalities. -/
def focused : Context :=
  (analyze (lockstep.setup { technique := .focusing, domain := .intervals, known := some (Options.key { technique := .classic }) }
    .ample) "f" (analyze (lockstep.setup { technique := .classic } .ample) "f" (.build lockstep.graph.control)).2).2

/-- What path focusing has found is of the interval kind, but it has the equality row of block 1. -/
def focusedKnown : List (Block × Value) :=
  knownValues (lockstep.setup rangesOnly .ample)
    (.new rangesOnly focused (SearchOracle.new lockstep.graph.control lockstep.transfer))

theorem contains_of_mem_focusedKnown : ∀ bv ∈ focusedKnown, bv.2.isBottom = true ∨
    bv.2.domain = .intervals ∧ ∀ σ, lockstep.Reaches bv.1 σ → bv.2.Contains σ := by
  have hknown : ∀ bv ∈ focusedKnown, bv.2.isBottom = true ∨ bv.2.domain = .intervals ∧ bv.2.box = .top ∧
      ∀ e ∈ bv.2.eqs.rows, bv.1 = 1 ∧ e = .var "x" - .var "y" := by
    decide +kernel
  intro bv hbv
  refine (hknown bv hbv).imp_right fun ⟨hdomain, hbox, hrows⟩ => ⟨hdomain, fun σ hσ => ⟨fun s => ?_, fun e he => ?_⟩⟩
  · rw [hbox]
    exact rfl
  · obtain ⟨hblock, rfl⟩ := hrows e he
    simp [(lockstep_reaches hσ).2.1 hblock]

/-- Over intervals the assignment to `x` leaves the row of block 1 as it is, and block 2 is reported with it. -/
theorem classic_misses_store : ∃ o c,
    analyze (lockstep.setup rangesOnly .ample) "f" focused = (.ok o, c) ∧ o.isCompleted = true ∧
      focused.OfGraph lockstep.graph.control ∧
      (∀ bv ∈ focusedKnown, bv.2.isBottom = true ∨
        bv.2.domain = .intervals ∧ ∀ σ, lockstep.Reaches bv.1 σ → bv.2.Contains σ) ∧
      (∃ σ, lockstep.Reaches 2 σ) ∧ ∀ σ, lockstep.Reaches 2 σ → ¬ o.Covers 2 σ := by
  obtain ⟨o, c, h, hc, hstale⟩ := exists_of_completes (lockstep.setup rangesOnly .ample) focused (fun o _ =>
    (o.invariant? 2).all fun i => i.disjuncts.all fun v => v.eqs.rows.contains (.var "x" - .var "y")) (by decide +kernel)
  refine ⟨o, c, h, hc, ⟨by decide +kernel, by decide +kernel⟩, contains_of_mem_focusedKnown, exists_lockstep_reaches, ?_⟩
  rintro σ hσ ⟨i, hi, v, hv, -, hrows⟩
  rw [hi] at hstale
  have hrow := hrows _ (List.contains_iff_mem.mp (List.all_eq_true.mp hstale v hv))
  have hx := (lockstep_reaches hσ).2.2 rfl
  simp [hx] at hrow

end Classic

end PathInvariants

import PathInvariants.Proofs.Coverage

/-!
# Narrowing

Descending passes. A pass takes the stable values of the nodes it visits into the descending values
of their successors, and settling then confines the stable values to the descending ones. Covered
nodes stay covered however many passes there are, and the entry keeps its stable value.
-/
namespace PathInvariants

variable {Ω S : Type} {key : Key} {k : ValueKind} {A : Arena} {K : ℕ → Store → Prop} {T : ℕ → Store → ℕ → Store → Prop}
  {Z : ℕ → Slots Disjunction → Prop}

namespace Run

/-- The stores of the first disjunct, which is the whole value for techniques without unions. -/
def Firsts (d : Disjunction) (σ : Store) : Prop := d.first.Allows σ.point

/-- The stores that `f` reads in stable slots stay, those in descending ones grow, and a node whose descending slot has
grown waits. -/
structure LowersBy (f : Disjunction → Store → Prop) (key : Key) (P : ℕ → Prop) (r r' : Run Ω S) : Prop where
  stable : ∀ n σ, r'.Within key (fun s => f s.stable) n σ ↔ r.Within key (fun s => f s.stable) n σ
  grows : ∀ n σ, r.Within key (fun s => f s.descending) n σ → r'.Within key (fun s => f s.descending) n σ
  waits : ∀ n, r.Waits n → r'.Waits n
  computed : ∀ n, P n → r'.computed? n = some true → r.computed? n = some true
  fresh : ∀ n, (∀ σ, r'.Within key (fun s => f s.descending) n σ → r.Within key (fun s => f s.descending) n σ) ∨ r'.Waits n

/-- Stable values stay, descending ones grow, and a node whose descending value has grown waits. -/
abbrev Lowers (key : Key) (P : ℕ → Prop) (r r' : Run Ω S) : Prop := LowersBy Firsts key P r r'

/-- Every store of `K` in the stable slot of the node leads into the descending slots of its successors. -/
def LoweredBy (r : Run Ω S) (f : Disjunction → Store → Prop) (key : Key) (K : ℕ → Store → Prop)
    (T : ℕ → Store → ℕ → Store → Prop) (n : ℕ) : Prop :=
  ∀ σ p σ', K n σ → r.Within key (fun s => f s.stable) n σ → T n σ p σ' → r.Within key (fun s => f s.descending) p σ'

/-- Every store of `K` in the stable value of the node leads into the descending values of its successors. -/
abbrev Lowered (r : Run Ω S) (key : Key) (K : ℕ → Store → Prop) (T : ℕ → Store → ℕ → Store → Prop) (n : ℕ) : Prop :=
  r.LoweredBy Firsts key K T n

variable {P : ℕ → Prop} {f : Disjunction → Store → Prop}

theorem Alike.within {r r' : Run Ω S} (h : Alike key r r') {Q : Slots Disjunction → Store → Prop} {n : ℕ} {σ : Store} :
    r'.Within key Q n σ ↔ r.Within key Q n σ := by
  rw [Within, Within, h.slots]

theorem Alike.lowers {r r' : Run Ω S} (h : Alike key r r') : LowersBy f key P r r' := by
  refine ⟨fun _ _ => h.within, fun _ _ => h.within.mpr, fun n hw => ?_, fun n _ hc => ?_, fun _ => .inl fun _ => h.within.mp⟩
  · rwa [Waits, h.worklist]
  · rwa [computed?, h.computed] at hc

theorem LowersBy.quiet {r r' : Run Ω S} (h : r.Quiet r') : LowersBy f key P r r' := h.alike.lowers

theorem LowersBy.mono {Q : ℕ → Prop} {r r' : Run Ω S} (h : LowersBy f key P r r') (hQ : ∀ n, Q n → P n) :
    LowersBy f key Q r r' := ⟨h.stable, h.grows, h.waits, fun n hn => h.computed n (hQ n hn), h.fresh⟩

theorem LowersBy.trans {r r₁ r₂ : Run Ω S} (h : LowersBy f key P r r₁) (h' : LowersBy f key P r₁ r₂) :
    LowersBy f key P r r₂ := by
  refine ⟨fun n σ => (h'.stable n σ).trans (h.stable n σ), fun n σ hd => h'.grows n σ (h.grows n σ hd),
    fun n hw => h'.waits n (h.waits n hw), fun n hn hc => h.computed n hn (h'.computed n hn hc), fun n => ?_⟩
  rcases h'.fresh n with hback | hw
  · rcases h.fresh n with hback' | hw
    · exact .inl fun σ hd => hback' σ (hback σ hd)
    · exact .inr (h'.waits n hw)
  · exact .inr hw

theorem LowersBy.lowered {r r' : Run Ω S} {n : ℕ} (h : LowersBy f key P r r') (hn : r.LoweredBy f key K T n) :
    r'.LoweredBy f key K T n := fun σ p σ' hσ hs ht => h.grows p σ' (hn σ p σ' hσ ((h.stable n σ).mp hs) ht)

end Run

namespace Analysis

open Run

variable {f : Disjunction → Store → Prop}

/-- A pass whose visits lower their node ends with every node lowered or without a descending store. -/
theorem drain_lowered {visit : ℕ → Analysis Ω S Unit} {I : Run Ω S → Prop} {fuel : ℕ} {r r' : Run Ω S} {u : Unit}
    (hpop : ∀ r queue, I r → I (r.pop queue))
    (hvisit : ∀ r n r', I r → Yields (visit n) r () r' → I r' ∧ LowersBy f key (· ≠ n) r r' ∧ r'.LoweredBy f key K T n)
    (h : Yields (drain visit fuel) r u r') (hI : I r) (hcomp : ∀ n, r.computed? n ≠ some true)
    (hfresh : ∀ n, (∀ σ, ¬ r.Within key (fun s => f s.descending) n σ) ∨ r.Waits n) :
    I r' ∧ (∀ n σ, r'.Within key (fun s => f s.stable) n σ ↔ r.Within key (fun s => f s.stable) n σ) ∧
      (∀ n σ, r.Within key (fun s => f s.descending) n σ → r'.Within key (fun s => f s.descending) n σ) ∧
      ∀ n, r'.LoweredBy f key K T n ∨ ∀ σ, ¬ r'.Within key (fun s => f s.descending) n σ := by
  let J : Run Ω S → Prop := fun x => I x ∧
    (∀ n σ, x.Within key (fun s => f s.stable) n σ ↔ r.Within key (fun s => f s.stable) n σ) ∧
    (∀ n σ, r.Within key (fun s => f s.descending) n σ → x.Within key (fun s => f s.descending) n σ) ∧
    (∀ n, x.computed? n = some true → x.LoweredBy f key K T n) ∧
    ∀ n, x.LoweredBy f key K T n ∨ (∀ σ, ¬ x.Within key (fun s => f s.descending) n σ) ∨ x.Waits n
  have hstart : J r := ⟨hI, fun _ _ => Iff.rfl, fun _ _ h => h, fun n hn => absurd hn (hcomp n), fun n => .inr (hfresh n)⟩
  have hqueue : ∀ {x : Run Ω S} {n label : ℕ} {queue : List (ℕ × ℕ)},
      x.engine.worklist.queue = (n, label) :: queue → ∀ m, m ≠ n → x.Waits m → (x.pop queue).Waits m := by
    intro x n label queue hq m hm hw
    rw [Waits, Worklist.nodes, hq, List.map_cons, List.mem_cons] at hw
    exact hw.resolve_left hm
  have hJ := yields_drain (I := J) h hstart ?_ ?_
  · obtain ⟨⟨hI', hs, hg, -, hall⟩, hempty⟩ := hJ
    refine ⟨hI', hs, hg, fun n => ?_⟩
    rcases hall n with hn | hn | hw
    · exact .inl hn
    · exact .inr hn
    · rw [Waits, hempty] at hw
      cases hw
  · rintro x n label queue ⟨hx, hs, hg, hdone, hall⟩ hq hcomp
    refine ⟨hpop x queue hx, hs, hg, hdone, fun m => ?_⟩
    by_cases hmn : m = n
    · rw [hmn]
      exact .inl (hdone n hcomp)
    · exact (hall m).imp_right (.imp_right (hqueue hq m hmn))
  · rintro x n label queue x' ⟨hx, hs, hg, hdone, hall⟩ hq hv
    obtain ⟨hx', hlow, hn⟩ := hvisit (x.pop queue) n x' (hpop x queue hx) hv
    have hdone' : ∀ m, x'.computed? m = some true → x'.LoweredBy f key K T m := by
      intro m hm
      by_cases hmn : m = n
      · rw [hmn]
        exact hn
      · exact hlow.lowered (hdone m (hlow.computed m hmn hm))
    refine ⟨hx', fun m σ => (hlow.stable m σ).trans (hs m σ), fun m σ hd => hlow.grows m σ (hg m σ hd), hdone', fun m => ?_⟩
    by_cases hmn : m = n
    · rw [hmn]
      exact .inl hn
    · rcases hall m with hm | hm | hw
      · exact .inl (hlow.lowered hm)
      · rcases hlow.fresh m with hback | hw
        · exact .inr (.inl fun σ hd => hm σ (hback σ hd))
        · exact .inr (.inr hw)
      · exact .inr (.inr (hlow.waits m (hqueue hq m hmn hw)))

variable {su : Setup}

/-- The slots of a node at the start of a descending pass. -/
def ResetSlots (domain : Domain) (n : ℕ) (s s' : Slots Disjunction) : Prop :=
  ∃ d, s' = { s with descending := d } ∧ (n = 0 ∧ d = s.stable ∨ n ≠ 0 ∧ ∃ env, d = .single (.bottom domain env))

theorem yields_resetDescending {n : ℕ} {r r' : Run Ω S} {u : Unit} (h : Yields (resetDescending su n) r u r') :
    Rewrites su.key (· = n) (ResetSlots su.options.domain) r r' := by
  unfold resetDescending at h
  split at h
  · rename_i hn
    simp only [yields_bind, yields_slot] at h
    obtain ⟨d, r₁, ⟨⟨s, hs, rfl⟩, rfl⟩, h⟩ := h
    obtain ⟨s', hs', rfl⟩ := yields_setSlot h
    obtain rfl : s = s' := Option.some.inj (hs.symm.trans hs')
    exact .put hs ⟨_, rfl, .inl ⟨hn, rfl⟩⟩
  · rename_i hn
    simp only [yields_bind] at h
    obtain ⟨v, r₁, hv, h⟩ := h
    obtain ⟨⟨env, rfl⟩, rfl⟩ := yields_bottom hv
    obtain ⟨s, hs, rfl⟩ := yields_setSlot h
    exact .put hs ⟨_, rfl, .inr ⟨hn, env, rfl⟩⟩

/-- The result of a descending pass: every node leads into the descending values of its successors, or has no
descending store itself, and the entry descends from its stable value. -/
structure DescendedBy (f : Disjunction → Store → Prop) (key : Key) (K : ℕ → Store → Prop)
    (T : ℕ → Store → ℕ → Store → Prop) (r r' : Run Ω S) : Prop where
  stable : ∀ n σ, r'.Within key (fun s => f s.stable) n σ ↔ r.Within key (fun s => f s.stable) n σ
  entry : ∀ σ, r.Within key (fun s => f s.stable) 0 σ → r'.Within key (fun s => f s.descending) 0 σ
  lowered : ∀ n, r'.LoweredBy f key K T n ∨ ∀ σ, ¬ r'.Within key (fun s => f s.descending) n σ

abbrev Descended (key : Key) (K : ℕ → Store → Prop) (T : ℕ → Store → ℕ → Store → Prop) (r r' : Run Ω S) : Prop :=
  DescendedBy Firsts key K T r r'

theorem descend_spec {narrow : ℕ → Analysis Ω S Unit} {J : S → Ω → Prop} {r r' : Run Ω S} {u : Unit}
    (hbottom : ∀ env σ, ¬ f (.single (.bottom su.options.domain env)) σ)
    (hZ : ∀ n s s', ResetSlots su.options.domain n s s' → Z n s → Z n s')
    (hvisit : ∀ r n r', r.Regular su.key A Z → J r.memory r.engine.oracle → Yields (narrow n) r () r' →
      r'.Regular su.key A Z ∧ J r'.memory r'.engine.oracle ∧ LowersBy f su.key (· ≠ n) r r' ∧ r'.LoweredBy f su.key K T n)
    (h : Yields (descend su narrow) r u r') (hr : r.Regular su.key A Z) (hJ : J r.memory r.engine.oracle) :
    r'.Regular su.key A Z ∧ J r'.memory r'.engine.oracle ∧ DescendedBy f su.key K T r r' := by
  simp only [descend, resetComputed, clearWorklist, yields_bind, yields_modifyEngine, yields_push] at h
  obtain ⟨u₁, r₁, rfl, u₂, r₂, rfl, count, r₃, hcount, u₃, r₄, hreset, u₄, r₅, rfl, hdrain⟩ := h
  obtain ⟨rfl, rfl⟩ := yields_nodeCount hcount
  have hw := (yields_forM_rewrites List.nodup_range (fun n _ _ _ _ h => yields_resetDescending h) hreset).of_range rfl
  have hr₄ : r₄.Regular su.key A Z := hw.regular ⟨hr.arena, hr.blocks, hr.slots⟩ hZ
  have hstable : ∀ n σ, r₄.Within su.key (fun s => f s.stable) n σ ↔ r.Within su.key (fun s => f s.stable) n σ := by
    intro n σ
    constructor
    · rintro ⟨s', hs', hσ⟩
      obtain ⟨s, hs, ⟨-, d, rfl, -⟩ | ⟨hn, -⟩⟩ := hw.exists_slots hs'
      · exact ⟨s, hs, hσ⟩
      · exact absurd trivial hn
    · rintro ⟨s, hs, hσ⟩
      obtain ⟨s', hs', d, rfl, -⟩ := hw.slots n trivial s hs
      exact ⟨_, hs', hσ⟩
  have hentry : ∀ σ, r.Within su.key (fun s => f s.stable) 0 σ → r₄.Within su.key (fun s => f s.descending) 0 σ := by
    rintro σ ⟨s, hs, hσ⟩
    obtain ⟨s', hs', d, rfl, ⟨-, rfl⟩ | ⟨hn, -⟩⟩ := hw.slots 0 trivial s hs
    · exact ⟨_, hs', hσ⟩
    · exact absurd rfl hn
  have hempty : ∀ n σ, n ≠ 0 → ¬ r₄.Within su.key (fun s => f s.descending) n σ := by
    rintro n σ hn ⟨s', hs', hσ⟩
    obtain ⟨s, hs, ⟨-, d, rfl, ⟨hn', -⟩ | ⟨-, env, rfl⟩⟩ | ⟨hn', -⟩⟩ := hw.exists_slots hs'
    · exact hn hn'
    · exact hbottom env σ hσ
    · exact absurd trivial hn'
  have hpop : ∀ (x : Run Ω S) queue, (x.Regular su.key A Z ∧ J x.memory x.engine.oracle) →
      (x.pop queue).Regular su.key A Z ∧ J (x.pop queue).memory (x.pop queue).engine.oracle :=
    fun x queue hx => ⟨⟨hx.1.arena, hx.1.blocks, hx.1.slots⟩, hx.2⟩
  have hvisit' : ∀ (x : Run Ω S) n x', (x.Regular su.key A Z ∧ J x.memory x.engine.oracle) → Yields (narrow n) x () x' →
      (x'.Regular su.key A Z ∧ J x'.memory x'.engine.oracle) ∧ LowersBy f su.key (· ≠ n) x x' ∧ x'.LoweredBy f su.key K T n := by
    intro x n x' hx hv
    obtain ⟨h₁, h₂, h₃, h₄⟩ := hvisit x n x' hx.1 hx.2 hv
    exact ⟨⟨h₁, h₂⟩, h₃, h₄⟩
  have hstart : J r₄.memory r₄.engine.oracle := by
    rw [hw.memory, hw.oracle]
    exact hJ
  have hcomp : ∀ n, r₄.computed? n ≠ some true := by
    intro n hn
    simp only [computed?, hw.computed, List.getElem?_map] at hn
    cases hc : r.engine.computed[n]? <;> simp [hc] at hn
  obtain ⟨⟨hr', hJ'⟩, hs', hg', hlow⟩ := drain_lowered hpop hvisit' hdrain
    ⟨⟨hr₄.arena, hr₄.blocks, hr₄.slots⟩, hstart⟩ hcomp fun n => by
      by_cases hn : n = 0
      · exact .inr (Worklist.mem_nodes_push.mpr (.inl hn))
      · exact .inl fun σ => hempty n σ hn
  exact ⟨hr', hJ', fun n σ => (hs' n σ).trans (hstable n σ), fun σ hσ => hg' 0 σ (hentry σ hσ), hlow⟩

/-- What settling makes of the slots of a node, for techniques with single values. -/
theorem settled_eq {technique : Technique} {s s' : Slots Disjunction} {changed : Bool} (ht : technique ≠ .disjunctive)
    (h : settled technique s = .ok (s', changed)) :
    ∃ v, (s.descending.first.leq s.stable.first = true ∧ v = s.descending.first ∨
        s.descending.first.leq s.stable.first = false ∧ s.descending.first.meet s.stable.first = .ok v) ∧
      (s.stable.first.leq v = true ∧ s' = s ∨ s.stable.first.leq v = false ∧
        s' = { s with stable := (if technique = .lookahead then s.stable.set 1 v else s.stable).set 0 v }) := by
  have hlast : ∀ v d, (if s.stable.first.leq v = true then pure (s, false)
      else pure ({ s with stable := d }, true)) = Except.ok (ε := Fault) (s', changed) →
      s.stable.first.leq v = true ∧ s' = s ∨ s.stable.first.leq v = false ∧ s' = { s with stable := d } := by
    intro v d hv
    split at hv
    · rename_i hleq
      exact .inl ⟨hleq, (Prod.mk.inj (Except.ok.inj hv)).1.symm⟩
    · rename_i hleq
      exact .inr ⟨Bool.eq_false_iff.mpr hleq, (Prod.mk.inj (Except.ok.inj hv)).1.symm⟩
  have hbind : (do
      let v ← if s.descending.first.leq s.stable.first = true then pure s.descending.first
        else s.descending.first.meet s.stable.first
      if s.stable.first.leq v = true then pure (s, false)
      else pure ({ s with stable := (if technique = .lookahead then s.stable.set 1 v else s.stable).set 0 v }, true)) =
      Except.ok (s', changed) := by
    cases technique with
    | disjunctive => exact absurd rfl ht
    | _ => exact h
  cases hd : s.descending.first.leq s.stable.first with
  | true =>
    rw [hd] at hbind
    exact ⟨_, .inl ⟨rfl, rfl⟩, hlast _ _ hbind⟩
  | false =>
    rw [hd] at hbind
    cases hm : s.descending.first.meet s.stable.first with
    | error f =>
      rw [hm] at hbind
      cases hbind
    | ok v =>
      rw [hm] at hbind
      exact ⟨v, .inr ⟨rfl, rfl⟩, hlast _ _ hbind⟩

/-- Settling confines the stable value to the descending one. -/
theorem allows_settled {technique : Technique} {s s' : Slots Disjunction} {changed : Bool} {σ : Store}
    (ht : technique ≠ .disjunctive) (h : settled technique s = .ok (s', changed)) (hs : s.stable.first.OfKind k)
    (hd : s.descending.first.OfKind k) : s'.stable.first.Allows σ.point ↔
      s.stable.first.Allows σ.point ∧ s.descending.first.Allows σ.point := by
  obtain ⟨v, hv, hs'⟩ := settled_eq ht h
  have hnarrowed : v.OfKind k ∧
      (v.Allows σ.point ↔ s.stable.first.Allows σ.point ∧ s.descending.first.Allows σ.point) := by
    rcases hv with ⟨hleq, rfl⟩ | ⟨-, hmeet⟩
    · exact ⟨hd, fun h => ⟨Value.allows_of_leq hd hs hleq h, h⟩, fun h => h.2⟩
    · refine ⟨hd.meet hs hmeet, ?_⟩
      rw [Value.allows_meet hd hs hmeet (Environment.integralAt_point _ σ), and_comm]
  rcases hs' with ⟨hleq, rfl⟩ | ⟨-, rfl⟩
  · exact ⟨fun h => hnarrowed.2.mp (Value.allows_of_leq hs hnarrowed.1 hleq h), fun h => h.1⟩
  · exact hnarrowed.2

/-- Settling rewrites the slots of every node on its own. -/
theorem settle_rewrites {b : Bool} {r r' : Run Ω S} (h : Yields (settle su) r b r') :
    Rewrites su.key (fun _ => True) (fun _ s s' => ∃ c, settled su.options.technique s = .ok (s', c)) r r' := by
  simp only [settle, yields_bind, yields_pure] at h
  obtain ⟨count, r₁, hcount, bs, r₂, hmap, -, rfl⟩ := h
  obtain ⟨rfl, rfl⟩ := yields_nodeCount hcount
  refine Rewrites.of_range (yields_forM_rewrites List.nodup_range ?_ (yields_forM_of_mapM hmap)) rfl
  intro n _ x x' _ hx
  simp only [yields_bind, yields_slots, yields_ofFault, yields_pure] at hx
  obtain ⟨c, x₁, ⟨s, x₂, ⟨hs, rfl⟩, p, x₃, ⟨hp, rfl⟩, u, x₄, hset, -, rfl⟩, -, rfl⟩ := hx
  rw [yields_setSlots hset]
  exact .put hs ⟨p.2, hp⟩

theorem settle_spec {b : Bool} {r r' : Run Ω S} (ht : su.options.technique ≠ .disjunctive)
    (hZ : SlotLaw su.options.technique k K Z) (h : Yields (settle su) r b r') (hr : r.Regular su.key A Z) :
    r'.Regular su.key A Z ∧ r'.memory = r.memory ∧ r'.engine.oracle = r.engine.oracle ∧
      ∀ n σ, r'.Stable su.key n σ ↔ r.Stable su.key n σ ∧ r.Descending su.key n σ := by
  have hw := settle_rewrites h
  refine ⟨hw.regular hr fun n s s' hR hz => ?_, hw.memory, hw.oracle, fun n σ => ?_⟩
  · obtain ⟨c, hc⟩ := hR
    exact hZ.settle hz hc
  · cases hs : r.slots? su.key n with
    | none =>
      refine iff_of_false ?_ ?_
      · rintro ⟨s', hs', -⟩
        rw [hw.absent n hs] at hs'
        cases hs'
      · rintro ⟨⟨s', hs', -⟩, -⟩
        rw [hs] at hs'
        cases hs'
    | some s =>
      obtain ⟨s', hs', c, hc⟩ := hw.slots n trivial s hs
      have hz := hr.slots n s hs
      have hall := allows_settled (σ := σ) ht hc (hZ.stable hz) (hZ.descending hz)
      simp only [Run.Stable, Run.Descending, hs, hs', Option.some.injEq, exists_eq_left', hall]

/-- All nodes are covered, stable values have only shrunk, and that of the entry has not. -/
structure Narrowed (key : Key) (K : ℕ → Store → Prop) (T : ℕ → Store → ℕ → Store → Prop) (r r' : Run Ω S) : Prop where
  covered : ∀ n, r'.Covered key K T n
  shrinks : ∀ n σ, r'.Stable key n σ → r.Stable key n σ
  entry : ∀ σ, r.Stable key 0 σ → r'.Stable key 0 σ

/-- Settling after a descending pass keeps covered nodes covered: a store that stays was in the descending value,
so its node was visited and its successors stay too. -/
theorem settle_narrowed {b : Bool} {r r₁ r' : Run Ω S} (ht : su.options.technique ≠ .disjunctive)
    (hZ : SlotLaw su.options.technique k K Z) (h : Yields (settle su) r₁ b r') (hr : r₁.Regular su.key A Z)
    (hcov : ∀ n, r.Covered su.key K T n) (hd : Descended su.key K T r r₁) :
    r'.Regular su.key A Z ∧ r'.memory = r₁.memory ∧ r'.engine.oracle = r₁.engine.oracle ∧ Narrowed su.key K T r r' := by
  obtain ⟨hr', hmemory, horacle, hstable⟩ := settle_spec ht hZ h hr
  refine ⟨hr', hmemory, horacle, ⟨fun n σ p σ' hσ hs hstep => ?_, fun n σ hs => ?_, fun σ hs => ?_⟩⟩
  · obtain ⟨hs₁, hdesc⟩ := (hstable n σ).mp hs
    have hlow := (hd.lowered n).resolve_right fun hnone => hnone σ hdesc
    exact (hstable p σ').mpr ⟨(hd.stable p σ').mpr (hcov n σ p σ' hσ ((hd.stable n σ).mp hs₁) hstep),
      hlow σ p σ' hσ hs₁ hstep⟩
  · exact (hd.stable n σ).mp ((hstable n σ).mp hs).1
  · exact (hstable 0 σ).mpr ⟨(hd.stable 0 σ).mpr hs, hd.entry σ hs⟩

theorem SlotLaw.resets {technique : Technique} {domain : Domain} (hD : k.domain = domain) (hZ : SlotLaw technique k K Z) :
    ∀ n s s', ResetSlots domain n s s' → Z n s → Z n s' := by
  rintro n s s' ⟨d, rfl, ⟨rfl, rfl⟩ | ⟨hn, env, rfl⟩⟩ hz
  · exact hZ.reset hz
  · rw [← hD]
    exact hZ.clear env hz hn

section Passes

variable {narrow : ℕ → Analysis Ω S Unit} {J : S → Ω → Prop} {r r' : Run Ω S} {u : Unit}
  (hD : k.domain = su.options.domain) (ht : su.options.technique ≠ .disjunctive)
  (hZ : SlotLaw su.options.technique k K Z)
  (hvisit : ∀ r n r', r.Regular su.key A Z → J r.memory r.engine.oracle → Yields (narrow n) r () r' →
    r'.Regular su.key A Z ∧ J r'.memory r'.engine.oracle ∧ Lowers su.key (· ≠ n) r r' ∧ r'.Lowered su.key K T n)

include hD ht hZ hvisit

/-- However many passes follow, every one of them starts and ends with all nodes covered. -/
theorem descendAgain_spec {count : ℕ} {r₁ : Run Ω S} (h : Yields (descendAgain su narrow count) r₁ u r')
    (hr : r₁.Regular su.key A Z) (hJ : J r₁.memory r₁.engine.oracle) (hcov : ∀ n, r.Covered su.key K T n)
    (hd : Descended su.key K T r r₁) :
    r'.Regular su.key A Z ∧ J r'.memory r'.engine.oracle ∧ Narrowed su.key K T r r' := by
  induction count generalizing r r₁ with
  | zero =>
    simp only [descendAgain, yields_bind, yields_pure] at h
    obtain ⟨b, r₂, hsettle, -, rfl⟩ := h
    obtain ⟨hr', hmemory, horacle, hn⟩ := settle_narrowed ht hZ hsettle hr hcov hd
    exact ⟨hr', by rw [hmemory, horacle]; exact hJ, hn⟩
  | succ count ih =>
    simp only [descendAgain, yields_bind] at h
    obtain ⟨b, r₂, hsettle, h⟩ := h
    obtain ⟨hr₂, hmemory, horacle, hn⟩ := settle_narrowed ht hZ hsettle hr hcov hd
    have hJ₂ : J r₂.memory r₂.engine.oracle := by
      rw [hmemory, horacle]
      exact hJ
    cases b with
    | false =>
      obtain ⟨-, rfl⟩ := yields_pure.mp h
      exact ⟨hr₂, hJ₂, hn⟩
    | true =>
      simp only [if_true, yields_bind] at h
      obtain ⟨u₁, r₃, hdescend, u₂, r₄, hdeadline, h⟩ := h
      obtain ⟨hr₃, hJ₃, hd₃⟩ := descend_spec (fun _ _ => Value.not_allows_of_isBottom rfl _) (SlotLaw.resets hD hZ) hvisit
        hdescend hr₂ hJ₂
      obtain ⟨t, c, st, w, rfl⟩ := yields_checkDeadline hdeadline
      obtain ⟨hr', hJ', hn'⟩ := ih h ⟨hr₃.arena, hr₃.blocks, hr₃.slots⟩ hJ₃ hn.covered
        ⟨hd₃.stable, hd₃.entry, hd₃.lowered⟩
      exact ⟨hr', hJ', hn'.covered, fun n σ hs => hn.shrinks n σ (hn'.shrinks n σ hs),
        fun σ hs => hn'.entry σ (hn.entry σ hs)⟩

theorem descendRounds_spec {rounds : ℕ} (h : Yields (descendRounds su narrow rounds) r u r')
    (hr : r.Regular su.key A Z) (hJ : J r.memory r.engine.oracle) (hcov : ∀ n, r.Covered su.key K T n) :
    r'.Regular su.key A Z ∧ J r'.memory r'.engine.oracle ∧ Narrowed su.key K T r r' := by
  simp only [descendRounds, yields_bind] at h
  obtain ⟨u₁, r₁, hdescend, h⟩ := h
  obtain ⟨hr₁, hJ₁, hd₁⟩ := descend_spec (fun _ _ => Value.not_allows_of_isBottom rfl _) (SlotLaw.resets hD hZ) hvisit
    hdescend hr hJ
  exact descendAgain_spec hD ht hZ hvisit h hr₁ hJ₁ hcov hd₁

end Passes

end Analysis

namespace Run

variable {P : ℕ → Prop} {f : Disjunction → Store → Prop} {n : ℕ} {s s' : Slots Disjunction} {r r' : Run Ω S}

/-- The descending slot of one node has changed, and it waits. -/
structure Fills (key : Key) (n : ℕ) (s : Slots Disjunction) (r r' : Run Ω S) : Prop where
  arena : r'.arena = r.arena
  blocks : r'.blocks = r.blocks
  slots (m : ℕ) : r'.slots? key m = if m = n then some s else r.slots? key m
  waits (m : ℕ) : m = n ∨ r.Waits m → r'.Waits m
  computed (m : ℕ) : r'.computed? m = some true → r.computed? m = some true
  oracle : r'.engine.oracle = r.engine.oracle
  memory : r'.memory = r.memory

theorem Fills.of_quiet {r₁ : Run Ω S} (h : Fills key n s r₁ r') (hq : r.Quiet r₁) : Fills key n s r r' := by
  obtain ⟨t, c, st, w, rfl⟩ := hq
  exact ⟨h.arena, h.blocks, h.slots, h.waits, h.computed, h.oracle, h.memory⟩

theorem Fills.setComputed {r₁ : Run Ω S} {m : ℕ} {u : Unit} (h : Fills key n s r r₁)
    (hset : Yields (Analysis.setComputed m false) r₁ u r') : Fills key n s r r' := by
  obtain ⟨-, rfl⟩ := Analysis.yields_setComputed hset
  refine ⟨h.arena, h.blocks, h.slots, h.waits, fun i hi => h.computed i ?_, h.oracle, h.memory⟩
  rw [computed?, List.getElem?_set] at hi
  split at hi
  · split at hi <;> cases hi
  · exact hi

theorem Fills.regular (h : Fills key n s r r') (hr : r.Regular key A Z) (hs : Z n s) : r'.Regular key A Z := by
  refine ⟨h.arena.trans hr.arena, h.blocks.trans hr.blocks, fun m t hm => ?_⟩
  rw [h.slots] at hm
  split at hm
  · rename_i hmn
    cases hm
    rw [hmn]
    exact hs
  · exact hr.slots m t hm

theorem Fills.lowers (h : Fills key n s' r r') (hs : r.slots? key n = some s) (hstable : s'.stable = s.stable)
    (hg : ∀ σ : Store, f s.descending σ → f s'.descending σ) : LowersBy f key P r r' := by
  have hsame : ∀ m, m ≠ n → r'.slots? key m = r.slots? key m := fun m hm => by rw [h.slots, if_neg hm]
  have hn : r'.slots? key n = some s' := by rw [h.slots, if_pos rfl]
  refine ⟨fun m σ => ?_, fun m σ hd => ?_, fun m hw => h.waits m (.inr hw), fun m _ => h.computed m, fun m => ?_⟩
  · by_cases hm : m = n
    · rw [hm, Within, Within, hn, hs]
      simp only [Option.some.injEq, exists_eq_left', hstable]
    · rw [Within, Within, hsame m hm]
  · by_cases hm : m = n
    · rw [hm] at hd ⊢
      obtain ⟨t, ht, hσ⟩ := hd
      obtain rfl : s = t := Option.some.inj (hs.symm.trans ht)
      exact ⟨s', hn, hg σ hσ⟩
    · rw [Within, hsame m hm]
      exact hd
  · by_cases hm : m = n
    · exact .inr (h.waits m (.inl hm))
    · refine .inl fun σ hd => ?_
      rw [Within, hsame m hm] at hd
      exact hd

end Run

namespace Analysis

open Run

variable {su : Setup} {step : Block → Store → Block → Store → Prop}

theorem yields_joinDescending {n : ℕ} {v : Value} {r r' : Run Ω S} {u : Unit}
    (h : Yields (joinDescending su n v) r u r') : ∃ s w, r.slots? su.key n = some s ∧
      (s.descending.first.isBottom = true ∧ w = v ∨ s.descending.first.join v = .ok w) ∧
      r' = r.put su.key n { s with descending := s.descending.set 0 w } := by
  simp only [joinDescending, yields_bind, yields_value] at h
  obtain ⟨d, r₁, ⟨⟨s, hs, rfl⟩, rfl⟩, h⟩ := h
  have hput : ∀ w, Yields (setValue su n .descending w) r₁ u r' →
      r' = r₁.put su.key n { s with descending := s.descending.set 0 w } := by
    intro w hw
    obtain ⟨s', hs', rfl⟩ := yields_setDisjunct hw
    obtain rfl : s = s' := Option.some.inj (hs.symm.trans hs')
    rfl
  cases hb : s.descending.first.isBottom with
  | true =>
    simp only [Slots.get, hb, if_true, yields_bind, yields_pure] at h
    obtain ⟨w, r₂, ⟨rfl, rfl⟩, h⟩ := h
    exact ⟨s, w, hs, .inl ⟨hb, rfl⟩, hput w h⟩
  | false =>
    simp only [Slots.get, hb, Bool.false_eq_true, if_false, yields_bind, yields_ofFault] at h
    obtain ⟨w, r₂, ⟨hjoin, rfl⟩, h⟩ := h
    exact ⟨s, w, hs, .inr hjoin, hput w h⟩

theorem fills_put {n : ℕ} {s s' : Slots Disjunction} {r r' : Run Ω S} {u : Unit} (hs : r.slots? key n = some s)
    (h : Yields (push n) (r.put key n s') u r') : Fills key n s' r r' := by
  obtain rfl := yields_push.mp h
  exact ⟨rfl, r.blocks_put key n s', fun m => r.slots?_put key n s' m (by rw [hs]; rfl),
    fun m => Worklist.mem_nodes_push.mpr, fun m hm => hm, rfl, rfl⟩

/-- A join into the descending slot keeps what was there and adds the value. -/
theorem allows_joined {d : Disjunction} {v w : Value} (hd : d.first.OfKind k) (hv : v.OfKind k)
    (h : d.first.isBottom = true ∧ w = v ∨ d.first.join v = .ok w) (σ : Store)
    (hσ : d.first.Allows σ.point ∨ v.Allows σ.point) : w.Allows σ.point := by
  rcases h with ⟨hb, rfl⟩ | hjoin
  · exact hσ.resolve_left (Value.not_allows_of_isBottom hb _)
  · exact Value.allows_join hd hv hjoin hσ

theorem descendEdge_spec {P : ℕ → Prop} {n p : ℕ} {v : Value} {r r' : Run Ω S} {u : Unit}
    (ht : su.transfer.Follows k step) (hZ : SlotLaw su.options.technique k K Z)
    (h : Yields (descendEdge su n v p) r u r') (hr : r.Regular su.key A Z) (hv : v.OfKind k) :
    r'.Regular su.key A Z ∧ r'.memory = r.memory ∧ r'.engine.oracle = r.engine.oracle ∧ Lowers su.key P r r' ∧
      ∀ σ σ', v.Allows σ.point → A.EdgeStep step n σ p σ' → r'.Descending su.key p σ' := by
  simp only [descendEdge, yields_bind] at h
  obtain ⟨u₁, r₁, hstats, w, r₂, hedge, u₂, r₃, hjoin, hpush⟩ := h
  have hq₁ := yields_modifyStats hstats
  obtain ⟨hq₂, hw, himage⟩ := transformEdge_spec ht hedge (hr.quiet hq₁) hv
  obtain ⟨s, x, hs, hx, rfl⟩ := yields_joinDescending hjoin
  have hfills := (fills_put hs hpush).of_quiet (hq₁.trans hq₂)
  obtain ⟨t, c, st, w, rfl⟩ := hq₁.trans hq₂
  have hz := hr.slots p s hs
  refine ⟨hfills.regular hr (hZ.lower hz hw hx), hfills.memory, hfills.oracle, hfills.lowers hs rfl fun σ hσ => ?_,
    fun σ σ' hσ hstep => ⟨_, by rw [hfills.slots, if_pos rfl], ?_⟩⟩
  · exact allows_joined (hZ.descending hz) hw hx σ (.inl hσ)
  · exact allows_joined (hZ.descending hz) hw hx σ' (.inr (himage σ σ' hσ hstep))

theorem lowers_setComputed {f : Disjunction → Store → Prop} {n : ℕ} {b : Bool} {r r' : Run Ω S} {u : Unit}
    (h : Yields (setComputed n b) r u r') : LowersBy f key (· ≠ n) r r' := by
  obtain ⟨-, rfl⟩ := yields_setComputed h
  refine ⟨fun _ _ => Iff.rfl, fun _ _ hd => hd, fun _ hw => hw, fun m hm hc => ?_, fun _ => .inl fun _ hd => hd⟩
  rw [computed?, List.getElem?_set_ne fun hnm => hm hnm.symm] at hc
  exact hc

/-- A visit that takes the stable value of a node along its edges into the descending values lowers it. -/
theorem visit_lowered {f : Value → ℕ → Analysis Ω S Unit} {n : ℕ} {r r' : Run Ω S} {u : Unit}
    (hT : ∀ n σ p σ', T n σ p σ' → p ∈ A.successors n)
    (hf : ∀ s : Slots Disjunction, r.slots? su.key n = some s → ∀ p x x', x.Regular su.key A Z → x.memory = r.memory →
      Yields (f s.stable.first p) x () x' → x'.Regular su.key A Z ∧ x'.memory = x.memory ∧
        x'.engine.oracle = x.engine.oracle ∧ Lowers su.key (fun _ => True) x x' ∧
        ∀ σ σ', s.stable.first.Allows σ.point → T n σ p σ' → x'.Descending su.key p σ')
    (h : Yields (do
      setComputed n true
      let start ← value su n .stable
      ((← arena).successors n).forM (f start)) r u r') (hr : r.Regular su.key A Z) :
    r'.Regular su.key A Z ∧ r'.memory = r.memory ∧ r'.engine.oracle = r.engine.oracle ∧
      Lowers su.key (· ≠ n) r r' ∧ r'.Lowered su.key K T n := by
  simp only [yields_bind, yields_value, yields_arena] at h
  obtain ⟨u₁, r₁, hset, v, r₂, ⟨⟨s, hs, rfl⟩, rfl⟩, a, r₃, ⟨rfl, rfl⟩, h⟩ := h
  obtain ⟨-, heq⟩ := yields_setComputed hset
  have hslots : r.slots? su.key n = some s := by
    rw [heq] at hs
    exact hs
  have hr₃ : r₃.Regular su.key A Z := by
    rw [heq]
    exact ⟨hr.arena, hr.blocks, hr.slots⟩
  have hmemory : r₃.memory = r.memory := by rw [heq]
  have horacle : r₃.engine.oracle = r.engine.oracle := by rw [heq]
  have hset' : Lowers su.key (· ≠ n) r r₃ := lowers_setComputed hset
  obtain ⟨⟨hr', hm', ho', hlow⟩, hall, -⟩ := yields_forM
    (I := fun x => x.Regular su.key A Z ∧ x.memory = r.memory ∧ x.engine.oracle = r.engine.oracle ∧
      Lowers su.key (fun _ => True) r₃ x)
    (Q := fun p x => ∀ σ σ', s.stable.first.Allows σ.point → T n σ p σ' → x.Descending su.key p σ')
    h ⟨hr₃, hmemory, horacle, .quiet (.refl _)⟩ fun p _ x x' hx hp => by
      obtain ⟨hreg, hmem, horc, hlow⟩ := hx
      obtain ⟨hreg', hmem', horc', hlow', hdesc⟩ := hf s hslots p x x' hreg hmem hp
      exact ⟨⟨hreg', hmem'.trans hmem, horc'.trans horc, hlow.trans hlow'⟩, hdesc,
        fun q hq σ σ' hσ ht => hlow'.grows q σ' (hq σ σ' hσ ht)⟩
  have hlow' : Lowers su.key (· ≠ n) r₃ r' := hlow.mono fun _ _ => trivial
  refine ⟨hr', hm', ho', hset'.trans hlow', fun σ p σ' _ hstable ht => hall p ?_ σ σ' ?_ ht⟩
  · rw [hr₃.arena]
    exact hT n σ p σ' ht
  · obtain ⟨t, ht', hσ⟩ := (hlow.stable n σ).mp hstable
    obtain rfl : s = t := Option.some.inj (hs.symm.trans ht')
    exact hσ

end Analysis

end PathInvariants

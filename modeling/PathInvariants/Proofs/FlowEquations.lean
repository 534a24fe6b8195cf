import PathInvariants.Proofs.DescendingPasses
import PathInvariants.Proofs.EngineTermination
import PathInvariants.Proofs.KnownProperties
import PathInvariants.Proofs.PathListing

/-!
# Flow equations

A classic descending pass takes the stable value of every node along each of its edges once. What it leaves in
the descending slot of a node is a join of the images that arrive there, in the order of the visits. Joins of
values of one domain are least upper bounds, so for these the pass is one application of the flow equations,
whatever the order. Ranges that carry rows are no such values: a join of them keeps the rows of the operand that
came first.
-/
namespace PathInvariants

variable {Ω S : Type}

namespace Value

variable {domain : Domain} {env : Environment} {v w x y : Value} {vs ws : List Value}

/-- The join of values over one environment. -/
def joinAll (domain : Domain) (env : Environment) : List Value → Value
  | [] => .bottom domain env
  | v :: vs => v.joinOver env vs

theorem env_foldl_absorb (hv : v.env = env) (hws : ∀ w ∈ ws, w.env = env) : (ws.foldl absorb v).env = env := by
  induction ws generalizing v with
  | nil => exact hv
  | cons w ws ih =>
    obtain ⟨hw, hws⟩ := List.forall_mem_cons.mp hws
    exact ih (env_absorb hv hw) hws

/-- Above the value are those values of the domain that are above all of the given ones. -/
structure Bounds (domain : Domain) (vs : List Value) (x : Value) : Prop where
  ordered : x.isBottom = true ∨ x.Ordered domain
  least : ∀ u, u.Ordered domain → (x.leq u = true ↔ ∀ v ∈ vs, v.leq u = true)

namespace Bounds

theorem of_isBottom (hx : x.isBottom = true) : Bounds domain [] x :=
  ⟨.inl hx, fun u _ => iff_of_true (leq_of_isBottom hx u) (by simp)⟩

theorem singleton (hx : x.Ordered domain) : Bounds domain [x] x := ⟨.inr hx, fun u _ => by simp⟩

theorem absorb (h : Bounds domain vs x) (hw : w.Ordered domain) : Bounds domain (vs ++ [w]) (x.absorb w) := by
  unfold Value.absorb
  cases hx : x.isBottom with
  | true =>
    refine ⟨.inr hw, fun u hu => ?_⟩
    have hvs := (h.least u hu).mp (leq_of_isBottom hx u)
    rw [if_pos rfl, List.forall_mem_append, List.forall_mem_singleton]
    exact ⟨fun hwu => ⟨hvs, hwu⟩, fun hall => hall.2⟩
  | false =>
    have hordered := h.ordered.resolve_left (by simp [hx])
    refine ⟨.inr (hordered.joinAligned hw), fun u hu => ?_⟩
    rw [if_neg (by simp), hordered.joinAligned_leq_iff hw hu, h.least u hu, List.forall_mem_append,
      List.forall_mem_singleton]

theorem foldl (h : Bounds domain vs x) (hws : ∀ w ∈ ws, w.Ordered domain) :
    Bounds domain (vs ++ ws) (ws.foldl Value.absorb x) := by
  induction ws generalizing vs x with
  | nil => simpa using h
  | cons w ws ih =>
    obtain ⟨hw, hws⟩ := List.forall_mem_cons.mp hws
    simpa using ih (h.absorb hw) hws

theorem joinAll (hvs : ∀ v ∈ vs, v.Ordered domain) (henv : ∀ v ∈ vs, v.env = env) (other : Domain) :
    Bounds domain vs (joinAll other env vs) := by
  cases vs with
  | nil => exact of_isBottom rfl
  | cons v vs =>
    obtain ⟨hv, hvs⟩ := List.forall_mem_cons.mp hvs
    obtain ⟨henv, henvs⟩ := List.forall_mem_cons.mp henv
    refine ⟨.inr ⟨hv.kind.joinOver (fun w hw => (hvs w hw).kind) env,
      canonical_joinOver hv.canonical (fun w hw => (hvs w hw).canonical) env⟩, fun u hu => ?_⟩
    rw [List.forall_mem_cons]
    exact hv.joinOver_leq_iff hvs hu henv henvs

/-- What bounds the same values is the same up to the order. -/
theorem leq (hx : Bounds domain vs x) (hy : Bounds domain ws y) (h : ∀ v, v ∈ vs ↔ v ∈ ws) : x.leq y = true := by
  rcases hy.ordered with hbottom | hordered
  · -- Everything is below a bottom value of the domain.
    have hlow : (bottom domain y.env).Ordered domain := (Formed.bottom y.env).ordered
    have hall := (hy.least _ hlow).mp (leq_of_isBottom hbottom _)
    have hxlow := (hx.least _ hlow).mpr fun v hv => hall v ((h v).mp hv)
    refine leq_of_isBottom ?_ y
    by_contra hlive
    rw [Value.leq, if_neg hlive] at hxlow
    cases hxlow
  · rw [hx.least y hordered]
    exact fun v hv => (hy.least y hordered).mp (leq_refl y) v ((h v).mp hv)

theorem equals (hx : Bounds domain vs x) (hy : Bounds domain ws y) (h : ∀ v, v ∈ vs ↔ v ∈ ws) : x.equals y = true := by
  rw [Value.equals, Bool.and_eq_true]
  exact ⟨hx.leq hy h, hy.leq hx fun v => (h v).symm⟩

end Bounds

end Value

/-- The edges out of the given nodes. -/
def Arena.edgesFrom (a : Arena) (nodes : List ℕ) : List (ℕ × ℕ) := nodes.flatMap fun n => (a.successors n).map (n, ·)

/-- What a descending pass reads: the arena, and the environment and the slots of every node. -/
structure Snapshot where
  arena : Arena
  envs : ℕ → Environment
  slots : ℕ → Slots Disjunction

namespace Snapshot

variable {st : Snapshot} {key : Key} {x x' : Run Ω S} {n p : ℕ} {edges : List (ℕ × ℕ)}

def block (st : Snapshot) (n : ℕ) : Block := st.arena.blocks.getD n 0

/-- The image of the stable value of `m` along an edge to `p`, over the environment of `p`. -/
def image (st : Snapshot) (t : Transfer) (m p : ℕ) : Value :=
  (t.along (.edge (st.block m) (st.block p)) (st.slots m).stable.first).withEnv (st.envs p)

/-- The images that arrive at `p` along the edges. -/
def images (st : Snapshot) (t : Transfer) (edges : List (ℕ × ℕ)) (p : ℕ) : List Value :=
  (edges.filter (·.2 == p)).map fun e => st.image t e.1 p

/-- What the descending slot of `p` holds before anything arrives. -/
def source (st : Snapshot) (domain : Domain) (p : ℕ) : Disjunction :=
  if p = 0 then (st.slots 0).stable else .single (.bottom domain (st.envs p))

/-- The values that the flow equation of `p` joins: the images along all edges to `p` and, at the entry, its own
stable value. -/
def arriving (st : Snapshot) (t : Transfer) (p : ℕ) : List Value :=
  (if p = 0 then [(st.slots 0).stable.first] else []) ++ st.images t st.arena.pairs p

/-- The right-hand side of the flow equation of `p`. -/
def flow (st : Snapshot) (su : Setup) (p : ℕ) : Value :=
  .joinAll su.options.domain (st.envs p) (st.arriving su.transfer p)

/-- The descending slots of the listed nodes have been emptied. -/
def cleared (st : Snapshot) (domain : Domain) (nodes : List ℕ) : Snapshot :=
  { st with slots := fun p => if p ∈ nodes then { st.slots p with descending := st.source domain p } else st.slots p }

/-- The join of what arrives at `p` along the edges, in the order given. -/
def joined (st : Snapshot) (su : Setup) (edges : List (ℕ × ℕ)) (p : ℕ) : Value :=
  (st.images su.transfer edges p).foldl Value.absorb (st.source su.options.domain p).first

/-- The stable values have been taken along the edges into descending slots that were empty. -/
def after (st : Snapshot) (su : Setup) (edges : List (ℕ × ℕ)) : Snapshot where
  arena := st.arena
  envs := st.envs
  slots p := { st.slots p with descending := (st.source su.options.domain p).set 0 (st.joined su edges p) }

/-- The run has the arena, the environments and the slots of the snapshot. -/
structure At (key : Key) (st : Snapshot) (x : Run Ω S) : Prop where
  arena : x.arena = st.arena
  blocks : x.blocks = st.arena.blocks
  envs : ∀ n < st.arena.size, x.env? n = some (st.envs n)
  slots : ∀ n < st.arena.size, x.slots? key n = some (st.slots n)

/-- The snapshot with other slots at a node. -/
def put (st : Snapshot) (n : ℕ) (s : Slots Disjunction) : Snapshot := { st with slots := Function.update st.slots n s }

theorem At.congr (h : st.At key x) (hcontext : x'.engine.context = x.engine.context) : st.At key x' := by
  obtain ⟨harena, hblocks, henvs, hslots⟩ := h
  constructor
  · rwa [Run.arena, hcontext]
  · rwa [Run.blocks, hcontext]
  · intro n hn
    rw [Run.env?, hcontext]
    exact henvs n hn
  · intro n hn
    rw [Run.slots?, hcontext]
    exact hslots n hn

theorem At.put (h : st.At key x) (hn : n < st.arena.size) (s : Slots Disjunction) :
    (st.put n s).At key (x.put key n s) := by
  refine ⟨h.arena, (x.blocks_put key n s).trans h.blocks, fun m hm => ?_, fun m hm => ?_⟩
  · rw [Run.env?_put]
    exact h.envs m hm
  · rw [x.slots?_put key n s m (by rw [h.slots n hn]; rfl)]
    by_cases hmn : m = n
    · subst hmn
      simp [Snapshot.put]
    · simpa [Snapshot.put, hmn] using h.slots m hm

theorem At.nodes_length (h : st.At key x) : x.engine.context.nodes.length = st.arena.size := by
  simpa [Run.blocks, Arena.size] using congrArg List.length h.blocks

theorem At.block (h : st.At key x) (hn : n < st.arena.size) : x.blocks[n]? = some (st.block n) := by
  rw [h.blocks, Snapshot.block, List.getD_eq_getElem?_getD, List.getElem?_eq_getElem hn]
  rfl

theorem env_of_mem_images {t : Transfer} {w : Value} (hw : w ∈ st.images t edges p) : w.env = st.envs p := by
  obtain ⟨e, -, rfl⟩ := List.mem_map.mp hw
  rfl

theorem env_source (hentry : (st.slots 0).stable.first.env = st.envs 0) (domain : Domain) :
    (st.source domain p).first.env = st.envs p := by
  unfold source
  split
  · rename_i hp
    rw [hp]
    exact hentry
  · rfl

theorem joined_concat (st : Snapshot) (su : Setup) (edges : List (ℕ × ℕ)) (n p : ℕ) :
    st.joined su (edges ++ [(n, p)]) =
      Function.update (st.joined su edges) p ((st.joined su edges p).absorb (st.image su.transfer n p)) := by
  funext m
  by_cases hm : m = p
  · subst hm
    simp [joined, images]
  · simp [joined, images, hm, Ne.symm hm]

theorem after_concat (st : Snapshot) (su : Setup) (edges : List (ℕ × ℕ)) (n p : ℕ) {s : Slots Disjunction}
    (hs : s = (st.after su edges).slots p) :
    (st.after su edges).put p (s.set .descending
      (s.descending.set 0 (s.descending.first.absorb (st.image su.transfer n p)))) =
      st.after su (edges ++ [(n, p)]) := by
  subst hs
  simp only [put, after, joined_concat, mk.injEq, true_and]
  funext m
  by_cases hm : m = p
  · subst hm
    simp [Slots.set, Disjunction.set]
  · simp [hm]

theorem cleared_cons (st : Snapshot) (domain : Domain) (n : ℕ) (nodes : List ℕ) :
    (st.put n ((st.slots n).set .descending (st.source domain n))).cleared domain nodes =
      st.cleared domain (n :: nodes) := by
  have hstable : ∀ m, ((st.put n ((st.slots n).set .descending (st.source domain n))).slots m).stable =
      (st.slots m).stable := by
    intro m
    by_cases hm : m = n
    · subst hm
      simp [put, Slots.set]
    · simp [put, hm]
  have hsource : ∀ m, (st.put n ((st.slots n).set .descending (st.source domain n))).source domain m =
      st.source domain m := by
    intro m
    rw [source, hstable]
    rfl
  simp only [cleared, hsource, mk.injEq]
  refine ⟨rfl, rfl, funext fun m => ?_⟩
  by_cases hm : m = n
  · subst hm
    simp [put, Slots.set]
  · simp [put, hm]

end Snapshot

/-- The snapshot of a run under a key, with bottom where the key has no slots. -/
def Run.snapshot (r : Run Ω S) (key : Key) : Snapshot where
  arena := r.arena
  envs n := (r.env? n).getD .empty
  slots n := (r.slots? key n).getD (.filled (.single (.bottom .intervals .empty)))

theorem Run.at_snapshot {r : Run Ω S} {key : Key} (hblocks : r.blocks = r.arena.blocks)
    (henvs : ∀ n < r.arena.size, (r.env? n).isSome = true) (hslots : ∀ n < r.arena.size, (r.slots? key n).isSome = true) :
    (r.snapshot key).At key r where
  arena := rfl
  blocks := hblocks
  envs n hn := by
    obtain ⟨env, henv⟩ := Option.isSome_iff_exists.mp (henvs n hn)
    simp [snapshot, henv]
  slots n hn := by
    obtain ⟨s, hs⟩ := Option.isSome_iff_exists.mp (hslots n hn)
    simp [snapshot, hs]

namespace Analysis

open Run

variable {st : Snapshot} {su : Setup} {x : Run Ω S} {n p : ℕ}

theorem ensures_resetDescending_at (h : st.At su.key x) (hn : n < st.arena.size) :
    Ensures (resetDescending su n) x fun _ x' =>
      x' = x.put su.key n ((st.slots n).set .descending (st.source su.options.domain n)) := by
  unfold resetDescending Snapshot.source
  split
  · rename_i hzero
    subst hzero
    simp only [slot, ensures_bind, ensures_slots (h.slots 0 hn), ensures_pure, ensures_setSlot (h.slots 0 hn)]
    rfl
  · simp only [bottom, ensures_bind, ensures_env (h.envs n hn), ensures_pure, ensures_setSlot (h.slots n hn)]

theorem ensures_forM_resetDescending {nodes : List ℕ} (h : st.At su.key x) (hnodes : ∀ n ∈ nodes, n < st.arena.size) :
    Ensures (nodes.forM (resetDescending su)) x fun _ x' => (st.cleared su.options.domain nodes).At su.key x' ∧
      x'.engine.computed = x.engine.computed ∧ x'.engine.worklist = x.engine.worklist ∧
      x'.engine.stats = x.engine.stats := by
  induction nodes generalizing st x with
  | nil => exact ensures_pure.mpr ⟨by simpa [Snapshot.cleared] using h, rfl, rfl, rfl⟩
  | cons n nodes ih =>
    obtain ⟨hn, hnodes⟩ := List.forall_mem_cons.mp hnodes
    refine ensures_bind.mpr ((ensures_resetDescending_at h hn).mono ?_)
    rintro _ _ rfl
    rw [← Snapshot.cleared_cons]
    exact ih (h.put hn _) hnodes

theorem ensures_restart_at (h : st.At su.key x) : Ensures (restart su) x fun _ x' => (st.after su []).At su.key x' ∧
    x'.engine.computed = x.engine.computed.map (fun _ => false) ∧ (∀ m, x'.Waits m ↔ m = 0) ∧
    x'.engine.stats = x.engine.stats := by
  simp only [restart, resetComputed, clearWorklist, ensures_bind, ensures_modifyEngine, ensures_nodeCount, ensures_push,
    h.nodes_length]
  refine Ensures.mono (ensures_forM_resetDescending (show st.At su.key _ from h.congr rfl) fun n hn =>
    List.mem_range.mp hn) ?_
  rintro _ x' ⟨hat, hcomputed, hworklist, hstats⟩
  refine ⟨⟨hat.arena, hat.blocks, hat.envs, fun n hn => ?_⟩, hcomputed, fun m => ?_, hstats⟩
  · have hn' : n < st.arena.size := hn
    have hslots := hat.slots n hn
    simp only [Snapshot.cleared, List.mem_range, hn', if_true] at hslots
    exact hslots
  · simp only [Waits, Worklist.mem_nodes_push, hworklist]
    simp [Worklist.nodes, Worklist.empty]

/-- The stable values have been taken along `edges` as well, and the targets of these wait. -/
structure Carries (su : Setup) (st : Snapshot) (done edges : List (ℕ × ℕ)) (x x' : Run Ω S) : Prop where
  after : (st.after su (done ++ edges)).At su.key x'
  computed : x'.engine.computed = x.engine.computed
  waits : ∀ m, x'.Waits m ↔ m ∈ edges.map Prod.snd ∨ x.Waits m
  steps : x'.engine.stats.descendingSteps = x.engine.stats.descendingSteps + edges.length

theorem Carries.trans {x₁ x' : Run Ω S} {done edges more : List (ℕ × ℕ)} (h : Carries su st done edges x x₁)
    (h' : Carries su st (done ++ edges) more x₁ x') : Carries su st done (edges ++ more) x x' where
  after := List.append_assoc done edges more ▸ h'.after
  computed := h'.computed.trans h.computed
  waits m := by
    rw [h'.waits, h.waits, List.map_append, List.mem_append]
    tauto
  steps := by
    rw [h'.steps, h.steps, List.length_append]
    omega

section Edges

variable {done : List (ℕ × ℕ)} (ht : su.options.timeout = none) (hentry : (st.slots 0).stable.first.env = st.envs 0)

include ht

theorem ensures_image (h : (st.after su done).At su.key x) (hn : n < st.arena.size) (hp : p < st.arena.size) :
    Ensures (transformEdge su n p (st.slots n).stable.first) x fun w x' => w = st.image su.transfer n p ∧
      x'.engine.context = x.engine.context ∧ x'.engine.worklist = x.engine.worklist ∧
      x'.engine.computed = x.engine.computed ∧ x'.engine.stats = x.engine.stats := by
  simp only [transformEdge, transformNodes, transform, List.mapM_cons, List.mapM_nil, ensures_bind, ensures_pure,
    ensures_block, ensures_modifyEngine, ensures_checkDeadline ht]
  refine ⟨_, h.block hn, _, h.block hp, (ensures_env ?_).mpr ⟨rfl, rfl, rfl, rfl, rfl⟩⟩
  exact h.envs p hp

include hentry

theorem ensures_descendEdge_at (h : (st.after su done).At su.key x) (hn : n < st.arena.size) (hp : p < st.arena.size) :
    Ensures (descendEdge su n (st.slots n).stable.first p) x fun _ x' => Carries su st done [(n, p)] x x' := by
  simp only [descendEdge, modifyStats, ensures_bind, ensures_modifyEngine]
  refine Ensures.mono (ensures_image ht (show (st.after su done).At su.key _ from h.congr rfl) hn hp) ?_
  rintro _ x₁ ⟨rfl, hcontext, hworklist, hcomputed, hstats⟩
  have h₁ : (st.after su done).At su.key x₁ := h.congr hcontext
  have henv : ((st.after su done).slots p).descending.first.env = st.envs p :=
    Value.env_foldl_absorb (Snapshot.env_source hentry _) fun w hw => Snapshot.env_of_mem_images hw
  rw [ensures_joinDescending (h₁.slots p hp) henv, ensures_push]
  refine ⟨?_, hcomputed, fun m => ?_, by simp [put, hstats]⟩
  · rw [← Snapshot.after_concat st su done n p rfl]
    exact (h₁.put hp _).congr rfl
  · simp only [Waits, Worklist.mem_nodes_push, List.map_cons, List.map_nil, List.mem_singleton]
    rw [← hworklist]
    rfl

theorem ensures_forM_descendEdge (hn : n < st.arena.size) {targets : List ℕ} (htargets : ∀ p ∈ targets, p < st.arena.size)
    (h : (st.after su done).At su.key x) : Ensures (targets.forM (descendEdge su n (st.slots n).stable.first)) x
      fun _ x' => Carries su st done (targets.map (n, ·)) x x' := by
  induction targets generalizing done x with
  | nil => exact ensures_pure.mpr ⟨by simpa using h, rfl, by simp, rfl⟩
  | cons p targets ih =>
    obtain ⟨hp, htargets⟩ := List.forall_mem_cons.mp htargets
    refine ensures_bind.mpr ((ensures_descendEdge_at ht hentry h hn hp).mono fun _ x₁ h₁ => ?_)
    exact (ih htargets h₁.after).mono fun _ x' h' => h₁.trans h'

end Edges

/-- The run `x` comes from `r` by taking nodes from the worklist. Those that were not computed have been visited, and
they are listed in the order of their visits. -/
inductive Drains (visit : ℕ → Analysis Ω S Unit) (r : Run Ω S) : List ℕ → Run Ω S → Prop
  | start : Drains visit r [] r
  | skip {visited : List ℕ} {x : Run Ω S} {n label : ℕ} {queue : List (ℕ × ℕ)} (h : Drains visit r visited x)
      (hq : x.engine.worklist.queue = (n, label) :: queue) (hc : x.computed? n = some true) :
      Drains visit r visited (x.pop queue)
  | visit {visited : List ℕ} {x x' : Run Ω S} {n label : ℕ} {queue : List (ℕ × ℕ)} (h : Drains visit r visited x)
      (hq : x.engine.worklist.queue = (n, label) :: queue) (hc : x.computed? n = some false)
      (hvisit : Yields (visit n) (x.pop queue) () x') : Drains visit r (visited ++ [n]) x'

end Analysis

theorem Arena.edgesFrom_concat (a : Arena) (nodes : List ℕ) (n : ℕ) :
    a.edgesFrom (nodes ++ [n]) = a.edgesFrom nodes ++ (a.successors n).map (n, ·) := by
  simp [edgesFrom]

theorem Run.waits_pop {x : Run Ω S} {n m label : ℕ} {queue : List (ℕ × ℕ)}
    (hq : x.engine.worklist.queue = (n, label) :: queue) : x.Waits m ↔ m = n ∨ (x.pop queue).Waits m := by
  simp [Waits, Worklist.nodes, hq, pop]

namespace Classic

open Analysis Run

variable {st : Snapshot} {su : Setup} {r₀ x : Run Ω Unit} {visited : List ℕ} {n label : ℕ} {queue : List (ℕ × ℕ)}

theorem ensures_narrowNode_at {done : List (ℕ × ℕ)} (ht : su.options.timeout = none)
    (hentry : (st.slots 0).stable.first.env = st.envs 0) (hsucc : ∀ p ∈ st.arena.successors n, p < st.arena.size)
    (h : (st.after su done).At su.key x) (hn : n < st.arena.size) (hcomputed : n < x.engine.computed.length) :
    Ensures (narrowNode su n) x fun _ x' =>
      Carries su st done ((st.arena.successors n).map (n, ·)) (x.mark n true) x' := by
  have hmark : (st.after su done).At su.key (x.mark n true) := h.congr rfl
  rw [narrowNode, ensures_bind, ensures_setComputed hcomputed, ensures_bind, ensures_value (hmark.slots n hn), ensures_bind,
    ensures_arena, hmark.arena]
  exact ensures_forM_descendEdge ht hentry hn hsucc hmark

/-- A pass from `r₀` has come to `x`. It has visited the listed nodes, each of them once, and what it has found from
there is visited or waits. -/
structure Passing (su : Setup) (st : Snapshot) (r₀ : Run Ω Unit) (visited : List ℕ) (x : Run Ω Unit) : Prop where
  trace : Drains (narrowNode su) r₀ visited x
  after : (st.after su (st.arena.edgesFrom visited)).At su.key x
  steps : x.engine.stats.descendingSteps =
    r₀.engine.stats.descendingSteps + (st.arena.edgesFrom visited).length
  computed : ∀ n < st.arena.size, x.computed? n = some (decide (n ∈ visited))
  nodup : visited.Nodup
  inside : ∀ n, n ∈ visited ∨ x.Waits n → n < st.arena.size
  entry : 0 ∈ visited ∨ x.Waits 0
  successors : ∀ n ∈ visited, ∀ p ∈ st.arena.successors n, p ∈ visited ∨ x.Waits p

namespace Passing

theorem skip (h : Passing su st r₀ visited x) (hq : x.engine.worklist.queue = (n, label) :: queue)
    (hc : x.computed? n = some true) : Passing su st r₀ visited (x.pop queue) := by
  have hn : n < st.arena.size := h.inside n (.inr ((waits_pop hq).mpr (.inl rfl)))
  have hmem : n ∈ visited := by simpa [h.computed n hn] using hc
  have hkept : ∀ m, m ∈ visited ∨ x.Waits m → m ∈ visited ∨ (x.pop queue).Waits m := by
    intro m hm
    rw [waits_pop hq] at hm
    rcases hm with hm | rfl | hm
    · exact .inl hm
    · exact .inl hmem
    · exact .inr hm
  refine ⟨h.trace.skip hq hc, h.after.congr rfl, h.steps, h.computed, h.nodup, fun m hm => h.inside m ?_,
    hkept 0 h.entry, fun m hm p hp => hkept p (h.successors m hm p hp)⟩
  exact hm.imp_right fun hm => (waits_pop hq).mpr (.inr hm)

theorem visit (ht : su.options.timeout = none) (hentry : (st.slots 0).stable.first.env = st.envs 0)
    (hsucc : ∀ n < st.arena.size, ∀ p ∈ st.arena.successors n, p < st.arena.size) (h : Passing su st r₀ visited x)
    (hq : x.engine.worklist.queue = (n, label) :: queue) (hc : x.computed? n = some false) :
    Ensures (narrowNode su n) (x.pop queue) fun _ x' =>
      Passing su st r₀ (visited ++ [n]) x' ∧ x'.engine.computed = x.engine.computed.set n true := by
  have hn : n < st.arena.size := h.inside n (.inr ((waits_pop hq).mpr (.inl rfl)))
  have hnew : n ∉ visited := by simpa [h.computed n hn] using hc
  obtain ⟨hlength, -⟩ := List.getElem?_eq_some_iff.mp hc
  obtain ⟨u, x', hyields, hx'⟩ :=
    ensures_narrowNode_at ht hentry (hsucc n hn) (x := x.pop queue) (h.after.congr rfl) hn hlength
  have hwaits : ∀ m, x'.Waits m ↔ m ∈ st.arena.successors n ∨ (x.pop queue).Waits m := by
    intro m
    rw [hx'.waits]
    simp [Function.comp_def, Waits, mark]
  -- The node taken from the worklist is the one visited, so nothing is lost.
  have hkept : ∀ m, m ∈ visited ∨ x.Waits m → m ∈ visited ++ [n] ∨ x'.Waits m := by
    intro m hm
    rw [waits_pop hq] at hm
    rw [hwaits, List.mem_append, List.mem_singleton]
    tauto
  refine ⟨u, x', hyields, ⟨h.trace.visit hq hc hyields, ?_, ?_, fun m hm => ?_, ?_, fun m hm => ?_, hkept 0 h.entry,
    fun m hm p hp => ?_⟩, hx'.computed⟩
  · rw [Arena.edgesFrom_concat]
    exact hx'.after
  · have hsteps := h.steps
    rw [hx'.steps, Arena.edgesFrom_concat, List.length_append, ← Nat.add_assoc, ← hsteps]
    rfl
  · have hset : x'.computed? m = if n = m then some true else x.computed? m := by
      rw [computed?, hx'.computed]
      simp only [mark, pop, List.getElem?_set, hlength, if_true]
      rfl
    rw [hset, h.computed m hm]
    by_cases hmn : n = m
    · simp [hmn]
    · simp [hmn, Ne.symm hmn]
  · exact List.nodup_append'.mpr ⟨h.nodup, List.nodup_singleton n, by simpa using hnew⟩
  · rw [hwaits, List.mem_append, List.mem_singleton] at hm
    rcases hm with (hm | rfl) | hm | hm
    · exact h.inside m (.inl hm)
    · exact hn
    · exact hsucc n hn m hm
    · exact h.inside m (.inr ((waits_pop hq).mpr (.inr hm)))
  · rcases List.mem_append.mp hm with hm | hm
    · exact hkept p (h.successors m hm p hp)
    · rw [List.mem_singleton.mp hm] at hp
      exact .inr ((hwaits p).mpr (.inl hp))

theorem start (hentry : 0 < st.arena.size) (hat : (st.after su []).At su.key x)
    (hcomputed : ∀ n < st.arena.size, x.computed? n = some false) (hwaits : ∀ m, x.Waits m ↔ m = 0) :
    Passing su st x [] x where
  trace := .start
  after := hat
  steps := rfl
  computed n hn := by simpa using hcomputed n hn
  nodup := List.nodup_nil
  inside n hn := by
    rcases hn with hn | hn
    · cases hn
    · rwa [(hwaits n).mp hn]
  entry := .inr ((hwaits 0).mpr rfl)
  successors n hn := by cases hn

/-- A pass that has come to an end has visited what the entry reaches. -/
theorem mem_visited (h : Passing su st r₀ visited x) (hempty : x.engine.worklist = .empty)
    (hn : Flow.Reaches st.arena.successors 0 n) : n ∈ visited := by
  have hidle : ∀ m, ¬ x.Waits m := by simp [Waits, hempty, Worklist.nodes, Worklist.empty]
  induction hn with
  | refl => exact h.entry.resolve_right (hidle 0)
  | tail _ hp ih => exact (h.successors _ ih _ hp).resolve_right (hidle _)

end Passing

end Classic

/-- Whatever the order of the edges, what arrives along them bounds what the flow equation joins. -/
theorem Snapshot.joined_equals_flow {st : Snapshot} {su : Setup} {edges : List (ℕ × ℕ)} {p : ℕ} {domain : Domain}
    (hedges : edges.Perm st.arena.pairs) (hentry : (st.slots 0).stable.first.env = st.envs 0)
    (hordered : ∀ v ∈ st.arriving su.transfer p, v.Ordered domain) :
    (st.joined su edges p).equals (st.flow su p) = true := by
  have himages : (st.images su.transfer edges p).Perm (st.images su.transfer st.arena.pairs p) :=
    (hedges.filter _).map _
  have hsource : Value.Bounds domain (if p = 0 then [(st.slots 0).stable.first] else [])
      (st.source su.options.domain p).first := by
    unfold source
    split
    · rename_i hp
      exact .singleton (hordered _ (by simp [arriving, hp]))
    · exact .of_isBottom rfl
  have hjoined : Value.Bounds domain _ (st.joined su edges p) :=
    hsource.foldl fun w hw => hordered w (List.mem_append_right _ (himages.mem_iff.mp hw))
  have henv : ∀ v ∈ st.arriving su.transfer p, v.env = st.envs p := by
    intro v hv
    rcases List.mem_append.mp hv with hv | hv
    · split at hv
      · rename_i hp
        rw [List.mem_singleton.mp hv, hp, hentry]
      · cases hv
    · exact env_of_mem_images hv
  exact hjoined.equals (.joinAll hordered henv _) fun v => (himages.append_left _).mem_iff

namespace Classic

open Analysis Run

/-- What a classic descending pass makes of a run with the slots of the snapshot. -/
structure AppliesFlow (su : Setup) (st : Snapshot) (r r' : Run Ω Unit) : Prop where
  /-- Every node is visited once, and the descending slots hold joins in the order of the visits. -/
  visits : ∃ r₀ visited, Yields (restart su) r () r₀ ∧ Drains (narrowNode su) r₀ visited r' ∧
    r'.engine.worklist = .empty ∧ visited.Perm (List.range st.arena.size) ∧
    (st.after su (st.arena.edgesFrom visited)).At su.key r'
  steps : r'.engine.stats.descendingSteps = r.engine.stats.descendingSteps + st.arena.pairs.length
  /-- The other slots are as they were, and the descending one solves the flow equation if it joins values of one
  domain. -/
  flow : ∀ p < st.arena.size, ∃ d, r'.slots? su.key p = some { st.slots p with descending := d } ∧
    ∀ domain, (∀ v ∈ st.arriving su.transfer p, v.Ordered domain) → d.first.equals (st.flow su p) = true

/-- A classic descending pass is one application of the flow equations, for any transfer, any slots and any labels of
the nodes, which are what the order of the visits depends on. -/
theorem descend_appliesFlow {g : ControlFlow} (hg : g.Bounded) {labels : Array ℕ} {su : Setup}
    (ht : su.options.timeout = none) {st : Snapshot} (harena : st.arena = { Arena.build g with labels })
    (hentry : (st.slots 0).stable.first.env = st.envs 0) {r : Run Ω Unit} (hat : st.At su.key r)
    (hcomputed : r.engine.computed.length = st.arena.size) :
    Halts (fun ρ => descend (su.under ρ) (narrowNode (su.under ρ))) r fun _ r' => AppliesFlow su st r r' := by
  have hsize : st.arena.size = (Arena.build g).size := by simp only [harena, Arena.size]
  have hsuccessors : st.arena.successors = (Arena.build g).successors := by
    funext n
    simp only [harena, Arena.successors]
  have hpos : 0 < st.arena.size := by
    rw [hsize]
    exact (List.getElem?_eq_some_iff.mp (Arena.blocks_zero hg)).1
  have hsucc : ∀ n < st.arena.size, ∀ p ∈ st.arena.successors n, p < st.arena.size := by
    rw [hsize, hsuccessors]
    exact fun n hn p hp => Arena.successors_lt hg hn hp
  obtain ⟨u, r₀, hrestart, hat₀, hcomputed₀, hwaits₀, hstats₀⟩ := ensures_restart_at hat
  have hstart : Passing su st r₀ [] r₀ := by
    refine .start hpos hat₀ (fun n hn => ?_) hwaits₀
    rw [computed?, hcomputed₀, List.getElem?_map, List.getElem?_eq_getElem (hcomputed.symm ▸ hn)]
    rfl
  simp only [narrowNode_under ht]
  refine (halts_descending (I := fun x => ∃ visited, Passing su st r₀ visited x) ⟨u, r₀, hrestart, [], hstart⟩ ?_ ?_
    ?_).mono ?_
  · rintro x n ⟨visited, h⟩ hn
    exact ⟨_, h.computed n (h.inside n (.inr hn))⟩
  · rintro x n label queue ⟨visited, h⟩ hq hc
    exact ⟨visited, h.skip hq hc⟩
  · rintro x n label queue ⟨visited, h⟩ hq hc
    exact (h.visit ht hentry hsucc hq hc).mono fun _ x' h' => ⟨⟨_, h'.1⟩, h'.2⟩
  · rintro _ r' ⟨⟨visited, h⟩, hempty⟩
    have hperm : visited.Perm (List.range st.arena.size) := by
      refine (List.perm_ext_iff_of_nodup h.nodup List.nodup_range).mpr fun n => ?_
      rw [List.mem_range]
      refine ⟨fun hn => h.inside n (.inl hn), fun hn => h.mem_visited hempty ?_⟩
      rw [hsuccessors]
      exact Arena.reaches hg (hsize ▸ hn)
    have hedges : (st.arena.edgesFrom visited).Perm st.arena.pairs := hperm.flatMap_right _
    refine ⟨⟨r₀, visited, hrestart, h.trace, hempty, hperm, h.after⟩, ?_, fun p hp => ⟨_, h.after.slots p hp, ?_⟩⟩
    · rw [h.steps, hedges.length_eq, hstats₀]
    · exact fun domain hordered => Snapshot.joined_equals_flow hedges hentry hordered

/-- One pass over the counter gives the range at the head of its loop the join of what comes from the entry and what comes
back from the body. -/
theorem descend_appliesFlow_counter : let su := Program.counter.setup { ranges with timeout := none } .ample
    let st := overshot.snapshot su.key
    (st.arriving su.transfer 1).length = 2 ∧ ∃ ρ r' s, Yields (descend (su.under ρ) (narrowNode (su.under ρ))) overshot () r' ∧
      AppliesFlow su st overshot r' ∧ r'.slots? su.key 1 = some s ∧ s.descending.first.equals (st.flow su 1) = true := by
  intro su st
  obtain ⟨hblocks, henvs, hslots, harena, hentry, hcomputed⟩ : overshot.blocks = overshot.arena.blocks ∧
      (∀ n < overshot.arena.size, (overshot.env? n).isSome = true) ∧
      (∀ n < overshot.arena.size, (overshot.slots? su.key n).isSome = true) ∧
      st.arena = Arena.build Program.counter.graph.control ∧ (st.slots 0).stable.first.env = st.envs 0 ∧
      overshot.engine.computed.length = st.arena.size := by decide +kernel
  obtain ⟨N, u, r', hyields, h⟩ :=
    descend_appliesFlow Program.counter_wellFormed.bounded rfl harena hentry (at_snapshot hblocks henvs hslots) hcomputed
  obtain ⟨hsize, hlength, hvalues⟩ : 1 < st.arena.size ∧ (st.arriving su.transfer 1).length = 2 ∧
      ∀ v ∈ st.arriving su.transfer 1, v.domain = .intervals ∧ v.eqs = .empty := by decide +kernel
  have hordered : ∀ v ∈ st.arriving su.transfer 1, v.Ordered .intervals := by
    intro v hv
    obtain ⟨hdomain, heqs⟩ := hvalues v hv
    exact ⟨⟨hdomain, fun _ => heqs⟩, heqs ▸ Equalities.canonical_empty⟩
  obtain ⟨d, hslots, hflow⟩ := h.flow 1 hsize
  exact ⟨hlength, { su.resources with fuel := N }, r', _, hyields _ (Nat.le_refl N), h, hslots, hflow _ hordered⟩

end Classic

/-- Takes one of two ways, by which `y` is `x + 1` or `x`, to the same end. The first way is the longer one. -/
def fork : Program where
  name := "fork"
  declared := [("x", some .int), ("y", some .int)]
  graph :=
    { payloads := [⟨[], none⟩, ⟨[], none⟩, ⟨[], none⟩, ⟨[], none⟩, ⟨[], none⟩]
      roles := []
      edges := [(0, 1, [.eq (.var "y" - .var "x" - .const 1)]), (0, 2, [.eq (.var "y" - .var "x")]), (1, 3, []),
        (3, 4, []), (2, 4, [])] }

/-- The fork after the ascending pass of ranges that know the equalities of another run. -/
def forked : Run SearchOracle Unit :=
  let su := fork.setup Classic.rangesOver .ample
  let context := (analyze (fork.setup { technique := .classic } .ample) "f" (.build fork.graph.control)).2
  ((do Analysis.prepare su; Analysis.ascend su (Classic.computeNode su) true : Analysis SearchOracle Unit Unit).run.run
    ⟨.new Classic.rangesOver context (.new fork.graph.control fork.transfer), ()⟩).2

/-- Ranges that have taken over rows are joined in the order of the visits: at the end of the fork the pass keeps a row
that an image does not have. -/
theorem flow_depends_on_order : let su := fork.setup { Classic.rangesOver with timeout := none } .ample
    let st := forked.snapshot su.key
    st.At su.key forked ∧ st.arena = Arena.build fork.graph.control ∧ (st.slots 0).stable.first.env = st.envs 0 ∧
      forked.engine.computed.length = st.arena.size ∧ ∃ r' s v, Yields (Analysis.descend su (Classic.narrowNode su)) forked () r' ∧
      r'.slots? su.key 4 = some s ∧ v ∈ st.arriving su.transfer 4 ∧ v.leq s.descending.first = false ∧
      s.descending.first.equals (st.flow su 4) = false := by
  intro su st
  obtain ⟨hblocks, henvs, hslots, harena, hentry, hcomputed⟩ : forked.blocks = forked.arena.blocks ∧
      (∀ n < forked.arena.size, (forked.env? n).isSome = true) ∧
      (∀ n < forked.arena.size, (forked.slots? su.key n).isSome = true) ∧
      st.arena = Arena.build fork.graph.control ∧ (st.slots 0).stable.first.env = st.envs 0 ∧
      forked.engine.computed.length = st.arena.size := by decide +kernel
  obtain ⟨hend, hend', hflow⟩ : ((Analysis.descend su (Classic.narrowNode su)).run.run forked).1.toOption = some () ∧
      (((Analysis.descend su (Classic.narrowNode su)).run.run forked).2.slots? su.key 4).isSome = true ∧
      ((((Analysis.descend su (Classic.narrowNode su)).run.run forked).2.slots? su.key 4).all fun s =>
        (st.arriving su.transfer 4).any (fun v => !v.leq s.descending.first) &&
          !s.descending.first.equals (st.flow su 4)) = true := by decide +kernel
  obtain ⟨s, hs⟩ := Option.isSome_iff_exists.mp hend'
  rw [hs, Option.all_some, Bool.and_eq_true, List.any_eq_true] at hflow
  obtain ⟨⟨v, hv, hleq⟩, hequals⟩ := hflow
  exact ⟨Run.at_snapshot hblocks henvs hslots, harena, hentry, hcomputed, _, s, v, yields_of_toOption hend, hs, hv,
    by simpa using hleq, by simpa using hequals⟩

end PathInvariants

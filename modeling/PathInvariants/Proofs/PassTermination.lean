import PathInvariants.Proofs.TotalRuns

/-!
# Termination of passes

An ascending pass ends because every visit that changes a widening point lowers the height of its
value, and any other visit replaces one owed node by nodes that come later in the search order, where
back edges lead to widening points only. A descending pass ends because it visits every node once.
-/
namespace PathInvariants

variable {Ω S α β : Type}

/-- With enough fuel the computation ends, always in the same way, and what it gives satisfies `Q`. -/
def Halts (m : Resources → Analysis Ω S α) (r : Run Ω S) (Q : α → Run Ω S → Prop) : Prop :=
  ∃ N a r', (∀ ρ : Resources, N ≤ ρ.fuel → Yields (m ρ) r a r') ∧ Q a r'

theorem Ensures.halts {m : Analysis Ω S α} {r : Run Ω S} {Q : α → Run Ω S → Prop} (h : Ensures m r Q) :
    Halts (fun _ => m) r Q := by
  obtain ⟨a, r', hm, hQ⟩ := h
  exact ⟨0, a, r', fun _ _ => hm, hQ⟩

theorem Halts.mono {m : Resources → Analysis Ω S α} {r : Run Ω S} {Q Q' : α → Run Ω S → Prop} (h : Halts m r Q)
    (hQ : ∀ a r', Q a r' → Q' a r') : Halts m r Q' := by
  obtain ⟨N, a, r', hm, ha⟩ := h
  exact ⟨N, a, r', hm, hQ a r' ha⟩

theorem Halts.bind {m : Resources → Analysis Ω S α} {f : Resources → α → Analysis Ω S β} {r : Run Ω S}
    {Q : β → Run Ω S → Prop} (h : Halts m r fun a r₁ => Halts (fun ρ => f ρ a) r₁ Q) :
    Halts (fun ρ => m ρ >>= f ρ) r Q := by
  obtain ⟨N, a, r₁, hm, N', b, r', hf, hQ⟩ := h
  refine ⟨max N N', b, r', fun ρ hρ => yields_bind.mpr ⟨a, r₁, hm ρ ?_, hf ρ ?_⟩, hQ⟩
  · exact (le_max_left N N').trans hρ
  · exact (le_max_right N N').trans hρ

/-- The computation comes to the end of its fuel. -/
def Exhausts (m : Analysis Ω S α) (r : Run Ω S) : Prop := ∃ r', m.run.run r = (.error .outOfFuel, r')

theorem exhausts_throw (r : Run Ω S) : Exhausts (throw .outOfFuel : Analysis Ω S α) r := ⟨r, rfl⟩

theorem Exhausts.not_yields {m : Analysis Ω S α} {r r' : Run Ω S} {a : α} (h : Exhausts m r) : ¬ Yields m r a r' := by
  obtain ⟨r₁, hm⟩ := h
  intro hyields
  cases hm.symm.trans hyields

theorem Exhausts.bind {m : Analysis Ω S α} {r : Run Ω S} (h : Exhausts m r) (f : α → Analysis Ω S β) :
    Exhausts (m >>= f) r := by
  obtain ⟨r', hm⟩ := h
  refine ⟨r', ?_⟩
  simp only [ExceptT.run_bind, StateT.run_bind]
  rw [hm]
  rfl

theorem Yields.exhausts_bind {m : Analysis Ω S α} {f : α → Analysis Ω S β} {r r₁ : Run Ω S} {a : α} (h : Yields m r a r₁)
    (hf : Exhausts (f a) r₁) : Exhausts (m >>= f) r := by
  rwa [Exhausts, h.run_bind]

/-- The setup with other resources. -/
def Setup.under (su : Setup) (ρ : Resources) : Setup := { su with resources := ρ }

namespace Analysis

open Run

/-- Without a deadline the clock is read and nothing else. -/
theorem checkDeadline_under {su : Setup} (ht : su.options.timeout = none) (ρ : Resources) :
    (checkDeadline (su.under ρ) : Analysis Ω S Unit) = checkDeadline su := by
  have hexpired : ∀ elapsed, su.options.isExpired elapsed = false := by simp [Options.isExpired, ht]
  simp only [checkDeadline, Setup.under, hexpired, Bool.false_eq_true, if_false]

theorem yields_pop?_empty {r : Run Ω S} (h : r.engine.worklist = .empty) : Yields pop? r none r := by
  simp only [pop?, yields_bind, yields_engine]
  refine ⟨_, _, ⟨rfl, rfl⟩, ?_⟩
  rw [h]
  exact yields_pure.mpr ⟨rfl, rfl⟩

theorem yields_pop?_cons {r : Run Ω S} {n label : ℕ} {queue : List (ℕ × ℕ)}
    (h : r.engine.worklist.queue = (n, label) :: queue) : Yields pop? r (some n) (r.pop queue) := by
  simp only [pop?, yields_bind, yields_engine]
  refine ⟨_, _, ⟨rfl, rfl⟩, ?_⟩
  rw [Worklist.pop?, h]
  exact yields_bind.mpr ⟨(), _, yields_modifyEngine.mpr rfl, yields_pure.mpr ⟨rfl, rfl⟩⟩

theorem yields_drain_empty {visit : ℕ → Analysis Ω S Unit} {r : Run Ω S} (h : r.engine.worklist = .empty) (fuel : ℕ) :
    Yields (drain visit (fuel + 1)) r () r :=
  yields_bind.mpr ⟨none, r, yields_pop?_empty h, yields_pure.mpr ⟨rfl, rfl⟩⟩

/-- The first node of the worklist is left out if it is computed, and visited otherwise. -/
theorem run_drain_cons {visit : ℕ → Analysis Ω S Unit} {r : Run Ω S} {n label : ℕ} {queue : List (ℕ × ℕ)} {b : Bool}
    (h : r.engine.worklist.queue = (n, label) :: queue) (hb : r.computed? n = some b) (fuel : ℕ) :
    (drain visit (fuel + 1)).run.run r =
      (if b then drain visit fuel else visit n >>= fun _ => drain visit fuel).run.run (r.pop queue) := by
  have hcomputed : Yields (isComputed n) (r.pop queue) b (r.pop queue) := yields_isComputed.mpr ⟨hb, rfl⟩
  rw [drain, (yields_pop?_cons h).run_bind]
  dsimp only
  rw [hcomputed.run_bind]

/-- A loop over the worklist halts if every node taken from it brings the run down a well-founded relation. -/
theorem halts_drain (visit : Resources → ℕ → Analysis Ω S Unit) {I : Run Ω S → Prop} {rel : Run Ω S → Run Ω S → Prop}
    (hwf : WellFounded rel) (hwait : ∀ r n, I r → r.Waits n → ∃ b, r.computed? n = some b)
    (hskip : ∀ r n label queue, I r → r.engine.worklist.queue = (n, label) :: queue → r.computed? n = some true →
      I (r.pop queue) ∧ rel (r.pop queue) r)
    (hvisit : ∀ r n label queue, I r → r.engine.worklist.queue = (n, label) :: queue → r.computed? n = some false →
      Halts (fun ρ => visit ρ n) (r.pop queue) fun _ r' => I r' ∧ rel r' r) {r : Run Ω S} (hI : I r) :
    Halts (fun ρ => drain (visit ρ) ρ.fuel) r fun _ r' => I r' ∧ r'.engine.worklist = .empty := by
  have hall : ∃ N r', (∀ ρ : Resources, ∀ fuel, N ≤ ρ.fuel → N ≤ fuel → Yields (drain (visit ρ) fuel) r () r') ∧ I r' ∧
      r'.engine.worklist = .empty := by
    induction r using hwf.induction with
    | _ r ih =>
    cases hw : r.engine.worklist with
    | mk queue =>
      cases queue with
      | nil =>
        refine ⟨1, r, fun ρ fuel _ hfuel => ?_, hI, hw⟩
        obtain ⟨fuel, rfl⟩ := Nat.exists_eq_add_of_le' hfuel
        exact yields_drain_empty hw fuel
      | cons a queue =>
        obtain ⟨n, label⟩ := a
        have hqueue : r.engine.worklist.queue = (n, label) :: queue := by rw [hw]
        obtain ⟨b, hb⟩ := hwait r n hI (by simp [Waits, Worklist.nodes, hqueue])
        -- Whatever is done with the node, the rest of the loop goes on from a lower state.
        have hgo : ∃ M r₁, rel r₁ r ∧ I r₁ ∧ ∀ (ρ : Resources) (fuel : ℕ) (r' : Run Ω S), M ≤ ρ.fuel →
            Yields (drain (visit ρ) fuel) r₁ () r' → Yields (drain (visit ρ) (fuel + 1)) r () r' := by
          cases b with
          | true =>
            obtain ⟨hpop, hrel⟩ := hskip r n label queue hI hqueue hb
            refine ⟨0, _, hrel, hpop, fun ρ fuel r' _ h => ?_⟩
            rwa [Yields, run_drain_cons hqueue hb]
          | false =>
            obtain ⟨M, u, r₁, hv, hr₁, hrel⟩ := hvisit r n label queue hI hqueue hb
            refine ⟨M, r₁, hrel, hr₁, fun ρ fuel r' hρ h => ?_⟩
            rw [Yields, run_drain_cons hqueue hb]
            exact yields_bind.mpr ⟨u, r₁, hv ρ hρ, h⟩
        obtain ⟨M, r₁, hrel, hr₁, hstep⟩ := hgo
        obtain ⟨N, r', hdrain, hr'⟩ := ih r₁ hrel hr₁
        refine ⟨max M N + 1, r', fun ρ fuel hρ hfuel => ?_, hr'⟩
        obtain ⟨fuel, rfl⟩ := Nat.exists_eq_add_of_le' ((Nat.le_add_left 1 _).trans hfuel)
        exact hstep ρ fuel r' (by omega) (hdrain ρ fuel (by omega) (by omega))
  obtain ⟨N, r', hdrain, hr'⟩ := hall
  exact ⟨N, (), r', fun ρ hρ => hdrain ρ ρ.fuel hρ hρ, hr'⟩

end Analysis

/-- Weights for which a node outweighs all nodes of higher rank together. -/
theorem exists_weight (rank : ℕ → ℕ) (size : ℕ) : ∃ weight : ℕ → ℕ, ∀ n < size,
    ∑ t ∈ (Finset.range size).filter (rank n < rank ·), weight t < weight n := by
  let top := (Finset.range size).sup rank
  refine ⟨fun n => (size + 1) ^ (top - rank n), fun n hn => ?_⟩
  have hle : ∀ t ∈ (Finset.range size).filter (rank n < rank ·),
      (size + 1) ^ (top - rank t) ≤ (size + 1) ^ (top - rank n - 1) := by
    intro t ht
    obtain ⟨-, hrank⟩ := Finset.mem_filter.mp ht
    exact Nat.pow_le_pow_right (by omega) (by omega)
  by_cases hempty : (Finset.range size).filter (rank n < rank ·) = ∅
  · rw [hempty, Finset.sum_empty]
    exact Nat.pow_pos (by omega)
  · obtain ⟨t, ht⟩ := Finset.nonempty_iff_ne_empty.mpr hempty
    obtain ⟨hlt, hrank⟩ := Finset.mem_filter.mp ht
    have htop : rank t ≤ top := Finset.le_sup hlt
    calc ∑ t ∈ (Finset.range size).filter (rank n < rank ·), (size + 1) ^ (top - rank t)
        ≤ ((Finset.range size).filter (rank n < rank ·)).card • (size + 1) ^ (top - rank n - 1) :=
          Finset.sum_le_card_nsmul _ _ _ hle
      _ ≤ size * (size + 1) ^ (top - rank n - 1) := by
          rw [smul_eq_mul]
          refine Nat.mul_le_mul_right _ ((Finset.card_filter_le _ _).trans ?_)
          rw [Finset.card_range]
      _ < (size + 1) * (size + 1) ^ (top - rank n - 1) := by
          refine Nat.mul_lt_mul_of_pos_right (by omega) (Nat.pow_pos (by omega))
      _ = (size + 1) ^ (top - rank n) := by
          rw [← pow_succ', show top - rank n - 1 + 1 = top - rank n by omega]

namespace Run

variable {key : Key} {L : Layout} {rank : ℕ → ℕ} {n : ℕ} {r r₁ r' : Run Ω S}

/-- The height of the stable value of a widening point. -/
noncomputable def heightAt (r : Run Ω S) (key : Key) (L : Layout) (n : ℕ) : WithTop ℕ ×ₗ WithTop ℕ :=
  if L.arena.cuts.isWidening n then
    (r.slots? key n).elim (toLex (0, 0)) fun s => s.stable.first.height (Value.candidates L.thresholds)
  else toLex (0, 0)

/-- The heights of the stable values of all widening points. -/
noncomputable def heights (r : Run Ω S) (key : Key) (L : Layout) : Fin L.arena.size → WithTop ℕ ×ₗ WithTop ℕ :=
  fun n => r.heightAt key L n

open Classical in
/-- The weight of the owed nodes. -/
noncomputable def debt (r : Run Ω S) (L : Layout) (weight : ℕ → ℕ) : ℕ :=
  ∑ t ∈ (Finset.range L.arena.size).filter fun t => r.Owed t, weight t

/-- A widening point has come down in height, or none has changed and only nodes of a rank higher than that of `n`
have become owed. -/
def Ascends (key : Key) (L : Layout) (rank : ℕ → ℕ) (n : ℕ) (r r' : Run Ω S) : Prop :=
  r'.heights key L < r.heights key L ∨
    r'.heights key L = r.heights key L ∧ ∀ t, r'.Owed t → r.Owed t ∨ rank n < rank t

/-- A widening point with a known property has got a value that is not below the one it had, and not lower in height: the
meet with what is known has taken back what the widening had given up. -/
def Regains (key : Key) (candidates : Symbol → Finset ℤ) (t : ℕ) (r r' : Run Ω S) : Prop :=
  r.arena.cuts.isWidening t = true ∧ ∃ s s', r.slots? key t = some s ∧ r'.slots? key t = some s' ∧
    s.known.first.isBottom = false ∧ s'.stable.first.leq s.stable.first = false ∧
    ¬ s'.stable.first.height candidates < s.stable.first.height candidates

theorem heights_congr (h : ∀ n, r'.slots? key n = r.slots? key n) : r'.heights key L = r.heights key L := by
  funext n
  simp only [heights, heightAt, h]

theorem Alike.ascends (h : Alike key r r') : Ascends key L rank n r r' := by
  refine .inr ⟨heights_congr h.slots, fun t ht => .inl ?_⟩
  rwa [Owed, Waits, computed?, h.worklist, h.computed] at ht

theorem Ascends.trans (h : Ascends key L rank n r r₁) (h' : Ascends key L rank n r₁ r') :
    Ascends key L rank n r r' := by
  rcases h' with hlt' | ⟨heq', howed'⟩
  · rcases h with hlt | ⟨heq, -⟩
    · exact .inl (hlt'.trans hlt)
    · exact .inl (heq ▸ hlt')
  · rcases h with hlt | ⟨heq, howed⟩
    · exact .inl (heq' ▸ hlt)
    · refine .inr ⟨heq'.trans heq, fun t ht => ?_⟩
      rcases howed' t ht with ht | ht
      · exact howed t ht
      · exact .inr ht

theorem ascends_mark (r : Run Ω S) (n : ℕ) : Ascends key L rank n r (r.mark n true) := by
  refine .inr ⟨rfl, fun t ht => .inl ⟨ht.1, fun hc => ht.2 ?_⟩⟩
  rw [computed?, Run.mark, List.getElem?_set]
  split
  · rename_i hnt
    obtain ⟨hlt, -⟩ := List.getElem?_eq_some_iff.mp hc
    rw [if_pos (hnt ▸ hlt)]
  · exact hc

section Stores

variable {p : ℕ} {s s' : Slots Disjunction} (h : Stores key p s' r r') (hs : r.slots? key p = some s)

include h

theorem Stores.heightAt_ne {m : ℕ} (hm : m ≠ p) : r'.heightAt key L m = r.heightAt key L m := by
  rw [heightAt, heightAt, h.slots, if_neg hm]

theorem Stores.heights_eq (hw : L.arena.cuts.isWidening p = false) : r'.heights key L = r.heights key L := by
  funext m
  by_cases hm : (m : ℕ) = p
  · simp only [heights, heightAt, hm, hw, Bool.false_eq_true, if_false]
  · exact h.heightAt_ne hm

include hs

theorem Stores.heights_le (hle : s'.stable.first.height (Value.candidates L.thresholds) ≤
    s.stable.first.height (Value.candidates L.thresholds)) : r'.heights key L ≤ r.heights key L := by
  intro m
  by_cases hm : (m : ℕ) = p
  · simp only [heights, heightAt, hm, h.slots, hs, if_true, Option.elim_some]
    split
    · exact hle
    · exact le_rfl
  · exact (h.heightAt_ne hm).le

theorem Stores.heights_lt (hp : p < L.arena.size) (hw : L.arena.cuts.isWidening p = true)
    (hlt : s'.stable.first.height (Value.candidates L.thresholds) < s.stable.first.height (Value.candidates L.thresholds)) :
    r'.heights key L < r.heights key L := by
  refine Pi.lt_def.mpr ⟨h.heights_le hs hlt.le, ⟨p, hp⟩, ?_⟩
  simp only [heights, heightAt, h.slots, hw, hs, if_true, Option.elim_some]
  exact hlt

/-- A value that takes the place of a stable one is lower if its node is a widening point, and otherwise makes a
node of higher rank owed. -/
theorem Stores.ascends (hp : p < L.arena.size)
    (hlower : L.arena.cuts.isWidening p = true → s'.stable.first.height (Value.candidates L.thresholds) <
      s.stable.first.height (Value.candidates L.thresholds))
    (hrank : L.arena.cuts.isWidening p = false → rank n < rank p) : Ascends key L rank n r r' := by
  cases hw : L.arena.cuts.isWidening p with
  | true => exact .inl (h.heights_lt hs hp hw (hlower hw))
  | false =>
    refine .inr ⟨h.heights_eq hw, fun t ht => ?_⟩
    by_cases htp : t = p
    · rw [htp]
      exact .inr (hrank hw)
    · refine .inl ⟨((h.waits t).mp ht.1).resolve_left htp, ?_⟩
      have hcomputed := ht.2
      rwa [h.computed, if_neg htp] at hcomputed

/-- A node that takes a value no higher than its own is not owed once it is marked again. -/
theorem Stores.ascends_self (hle : s'.stable.first.height (Value.candidates L.thresholds) ≤
    s.stable.first.height (Value.candidates L.thresholds)) : Ascends key L rank p r (r'.mark p true) := by
  have hheights : (r'.mark p true).heights key L ≤ r.heights key L := h.heights_le hs hle
  rcases hheights.lt_or_eq with hlt | heq
  · exact .inl hlt
  · refine .inr ⟨heq, fun t ht => .inl ?_⟩
    have htp : t ≠ p := by
      rintro rfl
      obtain ⟨hlt, -⟩ := List.getElem?_eq_some_iff.mp ((h.computed t).trans (if_pos rfl))
      refine ht.2 ?_
      rw [computed?, Run.mark, List.getElem?_set_self hlt]
    refine ⟨((h.waits t).mp ht.1).resolve_left htp, ?_⟩
    have hcomputed := ht.2
    rwa [computed?, Run.mark, List.getElem?_set_ne fun hpt => htp hpt.symm,
      show r'.engine.computed[t]? = r.computed? t from (h.computed t).trans (if_neg htp)] at hcomputed

end Stores

/-- An owed node has given way to nodes of higher rank. -/
theorem debt_lt {weight : ℕ → ℕ} (hweight : ∀ n < L.arena.size,
      ∑ t ∈ (Finset.range L.arena.size).filter (rank n < rank ·), weight t < weight n)
    (hn : n < L.arena.size) (howed : r.Owed n) (h : ∀ t, r'.Owed t → r.Owed t ∧ t ≠ n ∨ rank n < rank t) :
    r'.debt L weight < r.debt L weight := by
  classical
  have hsub : ((Finset.range L.arena.size).filter fun t => r'.Owed t) ⊆
      ((Finset.range L.arena.size).filter fun t => r.Owed t).erase n ∪
        (Finset.range L.arena.size).filter (rank n < rank ·) := by
    intro t ht
    obtain ⟨hlt, ht⟩ := Finset.mem_filter.mp ht
    rw [Finset.mem_union, Finset.mem_erase, Finset.mem_filter, Finset.mem_filter]
    rcases h t ht with ⟨ho, hne⟩ | hrank
    · exact .inl ⟨hne, hlt, ho⟩
    · exact .inr ⟨hlt, hrank⟩
  have hmem : n ∈ (Finset.range L.arena.size).filter fun t => r.Owed t :=
    Finset.mem_filter.mpr ⟨Finset.mem_range.mpr hn, howed⟩
  unfold debt
  calc _ ≤ ∑ t ∈ ((Finset.range L.arena.size).filter fun t => r.Owed t).erase n ∪
        (Finset.range L.arena.size).filter (rank n < rank ·), weight t := Finset.sum_le_sum_of_subset hsub
    _ ≤ ∑ t ∈ ((Finset.range L.arena.size).filter fun t => r.Owed t).erase n, weight t +
        ∑ t ∈ (Finset.range L.arena.size).filter (rank n < rank ·), weight t := by
      rw [← Finset.sum_union_inter]
      exact Nat.le_add_right _ _
    _ < ∑ t ∈ ((Finset.range L.arena.size).filter fun t => r.Owed t).erase n, weight t + weight n :=
      Nat.add_lt_add_left (hweight n hn) _
    _ = ∑ t ∈ (Finset.range L.arena.size).filter fun t => r.Owed t, weight t := Finset.sum_erase_add _ _ hmem

/-- An ascending pass comes down: by heights, then by debt, then by the length of the queue. -/
def Sinks (key : Key) (L : Layout) (weight : ℕ → ℕ) (r' r : Run Ω S) : Prop :=
  r'.heights key L < r.heights key L ∨ r'.heights key L = r.heights key L ∧
    (r'.debt L weight < r.debt L weight ∨ r'.debt L weight = r.debt L weight ∧
      r'.engine.worklist.queue.length < r.engine.worklist.queue.length)

theorem wellFounded_sinks (key : Key) (L : Layout) (weight : ℕ → ℕ) :
    WellFounded (Sinks key L weight : Run Ω S → Run Ω S → Prop) := by
  have hwf : WellFounded (Prod.Lex (· < ·) (Prod.Lex (· < ·) (· < ·)) :
      (Fin L.arena.size → WithTop ℕ ×ₗ WithTop ℕ) × ℕ × ℕ → _ → Prop) :=
    wellFounded_lt.prod_lex (wellFounded_lt.prod_lex wellFounded_lt)
  refine Subrelation.wf ?_ (InvImage.wf (fun r : Run Ω S =>
    (r.heights key L, r.debt L weight, r.engine.worklist.queue.length)) hwf)
  intro r' r h
  simpa [Sinks, InvImage, Prod.lex_def] using h

/-- A node that is computed was not owed, so only the queue gets shorter. -/
theorem sinks_pop {label : ℕ} {queue : List (ℕ × ℕ)} (hq : r.engine.worklist.queue = (n, label) :: queue)
    (hc : r.computed? n = some true) (weight : ℕ → ℕ) : Sinks key L weight (r.pop queue) r := by
  have howed : ∀ t, (r.pop queue).Owed t ↔ r.Owed t := by
    intro t
    constructor
    · refine fun ht => ⟨?_, ht.2⟩
      rw [Waits, Worklist.nodes, hq]
      exact List.mem_cons_of_mem _ ht.1
    · refine fun ht => ht.pop hq ?_
      rintro rfl
      exact ht.2 hc
  refine .inr ⟨rfl, .inr ⟨?_, ?_⟩⟩
  · have hsame : (r.pop queue).Owed = r.Owed := funext fun t => propext (howed t)
    rw [debt, debt, hsame]
  · rw [hq]
    exact Nat.lt_succ_self _

/-- A visit of an owed node that ascends brings the pass down. -/
theorem Ascends.sinks {weight : ℕ → ℕ} (hweight : ∀ n < L.arena.size,
      ∑ t ∈ (Finset.range L.arena.size).filter (rank n < rank ·), weight t < weight n)
    (hr : r.Operable key L) {label : ℕ} {queue : List (ℕ × ℕ)} (hq : r.engine.worklist.queue = (n, label) :: queue)
    (hc : r.computed? n = some false) (h : Ascends key L rank n ((r.pop queue).mark n true) r') :
    Sinks key L weight r' r := by
  have hwaits : r.Waits n := by simp [Waits, Worklist.nodes, hq]
  have hn := hr.waiting n hwaits
  have howed : r.Owed n := ⟨hwaits, by rw [hc]; decide⟩
  rcases h with hlt | ⟨heq, hnew⟩
  · exact .inl hlt
  · refine .inr ⟨heq, .inl (debt_lt hweight hn howed fun t ht => ?_)⟩
    rcases hnew t ht with ⟨hw, hmarked⟩ | hrank
    · have htn : t ≠ n := by
        rintro rfl
        refine hmarked ?_
        rw [computed?, Run.mark, List.getElem?_set_self]
        exact hr.computed.symm ▸ hn
      refine .inl ⟨⟨?_, ?_⟩, htn⟩
      · rw [Waits, Worklist.nodes, hq]
        exact List.mem_cons_of_mem _ hw
      · rwa [computed?, Run.mark, List.getElem?_set_ne fun hnt => htn hnt.symm] at hmarked
    · exact .inr hrank

end Run

namespace Analysis

open Run

variable {su : Setup} {L : Layout} {rank : ℕ → ℕ} {M : S → Prop} {r : Run Ω S}

/-- An ascending pass halts with nothing waiting if its visits come down and keep an invariant. -/
theorem halts_ascending (visit : Resources → ℕ → Analysis Ω S Unit) {I : Run Ω S → Prop}
    (hI : ∀ r, I r → r.Operable su.key L)
    (hskip : ∀ r n label queue, I r → r.engine.worklist.queue = (n, label) :: queue → r.computed? n = some true →
      I (r.pop queue))
    (hvisit : ∀ r n label queue, I r → r.engine.worklist.queue = (n, label) :: queue → r.computed? n = some false →
      Halts (fun ρ => visit ρ n) (r.pop queue) fun _ r' => I r' ∧ Ascends su.key L rank n ((r.pop queue).mark n true) r')
    (hr : I r) : Halts (fun ρ => drain (visit ρ) ρ.fuel) r fun _ r' => I r' ∧ r'.engine.worklist = .empty := by
  obtain ⟨weight, hweight⟩ := exists_weight rank L.arena.size
  refine halts_drain visit (wellFounded_sinks su.key L weight)
    (fun x n hx hw => (hI x hx).exists_computed ((hI x hx).waiting n hw)) (fun x n label queue hx hq hc => ?_)
    (fun x n label queue hx hq hc => ?_) hr
  · exact ⟨hskip x n label queue hx hq hc, sinks_pop hq hc weight⟩
  · exact (hvisit x n label queue hx hq hc).mono fun _ r' ⟨hr', hasc⟩ => ⟨hr', hasc.sinks hweight (hI x hx) hq hc⟩

section Edges

variable (ht : su.options.timeout = none) (hL : L.Lists su.transfer) (hr : r.Operable su.key L) {n p : ℕ}
  (hn : n < L.arena.size) (hp : p < L.arena.size) (hrank : L.arena.cuts.isWidening p = false → rank n < rank p) (v : Value)

include ht hL hr hn hp hrank

/-- Propagation along an edge comes down or makes its target owed, unless its target regains a bound. -/
theorem ensures_ascendEdge_regains : Ensures (ascendEdge su n v p) r fun _ r' => r'.Operable su.key L ∧
    r'.memory = r.memory ∧ (∀ m ≠ p, r'.slots? su.key m = r.slots? su.key m) ∧
      (Ascends su.key L rank n r r' ∨ Regains su.key (Value.candidates L.thresholds) p r r') := by
  refine (ensures_ascendEdge ht hL hr hn hp).mono ?_
  rintro grown r' ⟨hr', ⟨-, hq⟩ | ⟨-, a, b, s, x, i, -, -, hs, hleq, ⟨u, hu, hx⟩, hstores⟩⟩
  · exact ⟨hr', hq.memory, fun m _ => hq.slots? _ m, .inl hq.alike.ascends⟩
  · refine ⟨hr', hstores.memory, fun m hm => by rw [hstores.slots, if_neg hm], ?_⟩
    by_cases hlower : L.arena.cuts.isWidening p = true → x.height (Value.candidates L.thresholds) <
        s.stable.first.height (Value.candidates L.thresholds)
    · exact .inl (hstores.ascends hs hp hlower hrank)
    · rw [Classical.not_imp] at hlower
      obtain ⟨hw, hheight⟩ := hlower
      refine .inr ⟨hr.arena ▸ hw, s, _, hs, by rw [hstores.slots, if_pos rfl], ?_, hleq, hheight⟩
      cases hknown : s.known.first.isBottom with
      | false => rfl
      | true =>
        obtain rfl : x = u := by rwa [if_pos hknown] at hx
        rw [if_pos hw] at hu
        obtain ⟨thresholds, hsub, rfl⟩ := hu
        exact absurd (Value.height_widenAligned hsub hleq) hheight

end Edges

/-- The order in which a descending pass comes down: by the nodes not computed, then by the length of the queue. -/
theorem wellFounded_descending : WellFounded fun r' r : Run Ω S =>
    r'.engine.computed.count false < r.engine.computed.count false ∨
      r'.engine.computed.count false = r.engine.computed.count false ∧
        r'.engine.worklist.queue.length < r.engine.worklist.queue.length := by
  have hwf : WellFounded (Prod.Lex (· < ·) (· < ·) : ℕ × ℕ → ℕ × ℕ → Prop) := wellFounded_lt.prod_lex wellFounded_lt
  refine Subrelation.wf ?_ (InvImage.wf (fun r : Run Ω S =>
    (r.engine.computed.count false, r.engine.worklist.queue.length)) hwf)
  intro r' r h
  simpa [InvImage, Prod.lex_def] using h

theorem count_set_lt {l : List Bool} {n : ℕ} (h : l[n]? = some false) :
    (l.set n true).count false < l.count false := by
  obtain ⟨hn, hfalse⟩ := List.getElem?_eq_some_iff.mp h
  have hpos : 0 < l.count false := List.count_pos_iff.mpr (hfalse ▸ List.getElem_mem hn)
  have hset : (l.set n true).count false = l.count false - 1 := by simp [List.count_set hn, hfalse]
  omega

/-- What a descending pass does before it takes the first node from the worklist. -/
def restart (su : Setup) : Analysis Ω S Unit := do
  resetComputed
  clearWorklist
  (List.range (← nodeCount)).forM (resetDescending su)
  push 0

theorem descend_eq (su : Setup) (narrow : ℕ → Analysis Ω S Unit) :
    descend su narrow = restart su >>= fun _ => drain narrow su.resources.fuel := by
  simp only [descend, restart, bind_assoc]

/-- A descending pass halts with nothing waiting if it starts with an invariant that every visit keeps, and every visit
marks one more node as computed. -/
theorem halts_descending {narrow : ℕ → Analysis Ω S Unit} {I : Run Ω S → Prop}
    (hstart : Ensures (restart su) r fun _ r₀ => I r₀) (hwait : ∀ r n, I r → r.Waits n → ∃ b, r.computed? n = some b)
    (hskip : ∀ r n label queue, I r → r.engine.worklist.queue = (n, label) :: queue → r.computed? n = some true →
      I (r.pop queue))
    (hvisit : ∀ r n label queue, I r → r.engine.worklist.queue = (n, label) :: queue → r.computed? n = some false →
      Ensures (narrow n) (r.pop queue) fun _ r' => I r' ∧ r'.engine.computed = r.engine.computed.set n true) :
    Halts (fun ρ => descend (su.under ρ) narrow) r fun _ r' => I r' ∧ r'.engine.worklist = .empty := by
  obtain ⟨u, r₀, hrestart, hI⟩ := hstart
  have hpass : Halts (fun ρ => drain narrow ρ.fuel) r₀ fun _ r' => I r' ∧ r'.engine.worklist = .empty := by
    refine halts_drain (fun _ => narrow) wellFounded_descending hwait (fun x n label queue hx hq hc => ?_)
      (fun x n label queue hx hq hc => ?_) hI
    · refine ⟨hskip x n label queue hx hq hc, .inr ⟨rfl, ?_⟩⟩
      rw [hq]
      exact Nat.lt_succ_self _
    · refine ((hvisit x n label queue hx hq hc).mono fun _ r' h => ⟨h.1, .inl ?_⟩).halts
      rw [h.2]
      exact count_set_lt hc
  obtain ⟨N, u', r', hdrain, hr'⟩ := hpass
  refine ⟨N, u', r', fun ρ hρ => ?_, hr'⟩
  dsimp only
  rw [descend_eq]
  exact yields_bind.mpr ⟨u, r₀, hrestart, hdrain ρ hρ⟩

theorem ensures_restart (hA : 0 < L.arena.size) (hr : r.Operable su.key L) : Ensures (restart su) r fun _ r₀ =>
    r₀.Operable su.key L ∧ r₀.memory = r.memory := by
  simp only [restart, resetComputed, clearWorklist, ensures_bind, ensures_modifyEngine, ensures_nodeCount, ensures_push]
  refine Ensures.mono (ensures_forM (I := fun x => x.Operable su.key L ∧ x.memory = r.memory) ⟨?_, rfl⟩ fun n hn x hx => ?_)
    fun _ r₀ h => ⟨h.1.push hA, h.2⟩
  · refine ⟨hr.arena, hr.blocks, hr.envs, (List.length_map _).trans hr.computed, fun m hm => ?_, hr.slots, hr.thresholds,
      hr.rounds⟩
    exact absurd hm List.not_mem_nil
  · rw [List.mem_range, hr.nodes_length] at hn
    exact (ensures_resetDescending hx.1 hn).mono fun _ x' h => ⟨h.1, h.2.1.trans hx.2⟩

/-- A descending pass halts in a state that the engine can work on from. -/
theorem halts_descend {narrow : ℕ → Analysis Ω S Unit}
    (hnarrow : ∀ r n, r.Operable su.key L → n < L.arena.size → Ensures (narrow n) r fun _ r' =>
      r'.Operable su.key L ∧ r'.memory = r.memory ∧ r'.engine.computed = r.engine.computed.set n true)
    (hA : 0 < L.arena.size) (hr : r.Operable su.key L) : Halts (fun ρ => descend (su.under ρ) narrow) r fun _ r' =>
      r'.Operable su.key L ∧ r'.memory = r.memory ∧ r'.engine.worklist = .empty := by
  refine (halts_descending (I := fun x => x.Operable su.key L ∧ x.memory = r.memory) (ensures_restart hA hr)
    (fun x n hx hw => hx.1.exists_computed (hx.1.waiting n hw)) (fun x n label queue hx hq _ => ⟨hx.1.pop hq, hx.2⟩)
    fun x n label queue hx hq _ => ?_).mono fun _ r' h => ⟨h.1.1, h.1.2, h.2⟩
  have hn := hx.1.waiting n (by simp [Waits, Worklist.nodes, hq])
  exact (hnarrow (x.pop queue) n (hx.1.pop hq) hn).mono fun _ r' h => ⟨⟨h.1, h.2.1.trans hx.2⟩, h.2.2⟩

section Rounds

variable {narrow : ℕ → Analysis Ω S Unit} (ht : su.options.timeout = none)
  (htechnique : su.options.technique ≠ .disjunctive)
  (hnarrow : ∀ r n, r.Operable su.key L → n < L.arena.size → Ensures (narrow n) r fun _ r' =>
    r'.Operable su.key L ∧ r'.memory = r.memory ∧ r'.engine.computed = r.engine.computed.set n true)
  (hA : 0 < L.arena.size)

include ht htechnique hnarrow hA

theorem halts_descendAgain {count : ℕ} (hr : r.Operable su.key L) (hempty : r.engine.worklist = .empty) :
    Halts (fun ρ => descendAgain (su.under ρ) narrow count) r fun _ r' =>
      r'.Operable su.key L ∧ r'.memory = r.memory ∧ r'.engine.worklist = .empty := by
  have hsettle := ensures_settle htechnique hr
  induction count generalizing r with
  | zero =>
    refine Halts.bind (hsettle.halts.mono fun _ r₁ ⟨hr₁, hmemory, hworklist⟩ => ?_)
    exact (ensures_pure.mpr ⟨hr₁, hmemory, hworklist.trans hempty⟩).halts
  | succ count ih =>
    refine Halts.bind (hsettle.halts.mono fun changed r₁ ⟨hr₁, hmemory, hworklist⟩ => ?_)
    cases changed with
    | false => exact (ensures_pure.mpr ⟨hr₁, hmemory, hworklist.trans hempty⟩).halts
    | true =>
      refine Halts.bind ((halts_descend hnarrow hA hr₁).mono fun _ r₂ ⟨hr₂, hmemory₂, hempty₂⟩ => ?_)
      simp only [checkDeadline_under ht]
      refine Halts.bind ((ensures_checkDeadline ht).mpr ?_ : Ensures _ _ _).halts
      have hr₃ : Operable su.key L { r₂ with engine := { r₂.engine with readings := r₂.engine.readings + 1 } } :=
        hr₂.quiet ⟨_, _, _, _, rfl⟩ hr₂.thresholds hr₂.rounds
      refine (ih hr₃ hempty₂ (ensures_settle htechnique hr₃)).mono fun _ r' ⟨hr', hmemory', hempty'⟩ => ?_
      exact ⟨hr', hmemory'.trans (hmemory₂.trans hmemory), hempty'⟩

/-- Descending passes halt, whatever the bound on their number. -/
theorem halts_descendRounds (rounds : ℕ) (hr : r.Operable su.key L) :
    Halts (fun ρ => descendRounds (su.under ρ) narrow rounds) r fun _ r' =>
      r'.Operable su.key L ∧ r'.memory = r.memory ∧ r'.engine.worklist = .empty := by
  refine Halts.bind ((halts_descend hnarrow hA hr).mono fun _ r₁ ⟨hr₁, hmemory₁, hempty₁⟩ => ?_)
  refine (halts_descendAgain ht htechnique hnarrow hA hr₁ hempty₁).mono fun _ r' ⟨hr', hmemory', hempty'⟩ => ?_
  exact ⟨hr', hmemory'.trans hmemory₁, hempty'⟩

end Rounds

end Analysis

end PathInvariants

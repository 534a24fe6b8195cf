import PathInvariants.Placement
import PathInvariants.Proofs.ExactJoins

/-!
# Exact placement of contributions

Contributions are placed and merged into a union one after the other. A merge is exact if its path and
starting disjunct have come up for the first time, unless the union is full and no disjunct takes the
contribution exactly; this case raises the flag. A pair that comes up again goes to the place it has,
whatever the contribution and whatever has been merged there since, and the flag stays as it is. So a
lowered flag vouches for the first merge of every pair, and for later ones only as far as they join
exactly at their place.
-/
namespace PathInvariants

open Value (Over)

/-- What a path from a starting disjunct contributes to its destination. -/
structure Contribution where
  path : Path
  start : ℕ
  value : Value

def Contribution.pair (c : Contribution) : Path × ℕ := (c.path, c.start)

/-- A placement and the union that its contributions are merged into. -/
structure Merging where
  placement : Placement
  target : Disjunction

namespace Disjunction

variable {d : Disjunction} {domain : Domain} {env : Environment}

theorem get_size (d : Disjunction) : d.get d.size = d.filler := by
  have hnone : d.toList[d.size]? = none := List.getElem?_eq_none (by simp [toList, size])
  rw [get, get?, hnone]
  rfl

theorem get_set (d : Disjunction) (index : ℕ) (v : Value) : (d.set index v).get index = v := by
  rw [get, get?_set]
  rfl

theorem filler_mem_over (h : ∀ v ∈ d.toList, v ∈ Over domain env) : d.filler ∈ Over domain env := by
  have hfirst : d.first ∈ Over domain env := h d.first (by simp [toList])
  have hdomain : d.first.domain = domain := hfirst.1.ordered.kind.1
  rw [filler, hdomain, hfirst.2]
  exact ⟨.bottom env, rfl⟩

theorem get_mem_over (h : ∀ v ∈ d.toList, v ∈ Over domain env) (index : ℕ) : d.get index ∈ Over domain env := by
  unfold get
  cases hv : d.get? index with
  | none => exact filler_mem_over h
  | some v => exact h v (List.mem_of_getElem? hv)

end Disjunction

namespace Merging

variable {domain : Domain} {env : Environment} {s : Merging} {c : Contribution} {cs : List Contribution} {limit : ℕ}
  {first : Value}

def start (limit : ℕ) (first : Value) : Merging := ⟨.new limit, .single first⟩

/-- The disjunct that a contribution goes to. -/
def index (s : Merging) (c : Contribution) : ℕ := (s.placement.merge c.path c.start c.value s.target).1

def step (s : Merging) (c : Contribution) : Merging :=
  ⟨(s.placement.merge c.path c.start c.value s.target).2.1, (s.placement.merge c.path c.start c.value s.target).2.2⟩

def run (s : Merging) (cs : List Contribution) : Merging := cs.foldl step s

/-- The disjunct that a contribution goes to, before the merge. -/
def place (s : Merging) (c : Contribution) : Value := s.target.get (s.index c)

/-- The disjunct that a contribution goes to, after the merge. -/
def merged (s : Merging) (c : Contribution) : Value := (s.step c).target.get (s.index c)

/-- All disjuncts are in use and none takes the contribution exactly. -/
def Overflows (s : Merging) (c : Contribution) : Prop :=
  s.placement.limit ≤ s.target.size ∧ ∀ i < s.placement.limit, (s.target.get i).joinsExactly c.value = false

theorem joinsExactly_of_exactFit {i : ℕ} (h : s.placement.exactFit? c.value s.target = some i) :
    i < s.placement.limit ∧ (s.target.get i).joinsExactly c.value = true := by
  refine ⟨?_, List.find?_some (p := fun i => (s.target.get i).joinsExactly c.value) h⟩
  have hmem := List.mem_of_find?_eq_some h
  rw [List.mem_take_iff_getElem] at hmem
  obtain ⟨j, hj, rfl⟩ := hmem
  rw [List.getElem_range]
  omega

/-- What a step does: a pair with a place keeps it, and a new pair is taken exactly unless there is no room. -/
theorem step_cases (s : Merging) (c : Contribution) :
    s.placement.assigned.lookup c.pair ≠ none ∧ (s.step c).placement = s.placement ∨
      s.placement.assigned.lookup c.pair = none ∧ ∃ degraded,
        (s.step c).placement = { s.placement with assigned := (c.pair, s.index c) :: s.placement.assigned, degraded } ∧
        (s.Overflows c ∧ degraded = true ∨
          ¬ s.Overflows c ∧ degraded = s.placement.degraded ∧ (s.place c).joinsExactly c.value = true) := by
  have hindex : s.index c = (s.placement.assign c.path c.start c.value s.target).1 := rfl
  have hstep : (s.step c).placement = (s.placement.assign c.path c.start c.value s.target).2 := rfl
  have hplace : s.place c = s.target.get (s.index c) := rfl
  rw [hplace, hstep, hindex]
  unfold Placement.assign
  cases hlookup : s.placement.assigned.lookup (c.path, c.start) with
  | some i => exact .inl ⟨by rw [Contribution.pair, hlookup]; exact Option.some_ne_none i, rfl⟩
  | none =>
    refine .inr ⟨hlookup, ?_⟩
    dsimp only
    cases hfit : s.placement.exactFit? c.value s.target with
    | some i =>
      obtain ⟨hlt, hexact⟩ := joinsExactly_of_exactFit hfit
      refine ⟨_, rfl, .inr ⟨fun h => ?_, rfl, hexact⟩⟩
      rw [h.2 i hlt] at hexact
      cases hexact
    | none =>
      dsimp only
      split
      · rename_i hroom
        refine ⟨_, rfl, .inr ⟨fun h => absurd h.1 (by omega), rfl, ?_⟩⟩
        rw [Disjunction.get_size]
        rfl
      · rename_i hfull
        refine ⟨_, rfl, .inl ⟨⟨by omega, fun i hi => ?_⟩, rfl⟩⟩
        have hnone := List.find?_eq_none.mp hfit i (List.mem_take_iff_getElem.mpr ⟨i, by simp; omega, by simp⟩)
        simpa using hnone

/-- The flag is raised by a new pair that finds no room, and never lowered. -/
theorem degraded_step_iff : (s.step c).placement.degraded = true ↔
    s.placement.degraded = true ∨ s.placement.assigned.lookup c.pair = none ∧ s.Overflows c := by
  rcases step_cases s c with ⟨hold, hstep⟩ | ⟨hnew, degraded, hstep, ⟨hover, rfl⟩ | ⟨hover, rfl, -⟩⟩
  · simp [hstep, hold]
  · simp [hstep, hnew, hover]
  · simp [hstep, hover]

theorem lookup_step (pair : Path × ℕ) : (s.step c).placement.assigned.lookup pair = none ↔
    s.placement.assigned.lookup pair = none ∧ c.pair ≠ pair := by
  rcases step_cases s c with ⟨hold, hstep⟩ | ⟨hnew, degraded, hstep, -⟩
  · rw [hstep]
    refine ⟨fun h => ⟨h, ?_⟩, And.left⟩
    rintro rfl
    exact hold h
  · rw [hstep, List.lookup_cons]
    by_cases hpair : pair = c.pair
    · simp [hpair]
    · have hne : (pair == c.pair) = false := by simpa using hpair
      simp [hne, Ne.symm hpair]

/-- The pairs that have a place are those of the contributions so far. -/
theorem lookup_run (pair : Path × ℕ) : (s.run cs).placement.assigned.lookup pair = none ↔
    s.placement.assigned.lookup pair = none ∧ ∀ c ∈ cs, c.pair ≠ pair := by
  induction cs generalizing s with
  | nil => simp [run]
  | cons c cs ih =>
    have hrun : s.run (c :: cs) = (s.step c).run cs := rfl
    rw [hrun, ih, lookup_step, List.forall_mem_cons, and_assoc]

theorem degraded_run_iff : (s.run cs).placement.degraded = true ↔ s.placement.degraded = true ∨
    ∃ before c after, cs = before ++ c :: after ∧ (s.run before).placement.assigned.lookup c.pair = none ∧
      (s.run before).Overflows c := by
  induction cs generalizing s with
  | nil => simp [run]
  | cons c cs ih =>
    have hrun : ∀ cs, s.run (c :: cs) = (s.step c).run cs := fun _ => rfl
    rw [hrun, ih, degraded_step_iff, or_assoc]
    refine or_congr_right ⟨?_, ?_⟩
    · rintro (hover | ⟨before, c', after, rfl, hover⟩)
      · exact ⟨[], c, cs, rfl, hover⟩
      · exact ⟨c :: before, c', after, rfl, hover⟩
    · rintro ⟨before, c', after, hsplit, hover⟩
      cases before with
      | nil =>
        obtain ⟨rfl, rfl⟩ := List.cons.inj hsplit
        exact .inl hover
      | cons d before =>
        obtain ⟨rfl, rfl⟩ := List.cons.inj hsplit
        exact .inr ⟨before, c', after, rfl, hover⟩

/-- All disjuncts are of one domain and over one environment. -/
def Kept (domain : Domain) (env : Environment) (s : Merging) : Prop := ∀ v ∈ s.target.toList, v ∈ Over domain env

theorem kept_start (hfirst : first ∈ Over domain env) : (start limit first).Kept domain env := by
  intro v hv
  rw [List.mem_singleton.mp hv]
  exact hfirst

theorem Kept.place (hs : s.Kept domain env) (c : Contribution) : s.place c ∈ Over domain env :=
  Disjunction.get_mem_over hs _

theorem merged_eq (hs : s.Kept domain env) (hc : c.value ∈ Over domain env) :
    s.merged c = (s.place c).joinAligned c.value := by
  have henv : (s.place c).env = c.value.env := (hs.place c).2.trans hc.2.symm
  have hmerged : s.merged c = (s.place c).joinOver c.value.env [c.value] := Disjunction.get_set _ _ _
  rw [hmerged, ← henv, Value.joinOver_of_env henv]

theorem Kept.step (hs : s.Kept domain env) (hc : c.value ∈ Over domain env) : (s.step c).Kept domain env := by
  intro v hv
  rcases Disjunction.mem_toList_set hv with rfl | hv | rfl
  · exact ⟨.joinOver (hs.place c).1 (by simpa using hc.1) _, (Value.env_joinOver _ _ _).trans hc.2⟩
  · exact hs v hv
  · exact Disjunction.filler_mem_over hs

theorem Kept.run (hs : s.Kept domain env) (hcs : ∀ c ∈ cs, c.value ∈ Over domain env) : (s.run cs).Kept domain env := by
  induction cs generalizing s with
  | nil => exact hs
  | cons c cs ih =>
    obtain ⟨hc, hcs⟩ := List.forall_mem_cons.mp hcs
    exact ih (hs.step hc) hcs

/-- A new pair is merged exactly, as long as there is room. -/
theorem joinsExactly_of_new (hnew : s.placement.assigned.lookup c.pair = none) (hroom : ¬ s.Overflows c) :
    (s.place c).joinsExactly c.value = true := by
  rcases step_cases s c with ⟨hold, -⟩ | ⟨-, degraded, -, ⟨hover, -⟩ | ⟨-, -, hexact⟩⟩
  · exact absurd hnew hold
  · exact absurd hover hroom
  · exact hexact

/-- The flag is up exactly if some pair, when it first came up, found all disjuncts in use and none that takes it
exactly. While it is down, the first merge of every pair is exact. Every merge keeps what it merges, and is exact if
the contribution joins exactly at its place. -/
theorem exact_until_degraded (limit : ℕ) (hfirst : first ∈ Over domain env) (hcs : ∀ c ∈ cs, c.value ∈ Over domain env) :
    (((start limit first).run cs).placement.degraded = true ↔ ∃ before c after, cs = before ++ c :: after ∧
        (∀ b ∈ before, b.pair ≠ c.pair) ∧ ((start limit first).run before).Overflows c) ∧
      ∀ before c after, cs = before ++ c :: after →
        let s := (start limit first).run before
        (s.place c).concretization ∪ c.value.concretization ⊆ (s.merged c).concretization ∧
          ((((start limit first).run cs).placement.degraded = false ∧ ∀ b ∈ before, b.pair ≠ c.pair) ∨
              (s.place c).joinsExactly c.value = true →
            (s.merged c).concretization = (s.place c).concretization ∪ c.value.concretization) := by
  have hlookup : ∀ (before : List Contribution) (pair : Path × ℕ),
      ((start limit first).run before).placement.assigned.lookup pair = none ↔ ∀ b ∈ before, b.pair ≠ pair := by
    intro before pair
    rw [lookup_run]
    exact and_iff_right rfl
  have hflag : ((start limit first).run cs).placement.degraded = true ↔ ∃ before c after, cs = before ++ c :: after ∧
      (∀ b ∈ before, b.pair ≠ c.pair) ∧ ((start limit first).run before).Overflows c := by
    have hdown : (start limit first).placement.degraded = false := rfl
    rw [degraded_run_iff, hdown]
    simp only [hlookup, Bool.false_eq_true, false_or]
  refine ⟨hflag, ?_⟩
  rintro before c after rfl s
  have hs : s.Kept domain env := (kept_start hfirst).run fun b hb => hcs b (by simp [hb])
  have hc : c.value ∈ Over domain env := hcs c (by simp)
  have hplace := hs.place c
  rw [merged_eq hs hc]
  refine ⟨Value.concretization_subset_joinAligned hplace.1.ordered hc.1.ordered (hplace.2.trans hc.2.symm), ?_⟩
  rintro (⟨hdown, hnew⟩ | hexact)
  · refine Value.concretization_joinAligned hplace hc (joinsExactly_of_new ((hlookup before c.pair).mpr hnew) ?_)
    intro hover
    rw [hflag.mpr ⟨before, c, after, rfl, hnew, hover⟩] at hdown
    cases hdown
  · exact Value.concretization_joinAligned hplace hc hexact

/-- Two disjuncts at most, of integers. The numbers one and ten find a place next to zero and on their own, and the
flag stays down; a third path that brings twenty finds no room. -/
theorem exact_until_degraded_points :
    let env := Environment.ofInts ["x"]
    let point (n : ℤ) := (Value.top .intervalEqualities env).constrain (.eq (.var "x" - .const n))
    let one : Contribution := ⟨⟨[0, 1]⟩, 0, point 1⟩
    let ten : Contribution := ⟨⟨[0, 2, 1]⟩, 0, point 10⟩
    let twenty : Contribution := ⟨⟨[0, 3, 1]⟩, 0, point 20⟩
    let s := (start 2 (point 0)).run [one]
    ((start 2 (point 0)).run [one, ten]).placement.degraded = false ∧
      (s.merged ten).concretization = (s.place ten).concretization ∪ ten.value.concretization ∧
      ∃ before c after, [one, ten, twenty] = before ++ c :: after ∧ (∀ b ∈ before, b.pair ≠ c.pair) ∧
        ((start 2 (point 0)).run before).Overflows c := by
  intro env point one ten twenty s
  have hzero : point 0 ∈ Over .intervalEqualities env := ⟨.constrain (.top _) _, by decide +kernel⟩
  have hone : point 1 ∈ Over .intervalEqualities env := ⟨.constrain (.top _) _, by decide +kernel⟩
  have hten : point 10 ∈ Over .intervalEqualities env := ⟨.constrain (.top _) _, by decide +kernel⟩
  have htwenty : point 20 ∈ Over .intervalEqualities env := ⟨.constrain (.top _) _, by decide +kernel⟩
  have hdown : ((start 2 (point 0)).run [one, ten]).placement.degraded = false := by decide +kernel
  have htwo : ∀ c ∈ [one, ten], c.value ∈ Over .intervalEqualities env := by simp [one, ten, hone, hten]
  have hthree : ∀ c ∈ [one, ten, twenty], c.value ∈ Over .intervalEqualities env := by
    simp [one, ten, twenty, hone, hten, htwenty]
  have hfresh : ∀ b ∈ [one], b.pair ≠ ten.pair := by decide
  exact ⟨hdown, ((exact_until_degraded 2 hzero htwo).2 [one] ten [] rfl).2 (.inl ⟨hdown, hfresh⟩),
    (exact_until_degraded 2 hzero hthree).1.mp (by decide +kernel)⟩

/-- The number one finds a place next to zero, and ten then comes along the same path: it is merged there as well, the
flag stays down, and the disjunct describes five, which neither side does. -/
theorem repeated_pair_inexact :
    let env := Environment.ofInts ["x"]
    let point (n : ℤ) := (Value.top .intervalEqualities env).constrain (.eq (.var "x" - .const n))
    let along (n : ℤ) : Contribution := ⟨⟨[0, 1]⟩, 0, point n⟩
    let s := (start 2 (point 0)).run [along 1]
    let five : Valuation := fun _ => (5 : ℤ)
    point 0 ∈ Over .intervalEqualities env ∧ point 1 ∈ Over .intervalEqualities env ∧
      point 10 ∈ Over .intervalEqualities env ∧ (s.step (along 10)).placement.degraded = false ∧
      five ∈ (s.merged (along 10)).concretization ∧
      five ∉ (s.place (along 10)).concretization ∪ (point 10).concretization := by
  intro env point along s five
  have hbox : (s.merged (along 10)).box = Box.top.set "x" (.closed 0 10) := by decide +kernel
  have heqs : (s.merged (along 10)).eqs = .empty := by decide +kernel
  have hleft : ((s.place (along 10)).box.get "x").contains 5 = false := by decide +kernel
  have hright : ((point 10).box.get "x").contains 5 = false := by decide +kernel
  refine ⟨⟨.constrain (.top _) _, by decide +kernel⟩, ⟨.constrain (.top _) _, by decide +kernel⟩,
    ⟨.constrain (.top _) _, by decide +kernel⟩, by decide +kernel, ⟨fun _ _ => ⟨5, rfl⟩, ?_, ?_⟩, ?_⟩
  · rw [hbox, Box.admits_set (Box.ne_bottom (Box.admits_top five))]
    exact ⟨Interval.admits_intCast.mpr (Interval.mem_closed.mpr (by decide)), fun t _ => Interval.admits_top (five t)⟩
  · rw [heqs]
    exact Equalities.solvedBy_empty five
  · rintro (h | h)
    · exact Bool.eq_false_iff.mp hleft (Interval.admits_intCast.mp (h.2.1 "x"))
    · exact Bool.eq_false_iff.mp hright (Interval.admits_intCast.mp (h.2.1 "x"))

end Merging

end PathInvariants

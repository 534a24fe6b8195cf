import PathInvariants.Proofs.ValueLattice

/-!
# The lattice of boxes

The operations that build boxes reach every box, so what holds of all boxes holds of whatever a
sequence of operations leaves behind. A box stands for the integer valuations it allows: the order is
their inclusion, and as no binding is empty or unbounded, two boxes with the same valuations are one.
-/
namespace PathInvariants

/-- The operations that combine two intervals, and two boxes symbol by symbol. -/
inductive Combination where
  | join
  | meet
  | widen
  | narrow

namespace Combination

def ofIntervals : Combination → Interval → Interval → Interval
  | join => Interval.join
  | meet => Interval.meet
  | widen => Interval.widen
  | narrow => Interval.narrow

def ofBoxes : Combination → Box → Box → Box
  | join => Box.join
  | meet => Box.meet
  | widen => Box.widen
  | narrow => Box.narrow

end Combination

/-- Placing the first entry in front of the others. -/
theorem Sparse.set_tail {α : Type} [DecidableEq α] {d : α} {e : Symbol × α} {es : List (Symbol × α)}
    (ascending : (e :: es).Pairwise fun x y => x.1 < y.1) (exceptional : ∀ x ∈ e :: es, x.2 ≠ d) :
    (⟨es, (List.pairwise_cons.mp ascending).2, fun x hx => exceptional x (List.mem_cons_of_mem e hx)⟩ : Sparse d).set
      e.1 e.2 = ⟨e :: es, ascending, exceptional⟩ := by
  refine Sparse.ext fun s => ?_
  rw [Sparse.get_set]
  split
  · rename_i hs
    rw [hs]
    exact (lookup_cons_self e es).symm
  · rename_i hs
    exact (lookup_cons_of_ne (Ne.symm hs) es).symm

namespace Box

variable {a b c : Box} {s : Symbol} {m : Symbol → ℤ}

/-- The boxes that sequences of operations build. -/
inductive Composed : Box → Prop
  | top : Composed top
  | bottom : Composed bottom
  | set {b : Box} (hb : Composed b) (s : Symbol) (i : Interval) : Composed (b.set s i)
  | forget {b : Box} (hb : Composed b) (s : Symbol) : Composed (b.forget s)
  | update {b : Box} (hb : Composed b) (s : Symbol) (op : Combination) (i : Interval) :
      Composed (b.update s fun j => op.ofIntervals j i)
  | restrict {b : Box} (hb : Composed b) (keep : Symbol → Bool) : Composed (b.restrict keep)
  | combine {a b : Box} (ha : Composed a) (hb : Composed b) (op : Combination) : Composed (op.ofBoxes a b)

theorem ext_get (ha : a ≠ bottom) (hb : b ≠ bottom) (h : ∀ s, a.get s = b.get s) : a = b := by
  cases a with
  | bottom => exact absurd rfl ha
  | ranges f hf =>
    cases b with
    | bottom => exact absurd rfl hb
    | ranges g hg =>
      obtain rfl : f = g := Sparse.ext h
      rfl

/-- A box is built by setting its ranges one by one, the last first. -/
theorem composed (b : Box) : b.Composed := by
  cases b with
  | bottom => exact .bottom
  | ranges f hf =>
    obtain ⟨entries, ascending, exceptional⟩ := f
    induction entries with
    | nil => exact .top
    | cons e es ih =>
      have hrest := ih (List.pairwise_cons.mp ascending).2 (fun x hx => exceptional x (List.mem_cons_of_mem e hx))
        fun x hx => hf x (List.mem_cons_of_mem e hx)
      have hset := hrest.set e.1 e.2
      rwa [set, Sparse.set_tail ascending exceptional, make, dif_pos hf] at hset

/-- Every symbol has an integer of its range for value. -/
def Allows (b : Box) (m : Symbol → ℤ) : Prop := ∀ s, m s ∈ b.get s

theorem allows_iff_admits : b.Allows m ↔ b.Admits fun s => (m s : ℚ) := by
  simp only [Allows, Admits, Interval.admits_intCast]

theorem not_allows_bottom : ¬ bottom.Allows m := fun h => Interval.not_mem_bottom (h "")

theorem leq_iff_allows : a.leq b = true ↔ ∀ m, a.Allows m → b.Allows m := by
  constructor
  · intro h m hm s
    exact Interval.leq_iff.mp (get_leq h s) (m s) (hm s)
  · intro h
    by_cases ha : a = bottom
    · rw [ha]
      rfl
    · -- Each value of a symbol belongs to a valuation, so the ranges are included one by one.
      have hvalue : ∀ s n, n ∈ a.get s → n ∈ b.get s := by
        intro s n hn
        obtain ⟨m, hm, rfl⟩ := exists_int_of_mem_get hn
        exact h m hm s
      have hb : b ≠ bottom := by
        rintro rfl
        obtain ⟨n, hn⟩ := Interval.exists_mem (get_ne_bottom ha "")
        exact Interval.not_mem_bottom (hvalue "" n hn)
      exact leq_of_get hb fun s => Interval.leq_iff.mpr (hvalue s)

theorem leq_antisymm (hab : a.leq b = true) (hba : b.leq a = true) : a = b := by
  by_cases ha : a = bottom
  · subst ha
    by_contra hb
    exact ne_bottom_of_leq (Ne.symm hb) hba rfl
  · exact ext_get ha (ne_bottom_of_leq ha hab) fun s => Interval.leq_antisymm (get_leq hab s) (get_leq hba s)

theorem eq_iff_allows : a = b ↔ ∀ m, a.Allows m ↔ b.Allows m := by
  constructor
  · rintro rfl m
    rfl
  · intro h
    exact leq_antisymm (leq_iff_allows.mpr fun m => (h m).mp) (leq_iff_allows.mpr fun m => (h m).mpr)

theorem allows_meet : (a.meet b).Allows m ↔ a.Allows m ∧ b.Allows m := by
  simp only [allows_iff_admits, admits_meet]

theorem allows_make {f : Sparse Interval.top} : (make f).Allows m ↔ ∀ s, m s ∈ f.get s := by
  simp only [allows_iff_admits, admits_make, Interval.admits_intCast]

/-- Combining ranges by something above both combines boxes so. -/
theorem allows_above {f : Interval → Interval → Interval} {hf : ∀ {i j n}, n ∈ i ∨ n ∈ j → n ∈ f i j}
    (habsorbing : Interval.Absorbing f) (h : a.Allows m ∨ b.Allows m) : (above f hf a b).Allows m := by
  cases a with
  | bottom =>
    rw [show above f hf bottom b = b from rfl]
    exact h.resolve_left not_allows_bottom
  | ranges x hx =>
    cases b with
    | bottom => exact h.resolve_right not_allows_bottom
    | ranges y hy =>
      rw [above_ranges habsorbing]
      refine allows_make.mpr fun s => ?_
      rw [Sparse.get_zipWith (habsorbing.left _)]
      exact hf (h.imp (· s) (· s))

theorem leq_above {f : Interval → Interval → Interval} (hf : ∀ {i j n}, n ∈ i ∨ n ∈ j → n ∈ f i j)
    (habsorbing : Interval.Absorbing f) : a.leq (above f hf a b) = true ∧ b.leq (above f hf a b) = true := by
  constructor
  · exact leq_iff_allows.mpr fun m hm => allows_above habsorbing (.inl hm)
  · exact leq_iff_allows.mpr fun m hm => allows_above habsorbing (.inr hm)

theorem meet_leq_narrow : (a.meet b).leq (a.narrow b) = true := by
  refine leq_iff_admits.mpr fun m h => ?_
  obtain ⟨ha, hb⟩ := admits_meet.mp h
  exact admits_narrow ha hb

theorem narrow_leq : (a.narrow b).leq a = true := leq_iff_admits.mpr fun _ => admits_of_admits_narrow

/-- The order and the operations of two boxes, in the integer valuations they allow. -/
structure Exact (a b : Box) : Prop where
  /-- A range that says nothing is not stored, and an empty one empties the box. -/
  bindings : ∀ e ∈ a.bindings, e.2 ≠ .top ∧ e.2 ≠ .bottom
  leq : a.leq b = true ↔ ∀ m, a.Allows m → b.Allows m
  eq : a = b ↔ ∀ m, a.Allows m ↔ b.Allows m
  meet : ∀ m, (a.meet b).Allows m ↔ a.Allows m ∧ b.Allows m
  join : a.leq (a.join b) = true ∧ b.leq (a.join b) = true
  least : ∀ c : Box, a.leq c = true → b.leq c = true → (a.join b).leq c = true
  widen : a.leq (a.widen b) = true ∧ b.leq (a.widen b) = true
  narrow : (a.meet b).leq (a.narrow b) = true ∧ (a.narrow b).leq a = true

/-- Boxes are an exact lattice of sets of integer valuations, and all of them arise from operations. -/
theorem composed_and_exact : (∀ b : Box, b.Composed) ∧ ∀ a b : Box, a.Exact b := by
  refine ⟨composed, fun a b => ?_⟩
  constructor
  case bindings => exact fun e => ne_of_mem_bindings
  case leq => exact leq_iff_allows
  case eq => exact eq_iff_allows
  case meet => exact fun m => allows_meet
  case join => exact leq_above Interval.mem_join Interval.absorbing_join
  case least => exact fun c => join_leq
  case widen => exact leq_above Interval.mem_widenTo Interval.absorbing_widen
  case narrow => exact ⟨meet_leq_narrow, narrow_leq⟩

end Box

end PathInvariants

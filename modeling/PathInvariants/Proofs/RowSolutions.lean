import Mathlib
import PathInvariants.RowSpace

/-!
# Solutions of integer rows

A row vanishes at a rational vector when their scalar product is zero. Every elimination step keeps
the vectors at which all rows vanish, and leaves each pivot positive and alone in its column. So
membership in the row space, and the basis of the orthogonal vectors, mean what they say.
-/
namespace PathInvariants

namespace Row

/-- The scalar product of the first `n` entries with a vector. -/
def dot (n : ℕ) (r : Row) (w : ℕ → ℚ) : ℚ := ∑ i ∈ Finset.range n, (r.entry i : ℚ) * w i

theorem entry_of_length_le {r : Row} {i : ℕ} (h : r.length ≤ i) : r.entry i = 0 :=
  List.getD_eq_default _ _ h

theorem entry_map {f : ℤ → ℤ} (hf : f 0 = 0) (r : Row) (i : ℕ) :
    entry (r.map f) i = f (r.entry i) := by
  have h := List.getD_map (f := f) (l := r) (d := 0) (n := i)
  rwa [hf] at h

theorem entry_cons_succ (x : ℤ) (r : Row) (i : ℕ) : entry (x :: r) (i + 1) = r.entry i := rfl

theorem foldl_gcd_dvd (r : Row) (g : ℕ) :
    r.foldl (fun g x => g.gcd x.natAbs) g ∣ g ∧
      ∀ x ∈ r, r.foldl (fun g x => g.gcd x.natAbs) g ∣ x.natAbs := by
  induction r generalizing g with
  | nil => simp
  | cons y r ih =>
    obtain ⟨hg, hr⟩ := ih (g.gcd y.natAbs)
    refine ⟨hg.trans (Nat.gcd_dvd_left _ _), fun x hx => ?_⟩
    rcases List.mem_cons.mp hx with rfl | hx
    · exact hg.trans (Nat.gcd_dvd_right _ _)
    · exact hr x hx

theorem content_dvd_entry (r : Row) (i : ℕ) : (r.content : ℤ) ∣ r.entry i := by
  by_cases hi : i < r.length
  · have hm : r.entry i ∈ r := by
      rw [entry, List.getD_eq_getElem _ _ hi]
      exact List.getElem_mem hi
    exact Int.natCast_dvd.mpr ((foldl_gcd_dvd r 0).2 _ hm)
  · rw [entry_of_length_le (by omega)]
    exact dvd_zero _

theorem length_primitive (r : Row) : r.primitive.length = r.length := by
  simp only [primitive]
  split <;> simp

/-- A row is a positive multiple of its primitive form. -/
theorem exists_scale_primitive (r : Row) : ∃ g : ℤ, 0 < g ∧ ∀ i, r.entry i = g * r.primitive.entry i := by
  by_cases hg : r.content = 0 ∨ r.content = 1
  · refine ⟨1, one_pos, fun i => ?_⟩
    simp [primitive, hg]
  · refine ⟨r.content, by omega, fun i => ?_⟩
    have he : r.primitive.entry i = r.entry i / (r.content : ℤ) := by
      simp only [primitive, hg, if_false]
      exact entry_map (f := (· / (r.content : ℤ))) (Int.zero_ediv _) r i
    rw [he, Int.mul_ediv_cancel' (content_dvd_entry r i)]

theorem length_combine (f : ℤ → ℤ → ℤ) (n : ℕ) (r other : Row) :
    (combine f n r other).length = r.length := by
  induction n generalizing r other with
  | zero => rfl
  | succ n ih => cases r <;> simp [combine, ih]

theorem entry_combine {f : ℤ → ℤ → ℤ} {n : ℕ} {r other : Row} {i : ℕ} (hn : r.length ≤ n)
    (hi : i < r.length) : (combine f n r other).entry i = f (r.entry i) (other.entry i) := by
  induction n generalizing r other i with
  | zero => omega
  | succ n ih =>
    cases r with
    | nil => simp at hi
    | cons x r =>
      cases i with
      | zero => cases other <;> simp [combine, entry]
      | succ i =>
        have ht : entry other.tail i = other.entry (i + 1) := by cases other <;> simp [entry]
        simp only [combine, entry_cons_succ]
        rw [ih (by simpa using hn) (by simpa using hi), ht]

theorem length_cancel (n c : ℕ) (pivot r : Row) : (cancel n c pivot r).length = r.length :=
  length_combine _ _ _ _

theorem entry_cancel {n c : ℕ} {pivot r : Row} (hr : r.length ≤ n) (hp : pivot.length ≤ r.length) (i : ℕ) :
    (cancel n c pivot r).entry i = pivot.entry c * r.entry i - r.entry c * pivot.entry i := by
  by_cases hi : i < r.length
  · exact entry_combine hr hi
  · have hz : ∀ s : Row, s.length ≤ r.length → s.entry i = 0 := fun s hs => entry_of_length_le (by omega)
    rw [hz _ (length_cancel n c pivot r).le, hz r le_rfl, hz pivot hp]
    ring

theorem length_eliminate (n c : ℕ) (pivot r : Row) : (eliminate n c pivot r).length = r.length := by
  unfold eliminate
  split
  · rfl
  · rw [length_primitive, length_cancel]

/-- Clearing column `c` yields a combination of the row and the pivot row. -/
theorem exists_scale_eliminate {n c : ℕ} {pivot r : Row} (hr : r.length ≤ n) (hp : pivot.length ≤ r.length)
    (hc : 0 < pivot.entry c) :
    ∃ g : ℤ, 0 < g ∧ ∀ i, g * (eliminate n c pivot r).entry i =
      pivot.entry c * r.entry i - r.entry c * pivot.entry i := by
  by_cases hz : r.entry c = 0
  · refine ⟨pivot.entry c, hc, fun i => ?_⟩
    simp [eliminate, hz]
  · obtain ⟨g, hg, he⟩ := exists_scale_primitive (cancel n c pivot r)
    refine ⟨g, hg, fun i => ?_⟩
    simp only [eliminate, hz, if_false]
    rw [← he, entry_cancel hr hp]

theorem length_normalized (r : Row) (c : ℕ) : (r.normalized c).length = r.length := by
  unfold normalized
  rw [length_primitive]
  split <;> simp

theorem entry_eliminate_eq_zero {n c i : ℕ} {pivot r : Row} (hr : r.length ≤ n) (hp : pivot.length ≤ r.length)
    (hc : 0 < pivot.entry c) (h : pivot.entry c * r.entry i = r.entry c * pivot.entry i) :
    (eliminate n c pivot r).entry i = 0 := by
  obtain ⟨g, hg, he⟩ := exists_scale_eliminate hr hp hc
  have hi := he i
  rw [h, sub_self] at hi
  exact (mul_eq_zero.mp hi).resolve_left hg.ne'

theorem entry_eliminate_pos {n c i : ℕ} {pivot r : Row} (hr : r.length ≤ n) (hp : pivot.length ≤ r.length)
    (hc : 0 < pivot.entry c) (hz : pivot.entry i = 0) (hi : 0 < r.entry i) :
    0 < (eliminate n c pivot r).entry i := by
  obtain ⟨g, hg, he⟩ := exists_scale_eliminate hr hp hc
  have h : 0 < g * (eliminate n c pivot r).entry i := by
    rw [he, hz, mul_zero, sub_zero]
    exact mul_pos hc hi
  exact pos_of_mul_pos_right h hg.le

/-- A row is a non-zero multiple of its normal form, whose entry in column `c` is positive. -/
theorem exists_scale_normalized {r : Row} {c : ℕ} (hc : r.entry c ≠ 0) :
    0 < (r.normalized c).entry c ∧ ∃ k : ℤ, k ≠ 0 ∧ ∀ i, r.entry i = k * (r.normalized c).entry i := by
  unfold normalized
  split
  · rename_i hneg
    obtain ⟨g, hg, he⟩ := exists_scale_primitive (r.map (- ·))
    have hm : ∀ i, r.entry i = -g * (primitive (r.map (- ·))).entry i := by
      intro i
      have h := he i
      rw [entry_map neg_zero] at h
      linarith
    have hpos : 0 < g * (primitive (r.map (- ·))).entry c := by
      have := hm c
      linarith
    exact ⟨pos_of_mul_pos_right hpos hg.le, -g, by omega, hm⟩
  · obtain ⟨g, hg, he⟩ := exists_scale_primitive r
    have hpos : 0 < g * r.primitive.entry c := by
      rw [← he]
      omega
    exact ⟨pos_of_mul_pos_right hpos hg.le, g, by omega, he⟩

theorem mul_dot (n : ℕ) (k : ℤ) {r s : Row} (w : ℕ → ℚ) (h : ∀ i, r.entry i = k * s.entry i) :
    r.dot n w = k * s.dot n w := by
  simp only [dot, Finset.mul_sum]
  refine Finset.sum_congr rfl fun i _ => ?_
  rw [h i]
  push_cast
  ring

theorem dot_cancel {n m c : ℕ} {pivot r : Row} (hr : r.length ≤ m) (hp : pivot.length ≤ r.length) (w : ℕ → ℚ) :
    (cancel m c pivot r).dot n w = pivot.entry c * r.dot n w - r.entry c * pivot.dot n w := by
  simp only [dot, Finset.mul_sum, ← Finset.sum_sub_distrib]
  refine Finset.sum_congr rfl fun i _ => ?_
  rw [entry_cancel hr hp]
  push_cast
  ring

theorem dot_eliminate {n c : ℕ} {pivot r : Row} {w : ℕ → ℚ} (hr : r.length ≤ n) (hp : pivot.length ≤ r.length)
    (hc : 0 < pivot.entry c) (hw : pivot.dot n w = 0) :
    (eliminate n c pivot r).dot n w = 0 ↔ r.dot n w = 0 := by
  obtain ⟨g, hg, he⟩ := exists_scale_eliminate hr hp hc
  have h : (g : ℚ) * (eliminate n c pivot r).dot n w = pivot.entry c * r.dot n w - r.entry c * pivot.dot n w := by
    simp only [dot, Finset.mul_sum, ← Finset.sum_sub_distrib]
    refine Finset.sum_congr rfl fun i _ => ?_
    have hi : (g : ℚ) * (eliminate n c pivot r).entry i =
        pivot.entry c * r.entry i - r.entry c * pivot.entry i := by exact_mod_cast he i
    linear_combination w i * hi
  have hg' : (g : ℚ) ≠ 0 := by exact_mod_cast hg.ne'
  have hc' : (pivot.entry c : ℚ) ≠ 0 := by exact_mod_cast hc.ne'
  rw [hw, mul_zero, sub_zero] at h
  constructor
  · intro h0
    rw [h0, mul_zero] at h
    exact (mul_eq_zero.mp h.symm).resolve_left hc'
  · intro h0
    rw [h0, mul_zero] at h
    exact (mul_eq_zero.mp h).resolve_left hg'

end Row

namespace Echelon

/-- Every row vanishes at the vector. -/
def Vanish (n : ℕ) (rows : List Row) (w : ℕ → ℚ) : Prop := ∀ r ∈ rows, r.dot n w = 0

/-- An elimination in `n` columns of which the first `c` are done. -/
structure Reduced (n c : ℕ) (m : Echelon) : Prop where
  width : ∀ r ∈ m.rows ++ m.rest, r.length = n
  paired : m.rows.length = m.pivots.length
  increasing : m.pivots.Pairwise (· < ·)
  bounded : ∀ p ∈ m.pivots, p < c
  positive : ∀ x ∈ m.pivotRows, 0 < x.1.entry x.2
  leading : ∀ x ∈ m.pivotRows, ∀ i < x.2, x.1.entry i = 0
  alone : ∀ x ∈ m.pivotRows, ∀ y ∈ m.pivotRows, x.2 ≠ y.2 → x.1.entry y.2 = 0
  cleared : ∀ r ∈ m.rest, ∀ i < c, r.entry i = 0

theorem step_of_cleared {n c : ℕ} {m : Echelon} (h : ∀ r ∈ m.rest, r.entry c = 0) : step n m c = m := by
  have hd : m.rest.dropWhile (fun r => r.entry c == 0) = [] :=
    List.dropWhile_eq_nil_iff.mpr fun r hr => by simpa using h r hr
  simp only [step, hd]

theorem mem_rotateLeft {α : Type} (l : List α) (a : α) : a ∈ l.rotateLeft 1 ↔ a ∈ l := by
  unfold List.rotateLeft
  dsimp only
  split
  · rfl
  · rw [List.mem_append, Or.comm, ← List.mem_append, List.take_append_drop]

/-- A step with a pivot takes a row with an entry in the column out of the remaining rows. -/
theorem step_of_pivot {n c : ℕ} {m : Echelon} (h : ¬ ∀ r ∈ m.rest, r.entry c = 0) :
    ∃ (r : Row) (others : List Row), r.entry c ≠ 0 ∧ (∀ s, s ∈ m.rest ↔ s = r ∨ s ∈ others) ∧
      step n m c =
        { rows := m.rows.map (Row.eliminate n c (r.normalized c)) ++ [r.normalized c]
          pivots := m.pivots ++ [c]
          rest := others.map (Row.eliminate n c (r.normalized c)) } := by
  cases hd : m.rest.dropWhile (fun r => r.entry c == 0) with
  | nil =>
    refine absurd (fun r hr => ?_) h
    simpa using List.dropWhile_eq_nil_iff.mp hd r hr
  | cons r after =>
    let before := m.rest.takeWhile fun r => r.entry c == 0
    have hrest : m.rest = before ++ r :: after := by
      rw [← hd]
      exact List.takeWhile_append_dropWhile.symm
    have hr : r.entry c ≠ 0 := by
      have hn := List.head?_dropWhile_not (fun r : Row => r.entry c == 0) m.rest
      rw [hd] at hn
      simpa using hn
    refine ⟨r, before.rotateLeft 1 ++ after, hr, fun s => ?_, ?_⟩
    · rw [hrest, List.mem_append, List.mem_append, mem_rotateLeft, List.mem_cons]
      tauto
    · simp only [step, hd]
      rfl

theorem mem_pivotRows {m : Echelon} {x : Row × ℕ} (h : x ∈ m.pivotRows) : x.1 ∈ m.rows ∧ x.2 ∈ m.pivots :=
  ⟨(List.of_mem_zip h).1, (List.of_mem_zip h).2⟩

/-- The rows of the next state with their pivots, when column `c` gets one. -/
theorem pivotRows_append {rows : List Row} {pivots : List ℕ} (h : rows.length = pivots.length) (f : Row → Row)
    (p : Row) (c : ℕ) (rest : List Row) :
    pivotRows ⟨rows.map f ++ [p], pivots ++ [c], rest⟩ =
      (rows.zip pivots).map (fun x => (f x.1, x.2)) ++ [(p, c)] := by
  simp only [pivotRows]
  rw [List.zip_append (by simpa using h), List.zip_map_left]
  rfl

theorem reduced_start {n : ℕ} {rows : List Row} (h : ∀ r ∈ rows, r.length = n) : Reduced n 0 ⟨[], [], rows⟩ where
  width := by simpa using h
  paired := rfl
  increasing := List.Pairwise.nil
  bounded := by simp
  positive := by simp [pivotRows]
  leading := by simp [pivotRows]
  alone := by simp [pivotRows]
  cleared := by simp

theorem Reduced.of_cleared {n c : ℕ} {m : Echelon} (hm : Reduced n c m) (h : ∀ r ∈ m.rest, r.entry c = 0) :
    Reduced n (c + 1) m where
  width := hm.width
  paired := hm.paired
  increasing := hm.increasing
  bounded := fun p hp => Nat.lt_succ_of_lt (hm.bounded p hp)
  positive := hm.positive
  leading := hm.leading
  alone := hm.alone
  cleared := by
    intro r hr i hi
    rcases Nat.lt_succ_iff_lt_or_eq.mp hi with hlt | rfl
    · exact hm.cleared r hr i hlt
    · exact h r hr

theorem Reduced.of_pivot {n c : ℕ} {m : Echelon} {r : Row} {others : List Row} (hm : Reduced n c m)
    (hr : r.entry c ≠ 0) (hrest : ∀ s, s ∈ m.rest ↔ s = r ∨ s ∈ others) :
    Reduced n (c + 1)
      { rows := m.rows.map (Row.eliminate n c (r.normalized c)) ++ [r.normalized c]
        pivots := m.pivots ++ [c]
        rest := others.map (Row.eliminate n c (r.normalized c)) } := by
  obtain ⟨hpos, k, hk, hscale⟩ := Row.exists_scale_normalized hr
  have hmem : r ∈ m.rest := (hrest r).mpr (Or.inl rfl)
  have hlen : (r.normalized c).length = n := by
    rw [Row.length_normalized]
    exact hm.width r (List.mem_append_right _ hmem)
  have hzero : ∀ i < c, (r.normalized c).entry i = 0 := by
    intro i hi
    have h := hm.cleared r hmem i hi
    rw [hscale i] at h
    exact (mul_eq_zero.mp h).resolve_left hk
  have hrows : ∀ s ∈ m.rows, s.length = n := fun s hs => hm.width s (List.mem_append_left _ hs)
  have hothers : ∀ s ∈ others, s ∈ m.rest := fun s hs => (hrest s).mpr (Or.inr hs)
  have hwidth : ∀ s ∈ others, s.length = n := fun s hs =>
    hm.width s (List.mem_append_right _ (hothers s hs))
  have hkeep : ∀ s : Row, s.length = n → s.length ≤ n ∧ (r.normalized c).length ≤ s.length := by
    intro s hs
    omega
  have hsplit : ∀ x ∈ pivotRows ⟨m.rows.map (Row.eliminate n c (r.normalized c)) ++ [r.normalized c],
      m.pivots ++ [c], others.map (Row.eliminate n c (r.normalized c))⟩,
      (∃ y ∈ m.pivotRows, x = (Row.eliminate n c (r.normalized c) y.1, y.2)) ∨ x = (r.normalized c, c) := by
    intro x hx
    rw [pivotRows_append hm.paired] at hx
    rcases List.mem_append.mp hx with hx | hx
    · obtain ⟨y, hy, rfl⟩ := List.mem_map.mp hx
      exact Or.inl ⟨y, hy, rfl⟩
    · exact Or.inr (List.mem_singleton.mp hx)
  have hbelow : ∀ y ∈ m.pivotRows, y.2 < c := fun y hy => hm.bounded _ (mem_pivotRows hy).2
  have hfit : ∀ y ∈ m.pivotRows, y.1.length ≤ n ∧ (r.normalized c).length ≤ y.1.length := fun y hy =>
    hkeep _ (hrows _ (mem_pivotRows hy).1)
  refine ⟨?_, ?_, ?_, ?_, ?_, ?_, ?_, ?_⟩
  · intro s hs
    simp only [List.mem_append, List.mem_map, List.mem_singleton] at hs
    rcases hs with (⟨t, ht, rfl⟩ | rfl) | ⟨t, ht, rfl⟩
    · rw [Row.length_eliminate, hrows t ht]
    · exact hlen
    · rw [Row.length_eliminate, hwidth t ht]
  · simp [hm.paired]
  · refine List.pairwise_append.mpr ⟨hm.increasing, List.pairwise_singleton _ _, fun p hp q hq => ?_⟩
    rw [List.mem_singleton.mp hq]
    exact hm.bounded p hp
  · intro p hp
    rcases List.mem_append.mp hp with hp | hp
    · exact Nat.lt_succ_of_lt (hm.bounded p hp)
    · rw [List.mem_singleton.mp hp]
      exact Nat.lt_succ_self c
  · intro x hx
    rcases hsplit x hx with ⟨y, hy, rfl⟩ | rfl
    · exact Row.entry_eliminate_pos (hfit y hy).1 (hfit y hy).2 hpos (hzero _ (hbelow y hy)) (hm.positive y hy)
    · exact hpos
  · intro x hx i hi
    rcases hsplit x hx with ⟨y, hy, rfl⟩ | rfl
    · refine Row.entry_eliminate_eq_zero (hfit y hy).1 (hfit y hy).2 hpos ?_
      rw [hm.leading y hy i hi, hzero i (hi.trans (hbelow y hy))]
      ring
    · exact hzero i hi
  · intro x hx y hy hne
    rcases hsplit x hx with ⟨u, hu, rfl⟩ | rfl
    · refine Row.entry_eliminate_eq_zero (hfit u hu).1 (hfit u hu).2 hpos ?_
      rcases hsplit y hy with ⟨v, hv, rfl⟩ | rfl
      · rw [hm.alone u hu v hv hne, hzero _ (hbelow v hv)]
        ring
      · ring
    · rcases hsplit y hy with ⟨v, hv, rfl⟩ | rfl
      · exact hzero _ (hbelow v hv)
      · exact absurd rfl hne
  · intro s hs i hi
    obtain ⟨t, ht, rfl⟩ := List.mem_map.mp hs
    obtain ⟨htn, hpt⟩ := hkeep t (hwidth t ht)
    refine Row.entry_eliminate_eq_zero htn hpt hpos ?_
    rcases Nat.lt_succ_iff_lt_or_eq.mp hi with hlt | rfl
    · rw [hm.cleared t (hothers t ht) i hlt, hzero i hlt]
      ring
    · ring

theorem Reduced.step {n c : ℕ} {m : Echelon} (hm : Reduced n c m) : Reduced n (c + 1) (Echelon.step n m c) := by
  by_cases h : ∀ r ∈ m.rest, r.entry c = 0
  · rw [step_of_cleared h]
    exact hm.of_cleared h
  · obtain ⟨r, others, hr, hrest, he⟩ := step_of_pivot (n := n) h
    rw [he]
    exact hm.of_pivot hr hrest

/-- A step keeps the vectors at which all rows vanish. -/
theorem vanish_step {n c : ℕ} {m : Echelon} (hm : Reduced n c m) (w : ℕ → ℚ) :
    Vanish n ((step n m c).rows ++ (step n m c).rest) w ↔ Vanish n (m.rows ++ m.rest) w := by
  by_cases h : ∀ r ∈ m.rest, r.entry c = 0
  · rw [step_of_cleared h]
  · obtain ⟨r, others, hr, hrest, he⟩ := step_of_pivot (n := n) h
    obtain ⟨hpos, k, hk, hscale⟩ := Row.exists_scale_normalized hr
    have hlen : ∀ s ∈ m.rows ++ m.rest, s.length ≤ n ∧ (r.normalized c).length ≤ s.length := by
      intro s hs
      have hw := hm.width r (List.mem_append_right _ ((hrest r).mpr (Or.inl rfl)))
      have hs := hm.width s hs
      rw [Row.length_normalized]
      omega
    have hpivot : (r.normalized c).dot n w = 0 ↔ r.dot n w = 0 := by
      have hk' : (k : ℚ) ≠ 0 := by exact_mod_cast hk
      rw [Row.mul_dot n k w hscale]
      simp [hk']
    have helim : (r.normalized c).dot n w = 0 → ∀ s ∈ m.rows ++ m.rest,
        ((Row.eliminate n c (r.normalized c) s).dot n w = 0 ↔ s.dot n w = 0) := fun h0 s hs =>
      Row.dot_eliminate (hlen s hs).1 (hlen s hs).2 hpos h0
    have hin : ∀ s ∈ others, s ∈ m.rest := fun s hs => (hrest s).mpr (Or.inr hs)
    rw [he]
    constructor
    · intro hv s hs
      have h0 : (r.normalized c).dot n w = 0 := hv _ (by simp)
      rcases List.mem_append.mp hs with hs' | hs'
      · exact (helim h0 s hs).mp (hv _ (by simp only [List.mem_append, List.mem_map]; exact Or.inl (Or.inl ⟨s, hs', rfl⟩)))
      · rcases (hrest s).mp hs' with rfl | hs'
        · exact hpivot.mp h0
        · exact (helim h0 s hs).mp (hv _ (by simp only [List.mem_append, List.mem_map]; exact Or.inr ⟨s, hs', rfl⟩))
    · intro hv s hs
      have h0 : (r.normalized c).dot n w = 0 :=
        hpivot.mpr (hv r (List.mem_append_right _ ((hrest r).mpr (Or.inl rfl))))
      simp only [List.mem_append, List.mem_map, List.mem_singleton] at hs
      rcases hs with (⟨t, ht, rfl⟩ | rfl) | ⟨t, ht, rfl⟩
      · have ht' : t ∈ m.rows ++ m.rest := List.mem_append_left _ ht
        exact (helim h0 t ht').mpr (hv t ht')
      · exact h0
      · have ht' : t ∈ m.rows ++ m.rest := List.mem_append_right _ (hin t ht)
        exact (helim h0 t ht').mpr (hv t ht')

/-- The invariant of elimination over the first columns. -/
theorem reduced_columns {n : ℕ} {rows : List Row} (h : ∀ r ∈ rows, r.length = n) (k : ℕ) :
    Reduced n k ((List.range k).foldl (step n) ⟨[], [], rows⟩) ∧
      ∀ w, Vanish n (((List.range k).foldl (step n) ⟨[], [], rows⟩).rows ++
        ((List.range k).foldl (step n) ⟨[], [], rows⟩).rest) w ↔ Vanish n rows w := by
  induction k with
  | zero => exact ⟨reduced_start h, fun w => by simp⟩
  | succ k ih =>
    obtain ⟨hred, hvan⟩ := ih
    rw [List.range_succ, List.foldl_append, List.foldl_cons, List.foldl_nil]
    exact ⟨hred.step, fun w => (vanish_step hred w).trans (hvan w)⟩

theorem reduced_ofRows {n : ℕ} {rows : List Row} (h : ∀ r ∈ rows, r.length = n) : Reduced n n (ofRows rows n) :=
  (reduced_columns h n).1

theorem Reduced.rest_dot {n : ℕ} {m : Echelon} (hm : Reduced n n m) {r : Row} (hr : r ∈ m.rest) (w : ℕ → ℚ) :
    r.dot n w = 0 := by
  refine Finset.sum_eq_zero fun i hi => ?_
  rw [hm.cleared r hr i (Finset.mem_range.mp hi)]
  simp

/-- The reduced form vanishes exactly where the rows do. -/
theorem vanish_ofRows {n : ℕ} {rows : List Row} (h : ∀ r ∈ rows, r.length = n) (w : ℕ → ℚ) :
    Vanish n (ofRows rows n).rows w ↔ Vanish n rows w := by
  refine Iff.trans ⟨fun hv r hr => ?_, fun hv r hr => hv r (List.mem_append_left _ hr)⟩ ((reduced_columns h n).2 w)
  rcases List.mem_append.mp hr with hr | hr
  · exact hv r hr
  · exact (reduced_ofRows h).rest_dot hr w

/-- A row that reduces to zero by the pivot rows vanishes where they do. -/
theorem dot_of_spans {n : ℕ} {m : Echelon} {row : Row} {w : ℕ → ℚ} (hm : Reduced n n m) (hrow : row.length = n)
    (hs : m.spans row = true) (hw : Vanish n m.rows w) : row.dot n w = 0 := by
  have hpairs : ∀ x ∈ m.pivotRows, x.1.length = n ∧ x.1.entry x.2 ≠ 0 ∧ x.1.dot n w = 0 := by
    intro x hx
    have hr := (mem_pivotRows hx).1
    exact ⟨hm.width _ (List.mem_append_left _ hr), (hm.positive x hx).ne', hw _ hr⟩
  unfold spans at hs
  generalize m.pivotRows = pairs at hpairs hs
  induction pairs generalizing row with
  | nil =>
    refine Finset.sum_eq_zero fun i hi => ?_
    have hi' : i < row.length := by
      have := Finset.mem_range.mp hi
      omega
    have hz : row.entry i = 0 := by
      rw [Row.entry, List.getD_eq_getElem _ _ hi']
      simpa using List.all_eq_true.mp hs _ (List.getElem_mem hi')
    simp [hz]
  | cons x pairs ih =>
    obtain ⟨hlen, hne, hdot⟩ := hpairs x (by simp)
    have hrest : ∀ y ∈ pairs, y.1.length = n ∧ y.1.entry y.2 ≠ 0 ∧ y.1.dot n w = 0 := fun y hy =>
      hpairs y (by simp [hy])
    rw [List.foldl_cons] at hs
    split at hs
    · exact ih hrow hrest hs
    · have h := ih (by rw [Row.length_cancel, hrow]) hrest hs
      rw [Row.dot_cancel le_rfl (by omega), hdot, mul_zero, sub_zero] at h
      have hne' : (x.1.entry x.2 : ℚ) ≠ 0 := by exact_mod_cast hne
      exact (mul_eq_zero.mp h).resolve_left hne'

end Echelon

end PathInvariants

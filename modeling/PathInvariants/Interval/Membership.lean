import PathInvariants.Interval

/-!
# Membership in intervals

What each operation does to the integers of an interval. Meets and integral divisions are exact, the
order is inclusion, and joins and widenings keep every integer of both sides. Two intervals with the
same integers are equal.
-/

namespace PathInvariants.Interval

/-- The lower bound allows `n`. -/
def Above : Option Int → Int → Prop
  | none, _ => True
  | some l, n => l ≤ n

/-- The upper bound allows `n`. -/
def Below : Option Int → Int → Prop
  | none, _ => True
  | some h, n => n ≤ h

theorem mem_range {lo hi : Option Int} {ordered : boundsOrdered lo hi = true} {n : Int} :
    n ∈ range lo hi ordered ↔ Above lo n ∧ Below hi n := by
  cases lo <;> cases hi <;> simp [Membership.mem, contains, Above, Below]

@[simp] theorem not_mem_bottom {n : Int} : ¬ n ∈ bottom := by simp [Membership.mem, contains]

@[simp] theorem mem_top {n : Int} : n ∈ top := by simp [Membership.mem, contains, top]

theorem mem_make {lo hi : Option Int} {n : Int} : n ∈ make lo hi ↔ Above lo n ∧ Below hi n := by
  unfold make
  split
  · exact mem_range
  · rename_i crossed
    cases lo <;> cases hi <;> simp_all [boundsOrdered, Above, Below]
    omega

@[simp] theorem mem_point {k n : Int} : n ∈ point k ↔ n = k := by
  simp only [point, mem_make, Above, Below]
  omega

@[simp] theorem mem_closed {lo hi n : Int} : n ∈ closed lo hi ↔ lo ≤ n ∧ n ≤ hi := by
  simp [closed, mem_make, Above, Below]

@[simp] theorem mem_atLeast {lo n : Int} : n ∈ atLeast lo ↔ lo ≤ n := by
  simp [atLeast, mem_make, Above, Below]

@[simp] theorem mem_atMost {hi n : Int} : n ∈ atMost hi ↔ n ≤ hi := by
  simp [atMost, mem_make, Above, Below]

theorem mem_range_lower {l : Int} {hi : Option Int} {ordered : boundsOrdered (some l) hi = true} :
    l ∈ range (some l) hi ordered := by
  cases hi with
  | none => simp [mem_range, Above, Below]
  | some h => exact mem_range.mpr ⟨Int.le_refl l, by simpa [boundsOrdered, Below] using ordered⟩

theorem mem_range_upper {lo : Option Int} {h : Int} {ordered : boundsOrdered lo (some h) = true} :
    h ∈ range lo (some h) ordered := by
  cases lo with
  | none => simp [mem_range, Above, Below]
  | some l => exact mem_range.mpr ⟨by simpa [boundsOrdered, Above] using ordered, Int.le_refl h⟩

/-- Only the bottom interval is empty. -/
theorem exists_mem {i : Interval} (inhabited : i ≠ bottom) : ∃ n, n ∈ i := by
  cases i with
  | bottom => exact absurd rfl inhabited
  | range lo hi ordered =>
    cases lo with
    | some l => exact ⟨l, mem_range_lower⟩
    | none =>
      cases hi with
      | some h => exact ⟨h, mem_range_upper⟩
      | none => exact ⟨0, by simp [mem_range, Above, Below]⟩

theorem above_of_lowerLe {a b : Option Int} {n : Int} (h : lowerLe a b = true) (hb : Above b n) : Above a n := by
  cases a <;> cases b <;> simp_all [lowerLe, Above]
  omega

theorem below_of_upperLe {a b : Option Int} {n : Int} (h : upperLe a b = true) (ha : Below a n) : Below b n := by
  cases a <;> cases b <;> simp_all [upperLe, Below]
  omega

theorem lowerLe_total {a b : Option Int} (h : ¬ lowerLe a b = true) : lowerLe b a = true := by
  cases a <;> cases b <;> simp_all [lowerLe]
  omega

theorem upperLe_total {a b : Option Int} (h : ¬ upperLe a b = true) : upperLe b a = true := by
  cases a <;> cases b <;> simp_all [upperLe]
  omega

theorem mem_meet {a b : Interval} {n : Int} : n ∈ a.meet b ↔ n ∈ a ∧ n ∈ b := by
  cases a with
  | bottom => simp [meet]
  | range l₁ h₁ _ =>
    cases b with
    | bottom => simp [meet]
    | range l₂ h₂ _ =>
      simp only [meet, mem_make, mem_range]
      constructor
      · rintro ⟨lower, upper⟩
        split at lower <;> split at upper <;> rename_i hl hu
        · exact ⟨⟨above_of_lowerLe hl lower, upper⟩, lower, below_of_upperLe hu upper⟩
        · exact ⟨⟨above_of_lowerLe hl lower, below_of_upperLe (upperLe_total hu) upper⟩, lower, upper⟩
        · exact ⟨⟨lower, upper⟩, above_of_lowerLe (lowerLe_total hl) lower, below_of_upperLe hu upper⟩
        · exact ⟨⟨lower, below_of_upperLe (upperLe_total hu) upper⟩, above_of_lowerLe (lowerLe_total hl) lower, upper⟩
      · rintro ⟨⟨_, _⟩, _, _⟩
        constructor <;> split <;> assumption

theorem mem_join {a b : Interval} {n : Int} (h : n ∈ a ∨ n ∈ b) : n ∈ a.join b := by
  cases a with
  | bottom => cases b <;> simp_all [join]
  | range l₁ h₁ _ =>
    cases b with
    | bottom => simp_all [join]
    | range l₂ h₂ _ =>
      simp only [mem_range] at h
      simp only [join, mem_make]
      rcases h with ⟨lower, upper⟩ | ⟨lower, upper⟩
      · constructor <;> split <;> rename_i h
        · exact lower
        · exact above_of_lowerLe (lowerLe_total h) lower
        · exact upper
        · exact below_of_upperLe (upperLe_total h) upper
      · constructor <;> split <;> rename_i h
        · exact above_of_lowerLe h lower
        · exact lower
        · exact below_of_upperLe h upper
        · exact upper

theorem mem_add {a b : Interval} {m n : Int} (hm : m ∈ a) (hn : n ∈ b) : m + n ∈ a.add b := by
  cases a with
  | bottom => simp at hm
  | range l₁ h₁ _ =>
    cases b with
    | bottom => simp at hn
    | range l₂ h₂ _ =>
      rw [mem_range] at hm hn
      rw [add, mem_make]
      constructor
      · cases l₁ <;> cases l₂ <;> simp_all [addBounds, Above]
        omega
      · cases h₁ <;> cases h₂ <;> simp_all [addBounds, Below]
        omega

theorem mem_scale {i : Interval} {k n : Int} (hn : n ∈ i) : n * k ∈ i.scale k := by
  cases i with
  | bottom => simp at hn
  | range lo hi _ =>
    rw [mem_range] at hn
    obtain ⟨lower, upper⟩ := hn
    simp only [scale]
    split
    · rename_i hk
      simp [hk]
    · split
      · rename_i hk
        rw [mem_make]
        cases lo <;> cases hi <;> simp_all [Above, Below]
      · rename_i hk
        have neg : k ≤ 0 := by omega
        rw [mem_make]
        cases lo <;> cases hi <;> simp_all [Above, Below, Int.mul_le_mul_of_nonpos_right]

theorem le_fdiv {a n d : Int} (hd : 0 < d) : n ≤ a.fdiv d ↔ d * n ≤ a := by
  rw [Int.fdiv_eq_ediv_of_nonneg _ (Int.le_of_lt hd), Int.le_ediv_iff_mul_le hd, Int.mul_comm]

theorem ceilDiv_le {a n d : Int} (hd : 0 < d) : ceilDiv a d ≤ n ↔ a ≤ d * n := by
  have := le_fdiv (a := -a) (n := -n) hd
  rw [Int.mul_neg] at this
  unfold ceilDiv
  omega

/-- Integral division is exact. -/
theorem mem_divide {i : Interval} {k n : Int} (hk : k ≠ 0) : n ∈ i.divide k true ↔ k * n ∈ i := by
  cases i with
  | bottom => simp [divide]
  | range lo hi _ =>
    have hd : (0 : Int) < k.natAbs := by omega
    simp only [divide, mem_make, mem_range, if_true]
    by_cases neg : k < 0
    · have abs : (k.natAbs : Int) = -k := by omega
      simp only [neg, if_true]
      rw [And.comm]
      apply and_congr
      · cases lo with
        | none => simp [Above, Below]
        | some l =>
          have := le_fdiv (a := -l) (n := n) hd
          rw [abs, Int.neg_mul] at this
          simp only [Above, Below, Option.map_some, abs, this]
          omega
      · cases hi with
        | none => simp [Above, Below]
        | some h =>
          have := ceilDiv_le (a := -h) (n := n) hd
          rw [abs, Int.neg_mul] at this
          simp only [Above, Below, Option.map_some, abs, this]
          omega
    · have abs : (k.natAbs : Int) = k := by omega
      simp only [neg, if_false]
      apply and_congr
      · cases lo with
        | none => simp [Above]
        | some l => simp only [Above, Option.map_some, abs, ceilDiv_le (abs ▸ hd)]
      · cases hi with
        | none => simp [Below]
        | some h => simp only [Below, Option.map_some, abs, le_fdiv (abs ▸ hd)]

theorem lowerLe_of_subset {l₁ l₂ h₁ h₂ : Option Int} {o₁ : boundsOrdered l₁ h₁ = true}
    {o₂ : boundsOrdered l₂ h₂ = true} (h : ∀ n, n ∈ range l₁ h₁ o₁ → n ∈ range l₂ h₂ o₂) : lowerLe l₂ l₁ = true := by
  cases l₂ with
  | none => rfl
  | some y =>
    cases l₁ with
    | some x => simpa [lowerLe, Above] using (mem_range.mp (h x mem_range_lower)).1
    | none =>
      have : ∃ n, n < y ∧ Below h₁ n := by
        cases h₁ with
        | none => exact ⟨y - 1, by omega, trivial⟩
        | some z => exact ⟨if z < y then z else y - 1, by split <;> omega, by simp only [Below]; split <;> omega⟩
      obtain ⟨n, below, hn⟩ := this
      have := (mem_range.mp (h n (mem_range.mpr ⟨trivial, hn⟩))).1
      simp only [Above] at this
      omega

theorem upperLe_of_subset {l₁ l₂ h₁ h₂ : Option Int} {o₁ : boundsOrdered l₁ h₁ = true}
    {o₂ : boundsOrdered l₂ h₂ = true} (h : ∀ n, n ∈ range l₁ h₁ o₁ → n ∈ range l₂ h₂ o₂) : upperLe h₁ h₂ = true := by
  cases h₂ with
  | none => cases h₁ <;> rfl
  | some y =>
    cases h₁ with
    | some x => simpa [upperLe, Below] using (mem_range.mp (h x mem_range_upper)).2
    | none =>
      have : ∃ n, y < n ∧ Above l₁ n := by
        cases l₁ with
        | none => exact ⟨y + 1, by omega, trivial⟩
        | some z => exact ⟨if y < z then z else y + 1, by split <;> omega, by simp only [Above]; split <;> omega⟩
      obtain ⟨n, above, hn⟩ := this
      have := (mem_range.mp (h n (mem_range.mpr ⟨hn, trivial⟩))).2
      simp only [Below] at this
      omega

/-- The order is inclusion. -/
theorem leq_iff {a b : Interval} : a.leq b = true ↔ ∀ n, n ∈ a → n ∈ b := by
  cases a with
  | bottom => simp [leq]
  | range l₁ h₁ o₁ =>
    cases b with
    | bottom =>
      obtain ⟨n, hn⟩ := exists_mem (i := range l₁ h₁ o₁) nofun
      simp only [leq, not_mem_bottom, Bool.false_eq_true, false_iff]
      exact fun h => h n hn
    | range l₂ h₂ o₂ =>
      rw [leq, Bool.and_eq_true]
      constructor
      · rintro ⟨lower, upper⟩ n hn
        obtain ⟨above, below⟩ := mem_range.mp hn
        exact mem_range.mpr ⟨above_of_lowerLe lower above, below_of_upperLe upper below⟩
      · exact fun h => ⟨lowerLe_of_subset h, upperLe_of_subset h⟩

theorem leq_antisymm {a b : Interval} (hab : a.leq b = true) (hba : b.leq a = true) : a = b := by
  cases a <;> cases b <;> simp_all [leq]
  rename_i l₁ h₁ _ l₂ h₂ _
  constructor
  · cases l₁ <;> cases l₂ <;> simp_all [lowerLe]
    omega
  · cases h₁ <;> cases h₂ <;> simp_all [upperLe]
    omega

/-- Intervals with the same integers are equal. -/
@[ext] theorem ext {a b : Interval} (h : ∀ n, n ∈ a ↔ n ∈ b) : a = b :=
  leq_antisymm (leq_iff.mpr fun n => (h n).mp) (leq_iff.mpr fun n => (h n).mpr)

/-- The choice among candidates is one of them and does not pass the bound. -/
theorem greatestBelow_spec {bound : Option Int} {candidates : List Int} {c : Int}
    (h : greatestBelow bound candidates = some c) : c ∈ candidates ∧ ∃ n, bound = some n ∧ c ≤ n := by
  induction candidates with
  | nil => simp [greatestBelow] at h
  | cons x xs ih =>
    simp only [greatestBelow] at h
    split at h
    · rename_i chosen
      obtain rfl := Option.some.inj h
      cases bound with
      | none => simp at chosen
      | some n => exact ⟨List.mem_cons_self, n, rfl, by simp_all⟩
    · obtain ⟨mem, le⟩ := ih h
      exact ⟨List.mem_cons_of_mem x mem, le⟩

theorem leastAbove_spec {bound : Option Int} {candidates : List Int} {c : Int}
    (h : leastAbove bound candidates = some c) : c ∈ candidates ∧ ∃ n, bound = some n ∧ n ≤ c := by
  induction candidates with
  | nil => simp [leastAbove] at h
  | cons x xs ih =>
    simp only [leastAbove] at h
    split at h
    · rename_i chosen
      obtain rfl := Option.some.inj h
      cases bound with
      | none => simp at chosen
      | some n => exact ⟨List.mem_cons_self, n, rfl, by simp_all⟩
    · obtain ⟨mem, le⟩ := ih h
      exact ⟨List.mem_cons_of_mem x mem, le⟩

theorem above_greatestBelow {bound : Option Int} {candidates : List Int} {n : Int} (h : Above bound n) :
    Above (greatestBelow bound candidates) n := by
  cases eq : greatestBelow bound candidates with
  | none => trivial
  | some c =>
    obtain ⟨-, m, rfl, le⟩ := greatestBelow_spec eq
    exact Int.le_trans le h

theorem below_leastAbove {bound : Option Int} {candidates : List Int} {n : Int} (h : Below bound n) :
    Below (leastAbove bound candidates) n := by
  cases eq : leastAbove bound candidates with
  | none => trivial
  | some c =>
    obtain ⟨-, m, rfl, le⟩ := leastAbove_spec eq
    exact Int.le_trans h le

theorem mem_widenTo {lower upper : List Int} {a b : Interval} {n : Int} (h : n ∈ a ∨ n ∈ b) :
    n ∈ widenTo lower upper a b := by
  cases a with
  | bottom => simpa [widenTo] using h
  | range l₁ h₁ _ =>
    cases b with
    | bottom => simpa [widenTo] using h
    | range l₂ h₂ _ =>
      simp only [mem_range] at h
      simp only [widenTo, mem_make]
      rcases h with ⟨above, below⟩ | ⟨above, below⟩
      · constructor <;> split <;> rename_i h
        · exact above
        · exact above_greatestBelow (above_of_lowerLe (lowerLe_total h) above)
        · exact below
        · exact below_leastAbove (below_of_upperLe (upperLe_total h) below)
      · constructor <;> split <;> rename_i h
        · exact above_of_lowerLe h above
        · exact above_greatestBelow above
        · exact below_of_upperLe h below
        · exact below_leastAbove below

theorem mem_narrow {a b : Interval} {n : Int} (ha : n ∈ a) (hb : n ∈ b) : n ∈ a.narrow b := by
  cases a with
  | bottom => simp at ha
  | range l₁ h₁ _ =>
    cases b with
    | bottom => simp at hb
    | range l₂ h₂ _ =>
      rw [mem_range] at ha hb
      rw [narrow, mem_make]
      constructor
      · cases l₁ <;> simp_all [Option.or]
      · cases h₁ <;> simp_all [Option.or]

theorem mem_of_mem_narrow {a b : Interval} {n : Int} (h : n ∈ a.narrow b) : n ∈ a := by
  cases a with
  | bottom => simp [narrow] at h
  | range l₁ h₁ _ =>
    cases b with
    | bottom => simp [narrow] at h
    | range l₂ h₂ _ =>
      rw [narrow, mem_make] at h
      rw [mem_range]
      constructor
      · cases l₁ <;> simp_all [Option.or, Above]
      · cases h₁ <;> simp_all [Option.or, Below]

end PathInvariants.Interval

/-!
# Symbols

Program variables and the order in which lists of them are kept.
-/

namespace PathInvariants

/-- A program variable. Symbols are ordered by code points. -/
abbrev Symbol := String

namespace Symbol

/-- Puts a symbol at its place in an ascending list, once. -/
def insert (s : Symbol) : List Symbol → List Symbol
  | [] => [s]
  | t :: ts => if s < t then s :: t :: ts else if s = t then t :: ts else t :: insert s ts

/-- The symbols of a list in ascending order, each once. -/
def sort (symbols : List Symbol) : List Symbol := symbols.foldr insert []

theorem mem_insert {s t : Symbol} {ts : List Symbol} : t ∈ insert s ts ↔ t = s ∨ t ∈ ts := by
  induction ts with
  | nil => simp [insert]
  | cons u us ih =>
    rw [insert]
    split
    · simp
    · split
      · rename_i h; subst h; simp
      · simp only [List.mem_cons, ih]
        constructor <;> (rintro (h | h | h) <;> simp [h])

theorem lt_of_not_lt_of_ne {s t : Symbol} (h : ¬ s < t) (ne : s ≠ t) : t < s := by
  apply Decidable.byContradiction
  intro h'
  exact ne (String.le_antisymm (String.not_lt.mp h') (String.not_lt.mp h))

theorem pairwise_insert {s : Symbol} {ts : List Symbol} (h : ts.Pairwise (· < ·)) :
    (insert s ts).Pairwise (· < ·) := by
  induction ts with
  | nil => simp [insert]
  | cons t ts ih =>
    obtain ⟨below, rest⟩ := List.pairwise_cons.mp h
    rw [insert]
    split
    · rename_i hst
      refine List.pairwise_cons.mpr ⟨fun u hu => ?_, h⟩
      rcases List.mem_cons.mp hu with rfl | hu
      · exact hst
      · exact String.lt_trans hst (below u hu)
    · split
      · exact h
      · rename_i hst ne
        refine List.pairwise_cons.mpr ⟨fun u hu => ?_, ih rest⟩
        rcases mem_insert.mp hu with rfl | hu
        · exact lt_of_not_lt_of_ne hst ne
        · exact below u hu

theorem mem_sort {s : Symbol} {symbols : List Symbol} : s ∈ sort symbols ↔ s ∈ symbols := by
  induction symbols with
  | nil => simp [sort]
  | cons t ts ih =>
    have : sort (t :: ts) = insert t (sort ts) := rfl
    simp [this, mem_insert, ih]

theorem pairwise_sort (symbols : List Symbol) : (sort symbols).Pairwise (· < ·) := by
  induction symbols with
  | nil => simp [sort]
  | cons t ts ih => exact pairwise_insert ih

end Symbol

end PathInvariants

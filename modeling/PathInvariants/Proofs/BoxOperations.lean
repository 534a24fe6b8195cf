import PathInvariants.Box.Basic

/-!
# Operations on boxes

Two boxes are combined binding by binding of the right one, in one pass. What comes out gives every
symbol the combination of its two ranges, although a join looks only at the symbols that both boxes
bind, and a meet changes only those of the right one: the unbounded range absorbs in joins and
widenings, and is neutral in meets and narrowings.
-/
namespace PathInvariants

namespace Interval

/-- With the unbounded range the operation yields the unbounded range. -/
structure Absorbing (f : Interval → Interval → Interval) : Prop where
  left : ∀ i, f .top i = .top
  right : ∀ i, f i .top = .top

/-- With the unbounded range the operation yields the other one. -/
structure Neutral (f : Interval → Interval → Interval) : Prop where
  left : ∀ i, f .top i = i
  right : ∀ i, f i .top = i

theorem make_of_ordered {lo hi : Option Int} (h : boundsOrdered lo hi = true) : make lo hi = range lo hi h := dif_pos h

theorem absorbing_join : Absorbing join := by
  constructor <;> rintro (_ | ⟨lo, hi, h⟩)
  · rfl
  · cases lo <;> cases hi <;> rfl
  · rfl
  · cases lo <;> cases hi <;> rfl

theorem absorbing_widen : Absorbing widen := by
  constructor <;> rintro (_ | ⟨lo, hi, h⟩)
  · rfl
  · cases lo <;> cases hi <;> rfl
  · rfl
  · cases lo <;> cases hi <;> rfl

theorem neutral_meet : Neutral meet := by
  constructor <;> rintro (_ | ⟨lo, hi, h⟩)
  · rfl
  · cases lo <;> cases hi <;> exact make_of_ordered h
  · rfl
  · cases lo <;> cases hi <;> exact make_of_ordered h

theorem neutral_narrow : Neutral narrow := by
  constructor <;> rintro (_ | ⟨lo, hi, h⟩)
  · rfl
  · exact make_of_ordered h
  · rfl
  · cases lo <;> cases hi <;> exact make_of_ordered h

end Interval

namespace Box

open PathInvariants.Interval (Absorbing Neutral)

variable {f : Interval → Interval → Interval} {x y z joined : Sparse Interval.top} {e : Symbol × Interval}
  {es : List (Symbol × Interval)}

theorem get_joinEntry (hf : Absorbing f) (hfree : joined.get e.1 = .top) (s : Symbol) :
    (joinEntry f x joined e).get s = if s = e.1 then f (x.get e.1) e.2 else joined.get s := by
  unfold joinEntry
  split
  · rename_i hx
    rw [hx, hf.left]
    split
    · rename_i hs
      rw [hs, hfree]
    · rfl
  · split
    · rename_i htop
      rw [htop]
      split
      · rename_i hs
        rw [hs, hfree]
      · rfl
    · exact Sparse.get_set ..

/-- The pass of a join binds the symbols that it has come to, each to the combination of both ranges. -/
theorem get_foldl_joinEntry (hf : Absorbing f) (asc : es.Pairwise fun e e' => e.1 < e'.1)
    (hfree : ∀ e ∈ es, joined.get e.1 = .top) (s : Symbol) : (es.foldl (joinEntry f x) joined).get s =
      if s ∈ es.map (·.1) then f (x.get s) (Sparse.lookup .top s es) else joined.get s := by
  induction es generalizing joined with
  | nil => simp
  | cons e es ih =>
    obtain ⟨hlt, asc⟩ := List.pairwise_cons.mp asc
    have hentry := get_joinEntry (x := x) hf (hfree e List.mem_cons_self)
    have hfresh : ∀ e' ∈ es, e'.1 ≠ e.1 := fun e' he' heq => String.lt_irrefl _ (heq ▸ hlt e' he')
    have hrest : ∀ e' ∈ es, (joinEntry f x joined e).get e'.1 = .top := by
      intro e' he'
      rw [hentry, if_neg (hfresh e' he'), hfree e' (List.mem_cons_of_mem _ he')]
    rw [List.foldl_cons, ih asc hrest, hentry, List.map_cons]
    by_cases hs : s = e.1
    · subst hs
      have hout : e.1 ∉ es.map (·.1) := by
        intro hin
        obtain ⟨e', he', heq⟩ := List.mem_map.mp hin
        exact hfresh e' he' heq
      rw [if_neg hout, if_pos rfl, if_pos List.mem_cons_self, Sparse.lookup_cons_self]
    · rw [Sparse.lookup_cons_of_ne (Ne.symm hs), if_neg hs]
      simp only [List.mem_cons, hs, false_or]

theorem make_of_inhabited (h : ∀ e ∈ x.entries, e.2 ≠ .bottom) : make x = ranges x h := dif_pos h

theorem make_of_get_eq_bottom {s : Symbol} (h : x.get s = .bottom) : make x = bottom := by
  refine dif_neg fun hinhabited => ?_
  exact hinhabited (s, .bottom) (Sparse.mem_entries.mpr ⟨h, by decide⟩) rfl

theorem above_ranges {hf : ∀ {i j n}, n ∈ i ∨ n ∈ j → n ∈ f i j} (habsorbing : Absorbing f)
    {hx : ∀ e ∈ x.entries, e.2 ≠ .bottom} {hy : ∀ e ∈ y.entries, e.2 ≠ .bottom} :
    above f hf (ranges x hx) (ranges y hy) = make (Sparse.zipWith f x y) := by
  have hcombined : Sparse.zipWith f x y = y.entries.foldl (joinEntry f x) (Sparse.const _) := by
    ext s
    rw [Sparse.get_zipWith (habsorbing.left _), get_foldl_joinEntry habsorbing y.ascending fun _ _ => rfl]
    split
    · rfl
    · rename_i hs
      rw [Sparse.get_eq_default hs, habsorbing.right]
      rfl
  rw [hcombined]
  exact (make_of_inhabited _).symm

theorem get_meetEntry (hf : Neutral f) (h : meetEntry f x e = some z) (s : Symbol) :
    z.get s = if s = e.1 then f (x.get e.1) e.2 else x.get s := by
  unfold meetEntry at h
  split at h
  · rename_i hx
    rw [← Option.some.inj h, Sparse.get_set, hx, hf.left]
  · split at h
    · cases h
    · rw [← Option.some.inj h, Sparse.get_set]

theorem eq_bottom_of_meetEntry (h : meetEntry f x e = none) : f (x.get e.1) e.2 = .bottom := by
  unfold meetEntry at h
  split at h
  · cases h
  · split at h
    · assumption
    · cases h

/-- The value that the pass of a meet leaves a symbol, from the range it has when the pass comes to `e`. -/
theorem combine_meetEntry (hf : Neutral f) (hlt : ∀ e' ∈ es, e.1 < e'.1) (h : meetEntry f x e = some z) (s : Symbol) :
    f (z.get s) (Sparse.lookup .top s es) = f (x.get s) (Sparse.lookup .top s (e :: es)) := by
  rw [get_meetEntry hf h]
  split
  · rename_i hs
    rw [hs, Sparse.lookup_cons_self, Sparse.lookup_eq_default_of_lt hlt, hf.right]
  · rename_i hs
    rw [Sparse.lookup_cons_of_ne (Ne.symm hs)]

theorem get_foldlM_meetEntry (hf : Neutral f) (asc : es.Pairwise fun e e' => e.1 < e'.1)
    (h : es.foldlM (meetEntry f) x = some z) (s : Symbol) : z.get s = f (x.get s) (Sparse.lookup .top s es) := by
  induction es generalizing x with
  | nil =>
    rw [← Option.some.inj h]
    exact (hf.right _).symm
  | cons e es ih =>
    obtain ⟨hlt, asc⟩ := List.pairwise_cons.mp asc
    rw [List.foldlM_cons] at h
    obtain ⟨x', hx', h⟩ := Option.bind_eq_some_iff.mp h
    rw [ih asc h, combine_meetEntry hf hlt hx']

/-- The pass of a meet breaks off at a symbol whose ranges have nothing in common. -/
theorem exists_bottom_of_foldlM_meetEntry (hf : Neutral f) (asc : es.Pairwise fun e e' => e.1 < e'.1)
    (h : es.foldlM (meetEntry f) x = none) : ∃ s, f (x.get s) (Sparse.lookup .top s es) = .bottom := by
  induction es generalizing x with
  | nil => cases h
  | cons e es ih =>
    obtain ⟨hlt, asc⟩ := List.pairwise_cons.mp asc
    rw [List.foldlM_cons] at h
    cases hx' : meetEntry f x e with
    | none =>
      refine ⟨e.1, ?_⟩
      rw [Sparse.lookup_cons_self]
      exact eq_bottom_of_meetEntry hx'
    | some x' =>
      rw [hx'] at h
      obtain ⟨s, hs⟩ := ih asc h
      exact ⟨s, (combine_meetEntry hf hlt hx' s).symm.trans hs⟩

theorem below_ranges (hneutral : Neutral f) {hx : ∀ e ∈ x.entries, e.2 ≠ .bottom}
    {hy : ∀ e ∈ y.entries, e.2 ≠ .bottom} : below f (ranges x hx) (ranges y hy) = make (Sparse.zipWith f x y) := by
  have hzip := Sparse.get_zipWith (hneutral.left Interval.top) x y
  rw [below]
  split
  · rename_i h
    obtain ⟨s, hs⟩ := exists_bottom_of_foldlM_meetEntry hneutral y.ascending h
    exact (make_of_get_eq_bottom ((hzip s).trans hs)).symm
  · rename_i z h
    obtain rfl : z = Sparse.zipWith f x y := by
      ext s
      rw [hzip, get_foldlM_meetEntry hneutral y.ascending h]
      rfl
    exact (make_of_inhabited _).symm

end Box

end PathInvariants

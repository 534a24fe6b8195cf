import PathInvariants.Symbol

/-!
# Ascending lists of entries

Lists that give values to symbols, in symbol order, with a default value for the symbols they leave
out. A value that is the default is never listed. Placing a value and combining two lists take one
pass; `placed` and `merged` say what comes out.
-/

namespace PathInvariants.Sparse

variable {α : Type} {d : α}

/-- The value listed for `s`, or `d`. -/
def lookup (d : α) (s : Symbol) : List (Symbol × α) → α
  | [] => d
  | e :: es => if e.1 = s then e.2 else lookup d s es

theorem lookup_eq_of_mem {es : List (Symbol × α)} (asc : es.Pairwise fun x y => x.1 < y.1)
    {e : Symbol × α} (he : e ∈ es) : lookup d e.1 es = e.2 := by
  induction es with
  | nil => simp at he
  | cons x xs ih =>
    obtain ⟨below, rest⟩ := List.pairwise_cons.mp asc
    rcases List.mem_cons.mp he with rfl | he
    · simp [lookup]
    · have : x.1 ≠ e.1 := fun eq => String.lt_irrefl _ (eq ▸ below e he)
      simp [lookup, this, ih rest he]

theorem lookup_eq_default {es : List (Symbol × α)} {s : Symbol} (h : ∀ e ∈ es, e.1 ≠ s) :
    lookup d s es = d := by
  induction es with
  | nil => rfl
  | cons x xs ih => simp_all [lookup]

theorem lookup_cons_self (x : Symbol × α) (xs : List (Symbol × α)) : lookup d x.1 (x :: xs) = x.2 := if_pos rfl

theorem lookup_cons_of_ne {x : Symbol × α} {s : Symbol} (h : x.1 ≠ s) (xs : List (Symbol × α)) :
    lookup d s (x :: xs) = lookup d s xs := if_neg h

theorem lookup_eq_default_of_lt {es : List (Symbol × α)} {s : Symbol} (h : ∀ e ∈ es, s < e.1) :
    lookup d s es = d :=
  lookup_eq_default fun e he eq => String.lt_irrefl s (eq ▸ h e he)

variable [DecidableEq α]

/-- Puts a value in front of a list unless it is the default. -/
def link (d : α) (s : Symbol) (a : α) (es : List (Symbol × α)) : List (Symbol × α) :=
  if a = d then es else (s, a) :: es

/-- Lists the value `a` for `s`. -/
def place (d : α) (s : Symbol) (a : α) : List (Symbol × α) → List (Symbol × α)
  | [] => link d s a []
  | e :: es =>
    if s < e.1 then link d s a (e :: es) else if s = e.1 then link d s a es else e :: place d s a es

/-- Finds the place of `x` in a list that `rest` combines with what follows `x`. -/
def mergeEntry (d : α) (g : α → α → α) (x : Symbol × α) (rest : List (Symbol × α) → List (Symbol × α)) :
    List (Symbol × α) → List (Symbol × α)
  | [] => link d x.1 (g x.2 d) (rest [])
  | y :: ys =>
    if x.1 < y.1 then link d x.1 (g x.2 d) (rest (y :: ys))
    else if x.1 = y.1 then link d x.1 (g x.2 y.2) (rest ys)
    else link d y.1 (g d y.2) (mergeEntry d g x rest ys)

/-- Combines two lists symbol by symbol in one pass. -/
def merge (d : α) (g : α → α → α) (xs : List (Symbol × α)) : List (Symbol × α) → List (Symbol × α) :=
  xs.foldr (mergeEntry d g) fun ys => ys.foldr (fun y => link d y.1 (g d y.2)) []

theorem mem_link {s : Symbol} {a : α} {es : List (Symbol × α)} {e : Symbol × α} :
    e ∈ link d s a es ↔ e = (s, a) ∧ a ≠ d ∨ e ∈ es := by
  rw [link]
  split <;> simp_all

theorem pairwise_link {s : Symbol} {a : α} {es : List (Symbol × α)} (hs : ∀ e ∈ es, s < e.1)
    (asc : es.Pairwise fun x y => x.1 < y.1) : (link d s a es).Pairwise fun x y => x.1 < y.1 := by
  rw [link]
  split
  · exact asc
  · exact List.pairwise_cons.mpr ⟨hs, asc⟩

theorem lookup_link {s : Symbol} {a : α} {es : List (Symbol × α)} (hs : ∀ e ∈ es, s < e.1) (t : Symbol) :
    lookup d t (link d s a es) = if s = t then a else lookup d t es := by
  rw [link]
  split
  · rename_i ha
    split
    · rename_i hst
      subst hst ha
      exact lookup_eq_default fun e he eq => String.lt_irrefl s (eq ▸ hs e he)
    · rfl
  · rfl

/-- What `es` becomes when `s` gets the value `a`. -/
structure Placed (d : α) (s : Symbol) (a : α) (es fs : List (Symbol × α)) : Prop where
  ascending : fs.Pairwise fun x y => x.1 < y.1
  exceptional : ∀ e ∈ fs, e.2 ≠ d
  above : ∀ t, t < s → (∀ e ∈ es, t < e.1) → ∀ e ∈ fs, t < e.1
  lookup : ∀ t, lookup d t fs = if t = s then a else lookup d t es

theorem placed (s : Symbol) (a : α) {es : List (Symbol × α)} (asc : es.Pairwise fun x y => x.1 < y.1)
    (exc : ∀ e ∈ es, e.2 ≠ d) : Placed d s a es (place d s a es) := by
  induction es with
  | nil =>
    refine ⟨pairwise_link (by simp) .nil, ?_, ?_, fun t => ?_⟩
    · intro e he
      rcases mem_link.mp he with ⟨rfl, ha⟩ | he
      · exact ha
      · simp at he
    · intro t ht _ e he
      rcases mem_link.mp he with ⟨rfl, -⟩ | he
      · exact ht
      · simp at he
    · rw [place, lookup_link (by simp)]
      simp only [eq_comm]
  | cons x xs ih =>
    obtain ⟨hx, rest⟩ := List.pairwise_cons.mp asc
    have ih := ih rest fun e he => exc e (List.mem_cons_of_mem _ he)
    rw [place]
    split
    · rename_i hlt
      have hs : ∀ e ∈ x :: xs, s < e.1 := by
        intro e he
        rcases List.mem_cons.mp he with rfl | he
        · exact hlt
        · exact String.lt_trans hlt (hx e he)
      refine ⟨pairwise_link hs asc, ?_, ?_, fun t => ?_⟩
      · intro e he
        rcases mem_link.mp he with ⟨rfl, ha⟩ | he
        · exact ha
        · exact exc e he
      · intro t ht h e he
        rcases mem_link.mp he with ⟨rfl, -⟩ | he
        · exact ht
        · exact h e he
      · rw [lookup_link hs]
        simp only [eq_comm]
    · split
      · rename_i hlt heq
        refine ⟨pairwise_link (heq ▸ hx) rest, ?_, ?_, fun t => ?_⟩
        · intro e he
          rcases mem_link.mp he with ⟨rfl, ha⟩ | he
          · exact ha
          · exact exc e (List.mem_cons_of_mem _ he)
        · intro t ht h e he
          rcases mem_link.mp he with ⟨rfl, -⟩ | he
          · exact ht
          · exact h e (List.mem_cons_of_mem _ he)
        · rw [lookup_link (heq ▸ hx)]
          by_cases hst : s = t
          · simp [hst]
          · have ht : t ≠ s := fun h => hst h.symm
            have hxt : x.1 ≠ t := fun h => hst (heq.trans h)
            rw [if_neg hst, if_neg ht, Sparse.lookup, if_neg hxt]
      · rename_i hlt hne
        have hxs : x.1 < s := Symbol.lt_of_not_lt_of_ne hlt hne
        refine ⟨List.pairwise_cons.mpr ⟨ih.above x.1 hxs hx, ih.ascending⟩, ?_, ?_, fun t => ?_⟩
        · intro e he
          rcases List.mem_cons.mp he with rfl | he
          · exact exc e List.mem_cons_self
          · exact ih.exceptional e he
        · intro t ht h e he
          rcases List.mem_cons.mp he with rfl | he
          · exact h e List.mem_cons_self
          · exact ih.above t ht (fun e he => h e (List.mem_cons_of_mem _ he)) e he
        · rw [Sparse.lookup, Sparse.lookup, ih.lookup]
          by_cases hxt : x.1 = t
          · have : t ≠ s := fun h => hne (h.symm.trans hxt.symm)
            simp [hxt, this]
          · simp [hxt]

/-- What two lists combine to. -/
structure Merged (d : α) (g : α → α → α) (xs ys zs : List (Symbol × α)) : Prop where
  ascending : zs.Pairwise fun x y => x.1 < y.1
  exceptional : ∀ e ∈ zs, e.2 ≠ d
  above : ∀ s, (∀ e ∈ xs, s < e.1) → (∀ e ∈ ys, s < e.1) → ∀ e ∈ zs, s < e.1
  lookup : g d d = d → ∀ s, lookup d s zs = g (lookup d s xs) (lookup d s ys)

theorem Merged.link {g : α → α → α} {xs ys xs' ys' zs : List (Symbol × α)} (h : Merged d g xs ys zs)
    {s : Symbol} {a : α} (hx : ∀ e ∈ xs, s < e.1) (hy : ∀ e ∈ ys, s < e.1)
    (above : ∀ t, (∀ e ∈ xs', t < e.1) → (∀ e ∈ ys', t < e.1) →
      t < s ∧ (∀ e ∈ xs, t < e.1) ∧ ∀ e ∈ ys, t < e.1)
    (found : g (Sparse.lookup d s xs') (Sparse.lookup d s ys') = a)
    (others : ∀ t, s ≠ t → Sparse.lookup d t xs' = Sparse.lookup d t xs ∧
      Sparse.lookup d t ys' = Sparse.lookup d t ys) :
    Merged d g xs' ys' (link d s a zs) := by
  have hz := h.above s hx hy
  refine ⟨pairwise_link hz h.ascending, ?_, ?_, fun hg t => ?_⟩
  · intro e he
    rcases mem_link.mp he with ⟨rfl, ha⟩ | he
    · exact ha
    · exact h.exceptional e he
  · intro t htx hty e he
    obtain ⟨hts, htx, hty⟩ := above t htx hty
    rcases mem_link.mp he with ⟨rfl, -⟩ | he
    · exact hts
    · exact h.above t htx hty e he
  · rw [lookup_link hz]
    split
    · rename_i hst
      subst hst
      exact found.symm
    · rename_i hst
      rw [h.lookup hg, (others t hst).1, (others t hst).2]

theorem merged_nil (g : α → α → α) {ys : List (Symbol × α)} (asc : ys.Pairwise fun x y => x.1 < y.1) :
    Merged d g [] ys (ys.foldr (fun y => link d y.1 (g d y.2)) []) := by
  induction ys with
  | nil => exact ⟨.nil, by simp, by simp, fun hg s => hg.symm⟩
  | cons y ys ih =>
    obtain ⟨hy, rest⟩ := List.pairwise_cons.mp asc
    refine (ih rest).link (by simp) hy (fun t _ ht => ?_) ?_ fun t ht => ⟨rfl, lookup_cons_of_ne ht ys⟩
    · exact ⟨ht y List.mem_cons_self, by simp, fun e he => ht e (List.mem_cons_of_mem _ he)⟩
    · rw [lookup_cons_self]
      rfl

theorem merged_entry {g : α → α → α} {x : Symbol × α} {xs ys : List (Symbol × α)}
    {rest : List (Symbol × α) → List (Symbol × α)} (hx : ∀ e ∈ xs, x.1 < e.1)
    (h : ∀ ys : List (Symbol × α), (ys.Pairwise fun x y => x.1 < y.1) → Merged d g xs ys (rest ys))
    (asc : ys.Pairwise fun x y => x.1 < y.1) : Merged d g (x :: xs) ys (mergeEntry d g x rest ys) := by
  induction ys with
  | nil =>
    refine (h [] .nil).link hx (by simp) (fun t ht _ => ?_) ?_ fun t ht => ⟨lookup_cons_of_ne ht xs, rfl⟩
    · exact ⟨ht x List.mem_cons_self, fun e he => ht e (List.mem_cons_of_mem _ he), by simp⟩
    · rw [lookup_cons_self]
      rfl
  | cons y ys ih =>
    obtain ⟨hy, rest'⟩ := List.pairwise_cons.mp asc
    rw [mergeEntry]
    split
    · rename_i hlt
      have hxy : ∀ e ∈ y :: ys, x.1 < e.1 := by
        intro e he
        rcases List.mem_cons.mp he with rfl | he
        · exact hlt
        · exact String.lt_trans hlt (hy e he)
      refine (h (y :: ys) asc).link hx hxy (fun t ht hty => ?_) ?_ fun t ht => ⟨lookup_cons_of_ne ht xs, rfl⟩
      · exact ⟨ht x List.mem_cons_self, fun e he => ht e (List.mem_cons_of_mem _ he), hty⟩
      · rw [lookup_cons_self, lookup_eq_default_of_lt hxy]
    · split
      · rename_i hlt heq
        refine (h ys rest').link hx (heq ▸ hy) (fun t ht hty => ?_) ?_ fun t ht =>
          ⟨lookup_cons_of_ne ht xs, lookup_cons_of_ne (heq ▸ ht) ys⟩
        · exact ⟨ht x List.mem_cons_self, fun e he => ht e (List.mem_cons_of_mem _ he),
            fun e he => hty e (List.mem_cons_of_mem _ he)⟩
        · rw [lookup_cons_self, heq, lookup_cons_self]
      · rename_i hlt hne
        have hyx : y.1 < x.1 := Symbol.lt_of_not_lt_of_ne hlt hne
        have hys : ∀ e ∈ x :: xs, y.1 < e.1 := by
          intro e he
          rcases List.mem_cons.mp he with rfl | he
          · exact hyx
          · exact String.lt_trans hyx (hx e he)
        refine (ih rest').link hys hy (fun t ht hty => ?_) ?_ fun t ht => ⟨rfl, lookup_cons_of_ne ht ys⟩
        · exact ⟨hty y List.mem_cons_self, ht, fun e he => hty e (List.mem_cons_of_mem _ he)⟩
        · rw [lookup_cons_self, lookup_eq_default_of_lt hys]

theorem merged (g : α → α → α) {xs ys : List (Symbol × α)} (hx : xs.Pairwise fun x y => x.1 < y.1)
    (hy : ys.Pairwise fun x y => x.1 < y.1) : Merged d g xs ys (merge d g xs ys) := by
  induction xs generalizing ys with
  | nil => exact merged_nil g hy
  | cons x xs ih =>
    obtain ⟨above, rest⟩ := List.pairwise_cons.mp hx
    exact merged_entry above (fun ys hys => ih rest hys) hy

end PathInvariants.Sparse

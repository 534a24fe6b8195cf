import PathInvariants.Sparse.Entries

/-!
# Sparse functions on symbols

A function from program symbols that takes one fixed value at all but finitely many of them.
Coefficients of linear expressions (zero elsewhere), boxes of ranges (unbounded elsewhere) and
environments (untracked elsewhere) are all of this shape. The exceptional symbols are stored in
symbol order and the default value never is, so two sparse functions are equal as soon as they
agree at every symbol (`Sparse.ext`).
-/

namespace PathInvariants

/-- A function on symbols with the value `d` at all but the listed ones. -/
structure Sparse {α : Type} (d : α) where
  entries : List (Symbol × α)
  ascending : entries.Pairwise fun x y => x.1 < y.1
  exceptional : ∀ e ∈ entries, e.2 ≠ d
deriving DecidableEq

namespace Sparse

variable {α : Type} {d : α}

def get (f : Sparse d) (s : Symbol) : α := lookup d s f.entries

/-- The symbols with a value other than `d`, ascending. -/
def support (f : Sparse d) : List Symbol := f.entries.map (·.1)

def size (f : Sparse d) : Nat := f.entries.length

/-- The function that is `d` everywhere. -/
def const (d : α) : Sparse d := ⟨[], List.Pairwise.nil, nofun⟩

/-- The function that agrees with `f` on the given symbols and is `d` elsewhere. -/
def ofFn [DecidableEq α] (d : α) (symbols : List Symbol) (f : Symbol → α) : Sparse d where
  entries := ((Symbol.sort symbols).map fun s => (s, f s)).filter fun e => decide (e.2 ≠ d)
  ascending := by
    apply List.Pairwise.filter
    exact List.pairwise_map.mpr (Symbol.pairwise_sort symbols)
  exceptional := fun e he => by simpa using (List.mem_filter.mp he).2

def set [DecidableEq α] (f : Sparse d) (s : Symbol) (a : α) : Sparse d where
  entries := place d s a f.entries
  ascending := (placed s a f.ascending f.exceptional).ascending
  exceptional := (placed s a f.ascending f.exceptional).exceptional

/-- Gives `s` the default value. -/
def erase [DecidableEq α] (f : Sparse d) (s : Symbol) : Sparse d := f.set s d

/-- Keeps the values at the symbols chosen by `keep`. -/
def restrict (f : Sparse d) (keep : Symbol → Bool) : Sparse d where
  entries := f.entries.filter fun e => keep e.1
  ascending := f.ascending.filter _
  exceptional := fun e he => f.exceptional e (List.mem_filter.mp he).1

/-- Combines two functions symbol by symbol, where `g d d` is meant to be `d`. -/
def zipWith [DecidableEq α] (g : α → α → α) (f f' : Sparse d) : Sparse d where
  entries := merge d g f.entries f'.entries
  ascending := (merged g f.ascending f'.ascending).ascending
  exceptional := (merged g f.ascending f'.ascending).exceptional

/-- Applies `g` to every value. A `g` that moves `d` moves it at listed symbols only. -/
def map [DecidableEq α] (g : α → α) (f : Sparse d) : Sparse d := zipWith (fun a _ => g a) f (const d)

theorem mem_entries {f : Sparse d} {s : Symbol} {a : α} :
    (s, a) ∈ f.entries ↔ f.get s = a ∧ a ≠ d := by
  constructor
  · intro h
    exact ⟨lookup_eq_of_mem f.ascending h, f.exceptional _ h⟩
  · rintro ⟨rfl, ne⟩
    by_cases h : ∀ e ∈ f.entries, e.1 ≠ s
    · exact absurd (lookup_eq_default h) ne
    · simp only [Classical.not_forall] at h
      obtain ⟨e, he, heq⟩ := h
      have heq : e.1 = s := Classical.not_not.mp heq
      have := lookup_eq_of_mem (d := d) f.ascending he
      subst heq
      rwa [get, this]

theorem mem_support {f : Sparse d} {s : Symbol} : s ∈ f.support ↔ f.get s ≠ d := by
  simp only [support, List.mem_map]
  constructor
  · rintro ⟨⟨t, a⟩, he, rfl⟩
    obtain ⟨eq, ne⟩ := mem_entries.mp he
    exact eq ▸ ne
  · intro h
    exact ⟨(s, f.get s), mem_entries.mpr ⟨rfl, h⟩, rfl⟩

/-- Outside the support the value is the default. -/
theorem get_eq_default {f : Sparse d} {s : Symbol} (h : s ∉ f.support) : f.get s = d :=
  Classical.byContradiction fun ne => h (mem_support.mpr ne)

@[simp] theorem get_const (s : Symbol) : (const d).get s = d := rfl

theorem pairwise_support (f : Sparse d) : f.support.Pairwise (· < ·) :=
  List.pairwise_map.mpr f.ascending

theorem entries_ext {xs ys : List (Symbol × α)} (hx : xs.Pairwise fun x y => x.1 < y.1)
    (hy : ys.Pairwise fun x y => x.1 < y.1) (h : ∀ e, e ∈ xs ↔ e ∈ ys) : xs = ys := by
  induction xs generalizing ys with
  | nil =>
    cases ys with
    | nil => rfl
    | cons y ys => exact absurd ((h y).mpr (by simp)) (by simp)
  | cons x xs ih =>
    cases ys with
    | nil => exact absurd ((h x).mp (by simp)) (by simp)
    | cons y ys =>
      obtain ⟨xbelow, xrest⟩ := List.pairwise_cons.mp hx
      obtain ⟨ybelow, yrest⟩ := List.pairwise_cons.mp hy
      have hxy : x = y := by
        rcases List.mem_cons.mp ((h x).mp (by simp)) with eq | hin
        · exact eq
        · rcases List.mem_cons.mp ((h y).mpr (by simp)) with eq | hin'
          · exact eq.symm
          · exact absurd (xbelow y hin') (String.lt_asymm (ybelow x hin))
      subst hxy
      congr 1
      refine ih xrest yrest fun e => ⟨fun he => ?_, fun he => ?_⟩
      · rcases List.mem_cons.mp ((h e).mp (List.mem_cons_of_mem _ he)) with rfl | he'
        · exact absurd (xbelow e he) (String.lt_irrefl _)
        · exact he'
      · rcases List.mem_cons.mp ((h e).mpr (List.mem_cons_of_mem _ he)) with rfl | he'
        · exact absurd (ybelow e he) (String.lt_irrefl _)
        · exact he'

/-- Sparse functions with the same values are equal. -/
@[ext] theorem ext {f g : Sparse d} (h : ∀ s, f.get s = g.get s) : f = g := by
  have : f.entries = g.entries := by
    apply entries_ext f.ascending g.ascending
    intro ⟨s, a⟩
    rw [mem_entries, mem_entries, h]
  cases f; cases g; simp_all

variable [DecidableEq α]

@[simp] theorem get_ofFn (symbols : List Symbol) (f : Symbol → α) (s : Symbol) :
    (ofFn d symbols f).get s = if s ∈ symbols then f s else d := by
  by_cases hs : s ∈ symbols
  · rw [if_pos hs]
    by_cases hd : f s = d
    · rw [hd]
      apply lookup_eq_default
      rintro ⟨t, a⟩ he rfl
      obtain ⟨he, ne⟩ := List.mem_filter.mp he
      obtain ⟨u, -, eq⟩ := List.mem_map.mp he
      obtain ⟨rfl, rfl⟩ := Prod.mk.inj eq
      simp [hd] at ne
    · refine (mem_entries.mp ?_).1
      refine List.mem_filter.mpr ⟨List.mem_map.mpr ⟨s, Symbol.mem_sort.mpr hs, rfl⟩, ?_⟩
      simpa using hd
  · rw [if_neg hs]
    apply lookup_eq_default
    rintro ⟨t, a⟩ he rfl
    obtain ⟨u, hu, eq⟩ := List.mem_map.mp (List.mem_filter.mp he).1
    obtain ⟨rfl, rfl⟩ := Prod.mk.inj eq
    exact hs (Symbol.mem_sort.mp hu)

theorem get_set (f : Sparse d) (s t : Symbol) (a : α) :
    (f.set s a).get t = if t = s then a else f.get t :=
  (placed s a f.ascending f.exceptional).lookup t

theorem mem_entries_set {f : Sparse d} {s : Symbol} {a : α} {e : Symbol × α} (he : e ∈ (f.set s a).entries) :
    e = (s, a) ∨ e ∈ f.entries := by
  obtain ⟨hget, hd⟩ := mem_entries.mp he
  rw [get_set] at hget
  split at hget
  · rename_i hs
    exact .inl (Prod.ext hs hget.symm)
  · exact .inr (mem_entries.mpr ⟨hget, hd⟩)

theorem get_erase (f : Sparse d) (s t : Symbol) :
    (f.erase s).get t = if t = s then d else f.get t := get_set f s t d

theorem get_zipWith {g : α → α → α} (hg : g d d = d) (f f' : Sparse d) (s : Symbol) :
    (zipWith g f f').get s = g (f.get s) (f'.get s) :=
  (merged g f.ascending f'.ascending).lookup hg s

theorem get_map {g : α → α} (hg : g d = d) (f : Sparse d) (s : Symbol) :
    (f.map g).get s = g (f.get s) := get_zipWith hg f (const d) s

end Sparse

end PathInvariants

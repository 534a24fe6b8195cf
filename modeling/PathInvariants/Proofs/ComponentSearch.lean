import PathInvariants.Flow.Component
import PathInvariants.Proofs.SearchOrder

/-!
# The search for components

What holds between two steps of the search. The visits under way cut the stack into pieces: above the
node of each visit lie finished nodes of its component. The lowlink of that node is the number of a node
that it leads to, and no edge looked at so far leads from its piece to a lower one on the stack. So when
a visit ends with the lowlink at the number of its own node, the piece is a whole component.
-/
namespace PathInvariants.Flow

variable {succ : ℕ → List ℕ} {size : ℕ} {a b c n m : ℕ}

/-- Each of two nodes leads to the other. -/
def Mutual (succ : ℕ → List ℕ) (a b : ℕ) : Prop := Reaches succ a b ∧ Reaches succ b a

namespace Mutual

theorem refl (succ : ℕ → List ℕ) (a : ℕ) : Mutual succ a a := ⟨.refl, .refl⟩

theorem symm (h : Mutual succ a b) : Mutual succ b a := ⟨h.2, h.1⟩

theorem trans (h : Mutual succ a b) (h' : Mutual succ b c) : Mutual succ a c := ⟨h.1.trans h'.1, h'.2.trans h.2⟩

end Mutual

/-- The number of a node in the order of visits, in which the first has number one. -/
def number (order : List ℕ) (v : ℕ) : ℕ := order.idxOf v + 1

theorem number_append {order : List ℕ} {v : ℕ} (h : v ∈ order) (more : List ℕ) :
    number (order ++ more) v = number order v := by
  rw [number, number, List.idxOf_append_of_mem h]

theorem number_le {order : List ℕ} {v : ℕ} (h : v ∈ order) : number order v ≤ order.length :=
  List.idxOf_lt_length_of_mem h

theorem number_append_self {order : List ℕ} {w : ℕ} (h : w ∉ order) : number (order ++ [w]) w = order.length + 1 := by
  rw [number, List.idxOf_append_of_notMem h]
  simp

namespace ComponentSearch

variable {s : ComponentSearch} {order stack : List ℕ} {low : ℕ → ℕ} {v w pos : ℕ} {calls : List (ℕ × ℕ)}

section Frames

/-- An edge that has been looked at leads to a visited node, which is not below `bound` if it is on the stack. -/
def Passed (order stack : List ℕ) (bound x : ℕ) : Prop := x ∈ order ∧ (x ∈ stack → bound ≤ number order x)

theorem Passed.le {bound bound' x : ℕ} (h : Passed order stack bound x) (hle : bound' ≤ bound) :
    Passed order stack bound' x := ⟨h.1, fun hx => hle.trans (h.2 hx)⟩

/-- A visit of `v` that has come to a position, with the finished nodes `piece` above `v` on the stack and the nodes
`rest` below. -/
structure Frame (succ : ℕ → List ℕ) (order stack : List ℕ) (low : ℕ → ℕ) (v pos : ℕ) (piece rest : List ℕ) : Prop where
  inside : ∀ w ∈ piece, Mutual succ v w
  low_le : low v ≤ number order v
  leads : ∃ u ∈ v :: rest, Reaches succ v u ∧ number order u = low v
  finished : ∀ w ∈ piece, ∀ x ∈ succ w, Passed order stack (low v) x
  passed : ∀ x ∈ (succ v).take pos, Passed order stack (low v) x

/-- The visits under way, each called from the one before, cut the stack into pieces. -/
inductive Frames (succ : ℕ → List ℕ) (order stack : List ℕ) (low : ℕ → ℕ) : List (ℕ × ℕ) → List ℕ → Prop
  | nil : Frames succ order stack low [] []
  | cons {v pos : ℕ} {calls : List (ℕ × ℕ)} {piece rest : List ℕ} (frame : Frame succ order stack low v pos piece rest)
      (caller : ∀ e ∈ calls.head?, v ∈ succ e.1) (below : Frames succ order stack low calls rest) :
      Frames succ order stack low ((v, pos) :: calls) (piece ++ v :: rest)

/-- Visits and pops elsewhere change nothing for a visit. -/
theorem Frame.mono {order' stack' : List ℕ} {low' : ℕ → ℕ} {piece rest : List ℕ}
    (h : Frame succ order stack low v pos piece rest) (hv : ∀ x ∈ v :: rest, x ∈ order)
    (hnumber : ∀ x ∈ order, x ∈ order' ∧ number order' x = number order x)
    (hstack : ∀ x ∈ order, x ∈ stack' → x ∈ stack) (hlow : low' v = low v) :
    Frame succ order' stack' low' v pos piece rest := by
  have hpassed : ∀ x, Passed order stack (low v) x → Passed order' stack' (low' v) x := by
    intro x hx
    obtain ⟨hmem, heq⟩ := hnumber x hx.1
    exact ⟨hmem, fun hx' => by rw [hlow, heq]; exact hx.2 (hstack x hx.1 hx')⟩
  obtain ⟨u, hu, hreach, heq⟩ := h.leads
  refine ⟨h.inside, ?_, ⟨u, hu, hreach, ?_⟩, fun w hw x hx => hpassed x (h.finished w hw x hx),
    fun x hx => hpassed x (h.passed x hx)⟩
  · rw [hlow, (hnumber v (hv v List.mem_cons_self)).2]
    exact h.low_le
  · rw [hlow, (hnumber u (hv u hu)).2, heq]

theorem Frames.mono {order' stack' part : List ℕ} {low' : ℕ → ℕ} (h : Frames succ order stack low calls part)
    (hpart : ∀ x ∈ part, x ∈ order) (hnumber : ∀ x ∈ order, x ∈ order' ∧ number order' x = number order x)
    (hstack : ∀ x ∈ order, x ∈ stack' → x ∈ stack) (hlow : ∀ x ∈ part, low' x = low x) :
    Frames succ order' stack' low' calls part := by
  induction h with
  | nil => exact .nil
  | cons frame caller _ ih =>
    refine .cons (frame.mono (fun x hx => hpart x (List.mem_append_right _ hx)) hnumber hstack
      (hlow _ (by simp))) caller (ih (fun x hx => hpart x ?_) fun x hx => hlow x ?_)
    · exact List.mem_append_right _ (List.mem_cons_of_mem _ hx)
    · exact List.mem_append_right _ (List.mem_cons_of_mem _ hx)

/-- Everything on the stack leads to the node of the latest visit. -/
theorem Frames.reaches {part : List ℕ} (h : Frames succ order stack low ((v, pos) :: calls) part) {x : ℕ} (hx : x ∈ part) :
    Reaches succ x v := by
  generalize hcalls : (v, pos) :: calls = cs at h
  induction h generalizing v pos calls with
  | nil => cases hcalls
  | @cons u p calls' piece rest frame caller below ih =>
    obtain ⟨heq, rfl⟩ := List.cons.inj hcalls
    obtain ⟨rfl, rfl⟩ := Prod.mk.inj heq
    rcases List.mem_append.mp hx with hx | hx
    · exact (frame.inside x hx).2
    rcases List.mem_cons.mp hx with rfl | hx
    · exact .refl
    cases calls with
    | nil =>
      cases below
      cases hx
    | cons e calls =>
      exact (ih hx rfl).tail (caller e rfl)

end Frames

section Recorded

theorem getD_setIfInBounds {α : Type} {l : Array α} {i : ℕ} (hi : i < l.size) (j : ℕ) (x d : α) :
    (l.setIfInBounds i x).getD j d = if i = j then x else l.getD j d := by
  rw [Array.getD_eq_getD_getElem?, Array.getElem?_setIfInBounds, Array.getD_eq_getD_getElem?]
  split
  · rfl
  · rfl

theorem getD_foldl_set {α : Type} (nodes : List ℕ) (x d : α) (l : Array α) (hnodes : ∀ n ∈ nodes, n < l.size) :
    (nodes.foldl (fun l n => l.setIfInBounds n x) l).size = l.size ∧
      ∀ m, (nodes.foldl (fun l n => l.setIfInBounds n x) l).getD m d = if m ∈ nodes then x else l.getD m d := by
  induction nodes generalizing l with
  | nil => simp
  | cons n nodes ih =>
    obtain ⟨hsize, hget⟩ := ih (l.setIfInBounds n x) fun k hk => by simpa using hnodes k (by simp [hk])
    rw [Array.size_setIfInBounds] at hsize
    refine ⟨hsize, fun m => ?_⟩
    rw [List.foldl_cons, hget m, getD_setIfInBounds (hnodes n (by simp))]
    by_cases hmem : m ∈ nodes
    · simp [hmem]
    · by_cases hnm : n = m
      · simp [hnm]
      · have hmn : m ≠ n := fun h => hnm h.symm
        simp [hmem, hnm, hmn]

/-- What a search has noted about the nodes that it has visited in the given order. A visited node that is no longer
on the stack leads to such nodes only, and its label is the lowest number in its component. -/
structure Recorded (succ : ℕ → List ℕ) (size : ℕ) (order : List ℕ) (s : ComponentSearch) : Prop where
  count : s.index.size = size ∧ s.lowlink.size = size ∧ s.onStack.size = size ∧ s.component.size = size
  next : s.nextIndex = order.length + 1
  nodup : order.Nodup
  lt : ∀ v ∈ order, v < size
  index : ∀ v < size, s.index.getD v 0 = if v ∈ order then number order v else 0
  onStack : ∀ v < size, s.onStack.getD v false = true ↔ v ∈ s.stack
  visited : ∀ v ∈ s.stack, v ∈ order
  sorted : s.stack.Pairwise fun a b => number order b < number order a
  closed : ∀ v ∈ order, v ∉ s.stack → ∀ x ∈ succ v, x ∈ order ∧ x ∉ s.stack
  unlabelled : ∀ v < size, v ∉ order ∨ v ∈ s.stack → s.component.getD v 0 = 0
  labelled : ∀ v ∈ order, v ∉ s.stack →
    IsLeast {k | ∃ m, Mutual succ v m ∧ number order m = k} (s.component.getD v 0)

theorem recorded_start (succ : ℕ → List ℕ) (size : ℕ) : Recorded succ size [] (start size) := by
  refine ⟨by simp [start], rfl, .nil, by simp, fun v hv => ?_, fun v hv => ?_, by simp [start], .nil, by simp,
    fun v hv _ => ?_, by simp⟩
  all_goals simp [start, hv]

theorem Recorded.reaches (h : Recorded succ size order s) (hv : v ∈ order) (hoff : v ∉ s.stack)
    (hreach : Reaches succ v m) : m ∈ order ∧ m ∉ s.stack := by
  induction hreach with
  | refl => exact ⟨hv, hoff⟩
  | tail _ hedge ih => exact h.closed _ ih.1 ih.2 _ hedge

/-- A part of the stack that lies in the component of `v` and that no edge leaves for the rest of the stack is the whole
component. -/
theorem Recorded.mutual_iff (h : Recorded succ size order s) {part rest : List ℕ}
    (hmem : ∀ x, x ∈ s.stack ↔ x ∈ part ∨ x ∈ rest) (hinside : ∀ x ∈ part, Mutual succ v x) (hv : v ∈ part)
    (hclosed : ∀ w ∈ part, ∀ x ∈ succ w, x ∈ order ∧ x ∉ rest) (m : ℕ) : Mutual succ v m ↔ m ∈ part := by
  have hleads : ∀ m, Reaches succ v m → m ∈ part ∨ m ∈ order ∧ m ∉ s.stack := by
    intro m hm
    induction hm with
    | refl => exact .inl hv
    | @tail w x _ hedge ih =>
      rcases ih with hin | ⟨hin, hoff⟩
      · obtain ⟨hx, hxrest⟩ := hclosed w hin x hedge
        by_cases hxstack : x ∈ s.stack
        · exact .inl (((hmem x).mp hxstack).resolve_right hxrest)
        · exact .inr ⟨hx, hxstack⟩
      · exact .inr (h.closed _ hin hoff _ hedge)
  refine ⟨fun hm => (hleads m hm.1).resolve_right ?_, hinside m⟩
  rintro ⟨hin, hoff⟩
  exact (h.reaches hin hoff hm.2).2 ((hmem v).mpr (.inl hv))

theorem Recorded.lower (h : Recorded succ size order s) (v bound : ℕ) : Recorded succ size order (s.lower v bound) :=
  { h with count := by simpa [ComponentSearch.lower] using h.count }

theorem Recorded.visit (h : Recorded succ size order s) (hw : w ∉ order) (hlt : w < size) :
    Recorded succ size (order ++ [w]) (s.visit w) := by
  obtain ⟨hindex, hlow, hon, hcomponent⟩ := h.count
  have hnew : ∀ v ∈ order, v ≠ w := fun v hv heq => hw (heq ▸ hv)
  have hstack : ∀ v ∈ order, v ∉ w :: s.stack ↔ v ∉ s.stack := fun v hv => by simp [hnew v hv]
  have hold : ∀ v ∈ order ++ [w], v ∉ w :: s.stack → v ∈ order ∧ v ∉ s.stack := by
    intro v hv hoff
    rcases List.mem_append.mp hv with hv | hv
    · exact ⟨hv, (hstack v hv).mp hoff⟩
    · exact absurd (List.mem_singleton.mp hv ▸ List.mem_cons_self) hoff
  refine ⟨by simp [ComponentSearch.visit, h.count], by simp [ComponentSearch.visit, h.next], ?_, ?_, fun v hv => ?_,
    fun v hv => ?_, fun v hv => ?_, ?_, fun v hv hoff x hx => ?_, fun v hv hopen => ?_, fun v hv hoff => ?_⟩
  · exact List.nodup_append'.mpr ⟨h.nodup, List.nodup_singleton w, by simpa using hw⟩
  · simpa [or_imp, forall_and, hlt] using h.lt
  · rw [ComponentSearch.visit, getD_setIfInBounds (by omega), h.index v hv]
    by_cases hwv : w = v
    · subst hwv
      simp [number_append_self hw, h.next]
    · have hvw : v ≠ w := fun h => hwv h.symm
      by_cases hmem : v ∈ order
      · simp [hwv, hmem, number_append hmem]
      · simp [hwv, hvw, hmem]
  · rw [ComponentSearch.visit, getD_setIfInBounds (by omega)]
    by_cases hwv : w = v
    · simp [hwv]
    · have hvw : v ≠ w := fun h => hwv h.symm
      rw [if_neg hwv, h.onStack v hv, List.mem_cons, or_iff_right hvw]
  · rcases List.mem_cons.mp hv with rfl | hv
    · simp
    · exact List.mem_append_left _ (h.visited v hv)
  · refine List.pairwise_cons.mpr ⟨fun v hv => ?_, h.sorted.imp_of_mem fun {a b} ha hb hab => ?_⟩
    · rw [number_append_self hw, number_append (h.visited v hv)]
      exact Nat.lt_succ_of_le (number_le (h.visited v hv))
    · rwa [number_append (h.visited _ ha), number_append (h.visited _ hb)]
  · obtain ⟨hv, hoff⟩ := hold v hv hoff
    obtain ⟨hx, hxoff⟩ := h.closed v hv hoff x hx
    exact ⟨List.mem_append_left _ hx, (hstack x hx).mpr hxoff⟩
  · refine h.unlabelled v hv ?_
    rcases hopen with hout | hin
    · exact .inl fun hmem => hout (List.mem_append_left _ hmem)
    · rcases List.mem_cons.mp hin with rfl | hin
      · exact .inl hw
      · exact .inr hin
  · obtain ⟨hv, hoff⟩ := hold v hv hoff
    have hnumbers : {k | ∃ m, Mutual succ v m ∧ number (order ++ [w]) m = k} =
        {k | ∃ m, Mutual succ v m ∧ number order m = k} := by
      ext k
      refine exists_congr fun m => and_congr_right fun hm => ?_
      rw [number_append (h.reaches hv hoff hm.1).1]
    rw [hnumbers]
    exact h.labelled v hv hoff

theorem popTo_append (s : ComponentSearch) (v label : ℕ) {piece : List ℕ} (rest : List ℕ) (hv : v ∉ piece) :
    s.popTo v label (piece ++ v :: rest) = { s with
      stack := rest
      onStack := (piece ++ [v]).foldl (fun l n => l.setIfInBounds n false) s.onStack
      component := (piece ++ [v]).foldl (fun l n => l.setIfInBounds n label) s.component } := by
  induction piece generalizing s with
  | nil => simp [popTo]
  | cons w piece ih =>
    have hwv : w ≠ v := fun h => hv (h ▸ List.mem_cons_self)
    rw [List.cons_append, popTo]
    simp only [if_neg hwv]
    rw [ih _ fun h => hv (List.mem_cons_of_mem _ h)]
    rfl

/-- A piece of the stack that is a whole component, from which edges lead to nodes off the stack otherwise, is labelled
with its lowest number. -/
theorem Recorded.popTo (h : Recorded succ size order s) {piece rest : List ℕ} (hstack : s.stack = piece ++ v :: rest)
    (hwhole : ∀ m, Mutual succ v m ↔ m ∈ piece ++ [v])
    (hclosed : ∀ w ∈ piece ++ [v], ∀ x ∈ succ w, x ∈ order ∧ x ∉ rest) :
    Recorded succ size order (s.popTo v (number order v) s.stack) := by
  have hsorted := h.sorted
  rw [hstack] at hsorted
  obtain ⟨-, hbelow, habove⟩ := List.pairwise_append.mp hsorted
  have hpiece : ∀ w ∈ piece, number order v < number order w := fun w hw => habove w hw v List.mem_cons_self
  have hv : v ∉ piece := fun hv => (hpiece v hv).false
  have hleast : ∀ w ∈ piece ++ [v], number order v ≤ number order w := by
    intro w hw
    rcases List.mem_append.mp hw with hw | hw
    · exact (hpiece w hw).le
    · rw [List.mem_singleton.mp hw]
  have hrest : ∀ w ∈ rest, w ∉ piece ++ [v] := by
    intro w hw hmem
    have := (List.pairwise_cons.mp hbelow).1 w hw
    have := hleast w hmem
    omega
  have hmem : ∀ w, w ∈ s.stack ↔ w ∈ piece ++ [v] ∨ w ∈ rest := by
    intro w
    rw [hstack]
    simp [or_assoc]
  have hlt : ∀ w ∈ piece ++ [v], w < size := fun w hw => h.lt w (h.visited w ((hmem w).mpr (.inl hw)))
  obtain ⟨hindex, hlow, hon, hcomponent⟩ := h.count
  obtain ⟨hon_size, hon_get⟩ := getD_foldl_set (piece ++ [v]) false false s.onStack (by simpa [hon] using hlt)
  obtain ⟨hcomp_size, hcomp_get⟩ := getD_foldl_set (piece ++ [v]) (number order v) 0 s.component
    (by simpa [hcomponent] using hlt)
  rw [hstack, popTo_append s v _ rest hv]
  refine ⟨⟨hindex, hlow, hon_size.trans hon, hcomp_size.trans hcomponent⟩, h.next, h.nodup, h.lt, h.index,
    fun w hw => ?_, fun w hw => h.visited w ((hmem w).mpr (.inr hw)), (List.pairwise_cons.mp hbelow).2,
    fun w hw hoff x hx => ?_, fun w hw hopen => ?_, fun w hw hoff => ?_⟩
  · dsimp only
    rw [hon_get]
    by_cases hpop : w ∈ piece ++ [v]
    · simp only [if_pos hpop]
      exact iff_of_false Bool.false_ne_true fun hw => hrest w hw hpop
    · rw [if_neg hpop, h.onStack w hw, hmem, or_iff_right hpop]
  · by_cases hpop : w ∈ piece ++ [v]
    · exact hclosed w hpop x hx
    · obtain ⟨hx, hxoff⟩ := h.closed w hw (fun hin => ((hmem w).mp hin).elim hpop hoff) x hx
      exact ⟨hx, fun hin => hxoff ((hmem x).mpr (.inr hin))⟩
  · dsimp only
    rw [hcomp_get]
    have hpop : w ∉ piece ++ [v] := by
      rcases hopen with hout | hin
      · exact fun hpop => hout (h.visited w ((hmem w).mpr (.inl hpop)))
      · exact hrest w hin
    rw [if_neg hpop]
    exact h.unlabelled w hw (hopen.imp_right fun hin => (hmem w).mpr (.inr hin))
  · dsimp only at hoff ⊢
    rw [hcomp_get]
    by_cases hpop : w ∈ piece ++ [v]
    · rw [if_pos hpop]
      have hvw := (hwhole w).mpr hpop
      refine ⟨⟨v, hvw.symm, rfl⟩, ?_⟩
      rintro _ ⟨m, hm, rfl⟩
      exact hleast m ((hwhole m).mp (hvw.trans hm))
    · rw [if_neg hpop]
      exact h.labelled w hw fun hin => ((hmem w).mp hin).elim hpop hoff

end Recorded

section Steps

/-- A search between two steps. -/
structure Underway (succ : ℕ → List ℕ) (size : ℕ) (order : List ℕ) (s : ComponentSearch) : Prop where
  recorded : Recorded succ size order s
  frames : Frames succ order s.stack (fun x => s.lowlink.getD x 0) s.calls s.stack

theorem Frames.uncons {part : List ℕ} (h : Frames succ order stack low ((v, pos) :: calls) part) :
    ∃ piece rest, part = piece ++ v :: rest ∧ Frame succ order stack low v pos piece rest ∧
      (∀ e ∈ calls.head?, v ∈ succ e.1) ∧ Frames succ order stack low calls rest := by
  cases h with
  | cons frame caller below => exact ⟨_, _, rfl, frame, caller, below⟩

theorem Underway.stack_eq_nil (h : Underway succ size order s) (hcalls : s.calls = []) : s.stack = [] := by
  have hframes := h.frames
  generalize s.stack = stack at hframes ⊢
  rw [hcalls] at hframes
  cases hframes
  rfl

/-- The latest visit cuts the stack at its node, with higher numbers above and lower ones below. -/
theorem Underway.split (h : Underway succ size order s) (hcalls : s.calls = (v, pos) :: calls) :
    ∃ piece rest, s.stack = piece ++ v :: rest ∧
      Frame succ order s.stack (fun x => s.lowlink.getD x 0) v pos piece rest ∧ (∀ e ∈ calls.head?, v ∈ succ e.1) ∧
      Frames succ order s.stack (fun x => s.lowlink.getD x 0) calls rest ∧
      (∀ x ∈ piece, number order v < number order x) ∧ ∀ x ∈ rest, number order x < number order v := by
  have hframes := h.frames
  rw [hcalls] at hframes
  obtain ⟨piece, rest, hstack, frame, caller, below⟩ := hframes.uncons
  have hsorted := h.recorded.sorted
  rw [hstack] at hsorted
  obtain ⟨-, hbelow, habove⟩ := List.pairwise_append.mp hsorted
  exact ⟨piece, rest, hstack, frame, caller, below, fun x hx => habove x hx v List.mem_cons_self,
    (List.pairwise_cons.mp hbelow).1⟩

/-- The visit of `v` has looked at one more edge. -/
theorem Frame.advance {piece rest : List ℕ} (h : Frame succ order stack low v pos piece rest)
    (hw : (succ v)[pos]? = some w) (hpassed : Passed order stack (low v) w) :
    Frame succ order stack low v (pos + 1) piece rest := by
  refine { h with passed := fun x hx => ?_ }
  rw [List.take_add_one, hw] at hx
  rcases List.mem_append.mp hx with hx | hx
  · exact h.passed x hx
  · rwa [List.mem_singleton.mp hx]

/-- At the end of a visit, all edges out of its piece and its node have been looked at. -/
theorem Frame.passed_of_end {piece rest : List ℕ} (h : Frame succ order stack low v pos piece rest)
    (hpos : (succ v)[pos]? = none) (hw : w ∈ piece ++ [v]) {x : ℕ} (hx : x ∈ succ w) : Passed order stack (low v) x := by
  rcases List.mem_append.mp hw with hw | hw
  · exact h.finished w hw x hx
  · rw [List.mem_singleton.mp hw, ← List.take_of_length_le (List.getElem?_eq_none_iff.mp hpos)] at hx
    exact h.passed x hx

/-- A lowlink may go down to the number of a node on the stack that `v` leads to. -/
theorem Frame.lower {piece rest : List ℕ} {low' : ℕ → ℕ} {u : ℕ} (h : Frame succ order stack low v pos piece rest)
    (hpiece : ∀ x ∈ piece, number order v < number order x) (hu : u ∈ piece ++ v :: rest) (hreach : Reaches succ v u)
    (hlow : low' v = min (low v) (number order u)) : Frame succ order stack low' v pos piece rest := by
  have hle : low' v ≤ low v := hlow ▸ min_le_left _ _
  refine ⟨h.inside, hle.trans h.low_le, ?_, fun w hw x hx => (h.finished w hw x hx).le hle,
    fun x hx => (h.passed x hx).le hle⟩
  rcases le_or_gt (low v) (number order u) with hmin | hmin
  · rw [hlow, min_eq_left hmin]
    exact h.leads
  · rw [hlow, min_eq_right hmin.le]
    refine ⟨u, (List.mem_append.mp hu).resolve_left fun hu => ?_, hreach, rfl⟩
    have := hpiece u hu
    have := h.low_le
    omega

/-- The work that is left: the edges to look at and the visits to end. -/
def remaining (succ : ℕ → List ℕ) (size : ℕ) (order : List ℕ) (calls : List (ℕ × ℕ)) : ℕ :=
  (calls.map fun e => (succ e.1).length - e.2 + 1).sum + ∑ v ∈ Finset.range size \ order.toFinset, ((succ v).length + 1)

/-- The visits under way, the latest first, lead from the nodes `seen` to the nodes `final`. -/
def Ends (succ : ℕ → List ℕ) : (calls : List (ℕ × ℕ)) → (seen final : List ℕ) → Prop
  | [], seen, final => final = seen
  | (v, pos) :: calls, seen, final =>
    ∃ below, DepthFirst succ seen ((succ v).drop pos) below ∧ Ends succ calls (seen ++ below) final

/-- What one step of the search makes of it. -/
def Advances (succ : ℕ → List ℕ) (size : ℕ) (order : List ℕ) (s s' : ComponentSearch) : Prop :=
  ∃ order', Underway succ size order' s' ∧ remaining succ size order' s'.calls + 1 = remaining succ size order s.calls ∧
    ∀ final, Ends succ s'.calls order' final → Ends succ s.calls order final

theorem drop_of_getElem? {l : List ℕ} (h : l[pos]? = some w) : l.drop pos = w :: l.drop (pos + 1) := by
  obtain ⟨hlt, rfl⟩ := List.getElem?_eq_some_iff.mp h
  exact List.drop_eq_getElem_cons hlt

theorem remaining_advance (order : List ℕ) (calls : List (ℕ × ℕ)) (hw : (succ v)[pos]? = some w) :
    remaining succ size order ((v, pos + 1) :: calls) + 1 = remaining succ size order ((v, pos) :: calls) := by
  have hlt := (List.getElem?_eq_some_iff.mp hw).1
  simp only [remaining, List.map_cons, List.sum_cons]
  omega

theorem remaining_visit (hw : w ∉ order) (hlt : w < size) (calls : List (ℕ × ℕ)) :
    remaining succ size (order ++ [w]) ((w, 0) :: calls) = remaining succ size order calls := by
  have hmem : w ∈ Finset.range size \ order.toFinset := by simp [hw, hlt]
  have herase : Finset.range size \ (order ++ [w]).toFinset = (Finset.range size \ order.toFinset).erase w := by
    ext x
    simp only [List.toFinset_append, List.toFinset_cons, List.toFinset_nil, Finset.mem_sdiff, Finset.mem_union,
      Finset.mem_erase, Finset.mem_insert, Finset.notMem_empty, or_false]
    tauto
  rw [remaining, remaining, herase, ← Finset.add_sum_erase _ _ hmem]
  simp only [List.map_cons, List.sum_cons]
  omega

/-- An edge to a node that was visited before. -/
theorem Underway.advance (h : Underway succ size order s) (hcalls : s.calls = (v, pos) :: calls)
    (hw : (succ v)[pos]? = some w) (hseen : w ∈ order) {low : Array ℕ} (hcount : low.size = size)
    (hframes : Frames succ order s.stack (fun x => low.getD x 0) ((v, pos + 1) :: calls) s.stack) :
    Advances succ size order s { s with calls := (v, pos + 1) :: calls, lowlink := low } := by
  obtain ⟨hindex, -, hon, hcomponent⟩ := h.recorded.count
  refine ⟨order, ⟨{ h.recorded with count := ⟨hindex, hcount, hon, hcomponent⟩ }, hframes⟩, ?_, ?_⟩
  · rw [hcalls]
    exact remaining_advance order calls hw
  · rintro final ⟨below, hbelow, hends⟩
    rw [hcalls]
    refine ⟨below, ?_, hends⟩
    rw [drop_of_getElem? hw]
    exact .skip hseen hbelow

/-- An edge to a new node, which is visited. -/
theorem Underway.visit (h : Underway succ size order s) (hcalls : s.calls = (v, pos) :: calls)
    (hw : (succ v)[pos]? = some w) (hnew : w ∉ order) (hlt : w < size) :
    Advances succ size order s ({ s with calls := (v, pos + 1) :: calls }.visit w) := by
  have hrecorded : Recorded succ size order { s with calls := (v, pos + 1) :: calls } := { h.recorded with }
  obtain ⟨-, hlow, -, -⟩ := h.recorded.count
  obtain ⟨piece, rest, hstack, frame, caller, below, -, -⟩ := h.split hcalls
  have hvisited := h.recorded.visited
  rw [hstack] at hvisited
  -- The lowlinks of the nodes visited so far stay, and so do their numbers.
  have hkept : ∀ x ∈ order, (s.lowlink.setIfInBounds w s.nextIndex).getD x 0 = s.lowlink.getD x 0 := by
    intro x hx
    rw [getD_setIfInBounds (by omega), if_neg]
    rintro rfl
    exact hnew hx
  have hnumber : ∀ x ∈ order, x ∈ order ++ [w] ∧ number (order ++ [w]) x = number order x := fun x hx =>
    ⟨List.mem_append_left _ hx, number_append hx _⟩
  have hold : ∀ x ∈ order, x ∈ w :: s.stack → x ∈ s.stack := fun x hx hin =>
    (List.mem_cons.mp hin).resolve_left fun heq => hnew (heq ▸ hx)
  have hself : (s.lowlink.setIfInBounds w s.nextIndex).getD w 0 = number (order ++ [w]) w := by
    rw [getD_setIfInBounds (by omega), if_pos rfl, h.recorded.next, number_append_self hnew]
  have hv := hvisited v (by simp)
  refine ⟨order ++ [w], ⟨hrecorded.visit hnew hlt, ?_⟩, ?_, ?_⟩
  · have hbelow := below.mono (fun x hx => hvisited x (by simp [hx])) hnumber hold fun x hx =>
      hkept x (hvisited x (by simp [hx]))
    have hframe : Frame succ (order ++ [w]) (w :: s.stack) (fun x => (s.lowlink.setIfInBounds w s.nextIndex).getD x 0)
        v (pos + 1) piece rest := by
      refine (frame.mono (fun x hx => hvisited x (List.mem_append_right _ hx)) hnumber hold (hkept v hv)).advance hw
        ⟨by simp, fun _ => ?_⟩
      rw [number_append_self hnew, hkept v hv]
      exact frame.low_le.trans ((number_le hv).trans (Nat.le_succ _))
    have hcaller : Frames succ (order ++ [w]) (w :: s.stack) (fun x => (s.lowlink.setIfInBounds w s.nextIndex).getD x 0)
        ((v, pos + 1) :: calls) s.stack := by
      have hcons := Frames.cons hframe caller hbelow
      rwa [← hstack] at hcons
    have hlatest : Frame succ (order ++ [w]) (w :: s.stack) (fun x => (s.lowlink.setIfInBounds w s.nextIndex).getD x 0)
        w 0 [] s.stack := ⟨by simp, hself.le, ⟨w, by simp, .refl, hself.symm⟩, by simp, by simp⟩
    refine .cons hlatest ?_ hcaller
    rintro _ ⟨⟩
    exact List.mem_of_getElem? hw
  · rw [hcalls]
    exact congrArg (· + 1) (remaining_visit hnew hlt _) |>.trans (remaining_advance order calls hw)
  · rintro final ⟨below, hbelow, after, hafter, hends⟩
    rw [hcalls]
    refine ⟨w :: below ++ after, ?_, by simpa using hends⟩
    rw [drop_of_getElem? hw]
    exact .enter hnew hbelow (by simpa using hafter)

theorem getD_lower (hv : v < s.lowlink.size) (bound x : ℕ) : (s.lower v bound).lowlink.getD x 0 =
    if v = x then min (s.lowlink.getD v 0) bound else s.lowlink.getD x 0 := by
  rw [ComponentSearch.lower, Array.getD_eq_getD_getElem?, Array.getElem?_modify, Array.getD_eq_getD_getElem?,
    Array.getD_eq_getD_getElem?, Array.getElem?_eq_getElem hv]
  split
  · rename_i heq
    subst heq
    simp [hv]
  · rfl

/-- The edge at the position of the latest visit. -/
theorem Underway.follow (hsucc : ∀ n < size, ∀ t ∈ succ n, t < size) (h : Underway succ size order s)
    (hcalls : s.calls = (v, pos) :: calls) (hw : (succ v)[pos]? = some w) :
    Advances succ size order s ({ s with calls := (v, pos + 1) :: calls }.follow v w) := by
  obtain ⟨hindex, hlowlink, -, -⟩ := h.recorded.count
  obtain ⟨piece, rest, hstack, frame, caller, below, hpiece, hrest⟩ := h.split hcalls
  have hvstack : v ∈ s.stack := by simp [hstack]
  have hv := h.recorded.visited v hvstack
  have hedge := List.mem_of_getElem? hw
  have hlt : w < size := hsucc v (h.recorded.lt v hv) w hedge
  have hget : s.index[w]? = some (if w ∈ order then number order w else 0) := by
    have hvalue := h.recorded.index w hlt
    rw [Array.getD_eq_getD_getElem?, Array.getElem?_eq_getElem (by omega)] at hvalue
    rw [Array.getElem?_eq_getElem (by omega)]
    exact congrArg some hvalue
  unfold ComponentSearch.follow
  dsimp only
  rw [hget]
  by_cases hseen : w ∈ order
  swap
  · simp only [if_neg hseen]
    exact h.visit hcalls hw hseen hlt
  simp only [if_pos hseen, number]
  split
  · rename_i hon
    have hwstack : w ∈ s.stack := (h.recorded.onStack w hlt).mp hon
    have hvlow : v < s.lowlink.size := hlowlink.symm ▸ h.recorded.lt v hv
    have hlow : ∀ x, (s.lower v (number order w)).lowlink.getD x 0 =
        if v = x then min (s.lowlink.getD v 0) (number order w) else s.lowlink.getD x 0 := getD_lower hvlow _
    have hvlow' := hlow v
    rw [if_pos rfl] at hvlow'
    refine h.advance hcalls hw hseen (h.recorded.lower v _).count.2.1 ?_
    have hframe : Frame succ order s.stack (fun x => (s.lower v (number order w)).lowlink.getD x 0) v (pos + 1) piece rest :=
      (frame.lower hpiece (hstack ▸ hwstack) (.single hedge) hvlow').advance hw
        ⟨hseen, fun _ => hvlow'.le.trans (min_le_right _ _)⟩
    have hcons := Frames.cons hframe caller (below.mono (fun x hx => h.recorded.visited x (by simp [hstack, hx]))
      (fun x hx => ⟨hx, rfl⟩) (fun x _ hx => hx) fun x hx => (hlow x).trans (if_neg ?_))
    · rwa [← hstack] at hcons
    · rintro rfl
      exact (hrest v hx).false
  · rename_i hon
    have hoff : w ∉ s.stack := fun hin => hon ((h.recorded.onStack w hlt).mpr hin)
    refine h.advance hcalls hw hseen hlowlink ?_
    have hcons := Frames.cons (frame.advance hw ⟨hseen, fun hin => absurd hin hoff⟩) caller below
    rwa [← hstack] at hcons

/-- The end of a visit, whatever becomes of the stack. -/
theorem Underway.advances_of_end {s' : ComponentSearch} (h : Underway succ size order s') (hpos : (succ v)[pos]? = none)
    (hcalls : s.calls = (v, pos) :: s'.calls) : Advances succ size order s s' := by
  rw [List.getElem?_eq_none_iff] at hpos
  refine ⟨order, h, ?_, fun final hends => ?_⟩
  · rw [hcalls]
    simp only [remaining, List.map_cons, List.sum_cons]
    omega
  · rw [hcalls]
    refine ⟨[], ?_, by simpa using hends⟩
    rw [List.drop_eq_nil_of_le hpos]
    exact .done _

/-- A visit ends with the lowlink at the number of its own node, whose component is complete. -/
theorem Underway.complete (h : Underway succ size order s) (hcalls : s.calls = (v, pos) :: calls)
    (hpos : (succ v)[pos]? = none) (hroot : s.lowlink.getD v 0 = number order v) {low : Array ℕ} (hcount : low.size = size)
    (hlow : ∀ x ∈ s.stack, low.getD x 0 = s.lowlink.getD x 0) :
    Advances succ size order s ({ s with calls, lowlink := low }.popTo v (number order v) s.stack) := by
  obtain ⟨hindex, -, hon, hcomponent⟩ := h.recorded.count
  obtain ⟨piece, rest, hstack, frame, caller, below, hpiece, hrest⟩ := h.split hcalls
  have hmem : ∀ x, x ∈ s.stack ↔ x ∈ piece ++ [v] ∨ x ∈ rest := by
    intro x
    rw [hstack]
    simp [or_assoc]
  -- All edges out of the piece have been looked at, so none leads below it.
  have hclosed : ∀ w ∈ piece ++ [v], ∀ x ∈ succ w, x ∈ order ∧ x ∉ rest := by
    intro w hw x hx
    obtain ⟨hx, hle⟩ := frame.passed_of_end hpos hw hx
    refine ⟨hx, fun hin => ?_⟩
    have := hle ((hmem x).mpr (.inr hin))
    have := hrest x hin
    omega
  have hinside : ∀ x ∈ piece ++ [v], Mutual succ v x := by
    intro x hx
    rcases List.mem_append.mp hx with hx | hx
    · exact frame.inside x hx
    · rw [List.mem_singleton.mp hx]
      exact .refl succ v
  have hwhole := h.recorded.mutual_iff hmem hinside (by simp) hclosed
  have hrecorded : Recorded succ size order { s with calls, lowlink := low } :=
    { h.recorded with count := ⟨hindex, hcount, hon, hcomponent⟩ }
  have hpopped := hrecorded.popTo hstack hwhole hclosed
  have hframes : Frames succ order rest (fun x => low.getD x 0) calls rest :=
    below.mono (fun x hx => h.recorded.visited x ((hmem x).mpr (.inr hx))) (fun x hx => ⟨hx, rfl⟩)
      (fun x _ hx => (hmem x).mpr (.inr hx)) fun x hx => hlow x ((hmem x).mpr (.inr hx))
  have hv : v ∉ piece := fun hv => (hpiece v hv).false
  refine Underway.advances_of_end ⟨hpopped, ?_⟩ hpos ?_
  · rw [hstack, popTo_append _ v _ rest hv]
    exact hframes
  · rw [hcalls, hstack, popTo_append _ v _ rest hv]

/-- A visit ends with a lower lowlink, and its piece goes to the caller. -/
theorem Underway.handOver (h : Underway succ size order s) {u upos : ℕ}
    (hcalls : s.calls = (v, pos) :: (u, upos) :: calls) (hpos : (succ v)[pos]? = none)
    (hnot : s.lowlink.getD v 0 ≠ number order v) :
    Advances succ size order s ({ s with calls := (u, upos) :: calls }.lower u (s.lowlink.getD v 0)) := by
  obtain ⟨-, hlowlink, -, -⟩ := h.recorded.count
  obtain ⟨piece, rest, hstack, frame, caller, below, -, -⟩ := h.split hcalls
  obtain ⟨upiece, urest, hrest, uframe, ucaller, ubelow⟩ := below.uncons
  have hedge : v ∈ succ u := caller (u, upos) rfl
  have hsorted : (upiece ++ u :: urest).Pairwise fun a b => number order b < number order a := by
    refine h.recorded.sorted.sublist ?_
    rw [hstack, hrest]
    exact (List.sublist_cons_self v _).trans (List.sublist_append_right piece _)
  obtain ⟨-, hbelow, habove⟩ := List.pairwise_append.mp hsorted
  have hu : u < s.lowlink.size := hlowlink.symm ▸ h.recorded.lt u (h.recorded.visited u (by simp [hstack, hrest]))
  have hlow : ∀ x, (s.lower u (s.lowlink.getD v 0)).lowlink.getD x 0 =
      if u = x then min (s.lowlink.getD u 0) (s.lowlink.getD v 0) else s.lowlink.getD x 0 := getD_lower hu _
  have hulow := hlow u
  rw [if_pos rfl] at hulow
  -- The node whose number is the lowlink lies below `v` and leads to the caller.
  obtain ⟨x, hx, hreach, hnumber⟩ := frame.leads
  have hxrest : x ∈ rest := by
    refine (List.mem_cons.mp hx).resolve_left ?_
    rintro rfl
    exact hnot hnumber.symm
  have hback : Reaches succ v u := hreach.trans (below.reaches hxrest)
  have hmutual : Mutual succ u v := ⟨.single hedge, hback⟩
  have hframe : Frame succ order s.stack (fun x => (s.lower u (s.lowlink.getD v 0)).lowlink.getD x 0) u upos
      (piece ++ v :: upiece) urest := by
    have hlowered : Frame succ order s.stack (fun x => (s.lower u (s.lowlink.getD v 0)).lowlink.getD x 0) u upos upiece
        urest := by
      refine uframe.lower (fun y hy => habove y hy u List.mem_cons_self) (hrest ▸ hxrest) (.head hedge hreach) ?_
      rw [hulow, hnumber]
    have hle : (s.lower u (s.lowlink.getD v 0)).lowlink.getD u 0 ≤ s.lowlink.getD v 0 := hulow ▸ min_le_right _ _
    refine { hlowered with inside := fun w hw => ?_, finished := fun w hw y hy => ?_ }
    · rcases List.mem_append.mp hw with hw | hw
      · exact hmutual.trans (frame.inside w hw)
      rcases List.mem_cons.mp hw with rfl | hw
      · exact hmutual
      · exact uframe.inside w hw
    · rw [List.append_cons, List.mem_append] at hw
      rcases hw with hw | hw
      · exact (frame.passed_of_end hpos hw hy).le hle
      · exact hlowered.finished w hw y hy
  have hrecorded : Recorded succ size order { s with calls := (u, upos) :: calls } := { h.recorded with }
  have hcons := Frames.cons hframe ucaller (ubelow.mono
    (fun y hy => h.recorded.visited y (by simp [hstack, hrest, hy])) (fun y hy => ⟨hy, rfl⟩) (fun y _ hy => hy)
    fun y hy => (hlow y).trans (if_neg ?_))
  · refine Underway.advances_of_end ⟨hrecorded.lower u _, ?_⟩ hpos hcalls
    have heq : piece ++ v :: upiece ++ u :: urest = s.stack := by simp [hstack, hrest]
    rwa [heq] at hcons
  · rintro rfl
    exact ((List.pairwise_cons.mp hbelow).1 u hy).false

/-- The end of the latest visit. -/
theorem Underway.leave (h : Underway succ size order s) (hcalls : s.calls = (v, pos) :: calls)
    (hpos : (succ v)[pos]? = none) : Advances succ size order s (s.leave v calls) := by
  obtain ⟨-, hlowlink, -, -⟩ := h.recorded.count
  obtain ⟨piece, rest, hstack, frame, caller, below, hpiece, hrest⟩ := h.split hcalls
  have hv := h.recorded.visited v (by simp [hstack])
  have hindex : s.index.getD v 0 = number order v := by
    rw [h.recorded.index v (h.recorded.lt v hv), if_pos hv]
  unfold ComponentSearch.leave
  cases calls with
  | nil =>
    -- Nothing lies below the first visit.
    have hroot : s.lowlink.getD v 0 = number order v := by
      cases below
      obtain ⟨u, hu, -, hnumber⟩ := frame.leads
      rw [← hnumber, List.mem_singleton.mp hu]
    simp only [hindex, if_pos hroot]
    exact h.complete hcalls hpos hroot hlowlink fun _ _ => rfl
  | cons e calls =>
    obtain ⟨u, upos⟩ := e
    obtain ⟨upiece, urest, hurest, uframe, -, -⟩ := below.uncons
    have hurest : u ∈ rest := by simp [hurest]
    have hu : u < s.lowlink.size := hlowlink.symm ▸ h.recorded.lt u (h.recorded.visited u (by simp [hstack, hurest]))
    have huv : u ≠ v := by
      rintro rfl
      exact (hrest u hurest).false
    have hlow : ∀ x, ({ s with calls := (u, upos) :: calls }.lower u (s.lowlink.getD v 0)).lowlink.getD x 0 =
        if u = x then min (s.lowlink.getD u 0) (s.lowlink.getD v 0) else s.lowlink.getD x 0 := getD_lower hu _
    dsimp only
    rw [hlow v, if_neg huv]
    split
    · rename_i hroot
      have hroot : s.lowlink.getD v 0 = number order v := hroot.trans hindex
      have hcomplete := h.complete hcalls hpos hroot (h.recorded.lower u (s.lowlink.getD v 0)).count.2.1 fun x _ => ?_
      · rw [← hindex] at hcomplete
        exact hcomplete
      · -- The lowlink of the caller is lower already.
        rw [getD_lower hu]
        by_cases hux : u = x
        · rw [if_pos hux, ← hux, hroot]
          exact min_eq_left (uframe.low_le.trans (hrest u hurest).le)
        · rw [if_neg hux]
    · rename_i hnot
      exact h.handOver hcalls hpos fun hroot => hnot (hroot.trans hindex.symm)

theorem Underway.step (hsucc : ∀ n < size, ∀ t ∈ succ n, t < size) (h : Underway succ size order s)
    (hcalls : s.calls = (v, pos) :: calls) : Advances succ size order s (s.step succ v pos calls) := by
  unfold ComponentSearch.step
  split
  · rename_i hw
    exact h.follow hsucc hcalls hw
  · rename_i hpos
    exact h.leave hcalls hpos

/-- With fuel for all that is left, the search comes to an end. -/
theorem Underway.loop (hsucc : ∀ n < size, ∀ t ∈ succ n, t < size) {fuel : ℕ} (h : Underway succ size order s)
    (hfuel : remaining succ size order s.calls ≤ fuel) : ∃ final, Underway succ size final (s.loop succ fuel) ∧
      (s.loop succ fuel).calls = [] ∧ Ends succ s.calls order final := by
  induction fuel generalizing s order with
  | zero =>
    have hnone : s.calls = [] := by
      cases hcalls : s.calls with
      | nil => rfl
      | cons e calls =>
        rw [hcalls] at hfuel
        simp only [remaining, List.map_cons, List.sum_cons] at hfuel
        omega
    exact ⟨order, h, hnone, by rw [hnone]; rfl⟩
  | succ fuel ih =>
    rw [ComponentSearch.loop]
    split
    · rename_i hnone
      exact ⟨order, h, hnone, by rw [hnone]; rfl⟩
    · rename_i v pos calls hcalls
      obtain ⟨order', h', hless, hback⟩ := h.step hsucc hcalls
      obtain ⟨final, hfinal, hdone, hends⟩ := ih h' (by omega)
      exact ⟨final, hfinal, hdone, hback final hends⟩

theorem underway_start {root : ℕ} (hroot : root < size) : Underway succ size [root] ((start size).visit root) := by
  have hrecorded := (recorded_start succ size).visit List.not_mem_nil hroot
  refine ⟨hrecorded, ?_⟩
  have hlow : ((start size).visit root).lowlink.getD root 0 = number [root] root := by
    simp [ComponentSearch.visit, start, hroot, number]
  have hframe : Frame succ [root] [root] (fun x => ((start size).visit root).lowlink.getD x 0) root 0 [] [] :=
    ⟨by simp, hlow.le, ⟨root, by simp, .refl, hlow.symm⟩, by simp, by simp⟩
  exact .cons hframe (by simp [start]) .nil

theorem remaining_start {root : ℕ} (hroot : root < size) :
    remaining succ size [root] [(root, 0)] = size + ∑ v ∈ Finset.range size, (succ v).length := by
  have hvisit : remaining succ size ([] ++ [root]) [(root, 0)] = remaining succ size [] [] :=
    remaining_visit List.not_mem_nil hroot []
  rw [List.nil_append] at hvisit
  rw [hvisit]
  simp [remaining, Finset.sum_add_distrib, add_comm]

end Steps

end ComponentSearch

end PathInvariants.Flow

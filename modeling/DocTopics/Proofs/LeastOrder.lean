import DocTopics.Proofs.Digraph
import Mathlib.Data.Fintype.EquivFin

/-!
# The least order of a graph

Positions are placed one by one, the least ready one first, and what they lead to is released. The
counters stand for the predecessors that are still missing. On a graph without cycles every position
is placed, and no other order that respects the arcs is smaller.

## Main definitions

- `Digraph.Respects`, `Digraph.IsOrder` — each position stands behind its predecessors
- `Digraph.pending` — the predecessors that are missing
- `Digraph.Progress.Valid` — the invariant of placing

## Main statements

- `Digraph.Progress.waiting_foldl_release` — what a placed position does to the counters
- `Digraph.valid_placeMany` — every state of a run satisfies the invariant
- `Digraph.isOrder_order`, `Digraph.order_least` — the order respects the arcs and is the least
-/

namespace DocTopics.Digraph

variable {g : Digraph}

/-! ### Orders -/

/-- Every position stands behind its predecessors. -/
def Respects (g : Digraph) (order : List Nat) : Prop :=
  ∀ front j back, order = front ++ j :: back → ∀ i, g.Arc i j → i ∈ front

/-- All positions, each behind its predecessors. -/
def IsOrder (g : Digraph) (order : List Nat) : Prop :=
  order.Perm (List.range g.size) ∧ g.Respects order

theorem respects_nil (g : Digraph) : g.Respects [] := by
  intro front j back h
  simp at h

theorem Respects.concat {order : List Nat} {next : Nat} (h : g.Respects order)
    (hnext : ∀ i, g.Arc i next → i ∈ order) : g.Respects (order ++ [next]) := by
  intro front j back heq i harc
  rcases List.eq_nil_or_concat back with rfl | ⟨back, last, rfl⟩
  · obtain ⟨rfl, hj⟩ := List.append_inj' heq rfl
    cases hj
    exact hnext i harc
  · have heq' : order ++ [next] = (front ++ j :: back) ++ [last] := by simpa using heq
    obtain ⟨horder, -⟩ := List.append_inj' heq' rfl
    exact h front j back horder i harc

theorem Respects.mem {order : List Nat} {i j : Nat} (h : g.Respects order)
    (hj : j ∈ order) (harc : g.Arc i j) : i ∈ order := by
  obtain ⟨front, back, rfl⟩ := List.append_of_mem hj
  exact List.mem_append_left _ (h front j back rfl i harc)

/-- The predecessors of a position that are not placed. -/
def pending (g : Digraph) (placed : List Nat) (j : Nat) : List Nat :=
  (g.predecessors j).filter fun i => !placed.contains i

theorem mem_pending {placed : List Nat} {i j : Nat} :
    i ∈ g.pending placed j ↔ g.Arc i j ∧ i ∉ placed := by
  simp [pending, mem_predecessors]

theorem pending_eq_nil_iff {placed : List Nat} {j : Nat} :
    g.pending placed j = [] ↔ ∀ i, g.Arc i j → i ∈ placed := by
  rw [List.eq_nil_iff_forall_not_mem]
  refine forall_congr' fun i => ?_
  rw [mem_pending]
  tauto

theorem pending_concat (g : Digraph) (placed : List Nat) (next j : Nat) :
    g.pending (placed ++ [next]) j = (g.pending placed j).erase next := by
  have hnodup : (g.pending placed j).Nodup := (nodup_predecessors g j).filter _
  rw [hnodup.erase_eq_filter]
  simp only [pending, List.filter_filter]
  refine List.filter_congr fun i _ => ?_
  by_cases h : i = next <;> simp [h]

/-! ### Counters -/

namespace Progress

variable {p : Progress} {js : List Nat}

theorem length_counters_release (p : Progress) (j : Nat) :
    (p.release j).counters.length = p.counters.length :=
  List.length_modify ..

theorem waiting_release {j : Nat} (hj : j < p.counters.length) (k : Nat) :
    (p.release j).waiting k = if k = j then p.waiting k - 1 else p.waiting k :=
  getD_modify hj _ k 0

theorem ready_release (p : Progress) (j : Nat) :
    (p.release j).ready =
      if (p.release j).waiting j = 0 then insertAscending j p.ready else p.ready :=
  rfl

theorem placed_foldl_release (js : List Nat) (p : Progress) :
    (js.foldl release p).placed = p.placed := by
  induction js generalizing p with
  | nil => rfl
  | cons j js ih => exact ih (p.release j)

theorem length_counters_foldl_release (js : List Nat) (p : Progress) :
    (js.foldl release p).counters.length = p.counters.length := by
  induction js generalizing p with
  | nil => rfl
  | cons j js ih => exact (ih (p.release j)).trans (length_counters_release p j)

theorem pairwise_ready_foldl_release (h : p.ready.Pairwise (· ≤ ·)) :
    (js.foldl release p).ready.Pairwise (· ≤ ·) := by
  induction js generalizing p with
  | nil => exact h
  | cons j js ih =>
    refine ih ?_
    rw [ready_release, insertAscending_eq]
    split
    · exact h.orderedInsert j p.ready
    · exact h

/-- Distinct positions are each released once. -/
theorem waiting_foldl_release (hnodup : js.Nodup) (hbounded : ∀ j ∈ js, j < p.counters.length)
    (k : Nat) :
    (js.foldl release p).waiting k = if k ∈ js then p.waiting k - 1 else p.waiting k := by
  induction js generalizing p with
  | nil => simp
  | cons j js ih =>
    obtain ⟨hnew, hnodup⟩ := List.nodup_cons.1 hnodup
    obtain ⟨hj, hbounded⟩ := List.forall_mem_cons.1 hbounded
    rw [List.foldl_cons, ih hnodup (by simpa only [length_counters_release] using hbounded),
      waiting_release hj]
    grind

/-- The positions that wait for nothing any more become ready. -/
theorem perm_ready_foldl_release (hnodup : js.Nodup) (hbounded : ∀ j ∈ js, j < p.counters.length) :
    (js.foldl release p).ready.Perm
      (js.filter (fun j => p.waiting j - 1 == 0) ++ p.ready) := by
  induction js generalizing p with
  | nil => exact .refl _
  | cons j js ih =>
    obtain ⟨hnew, hnodup⟩ := List.nodup_cons.1 hnodup
    obtain ⟨hj, hbounded⟩ := List.forall_mem_cons.1 hbounded
    have hrest := ih hnodup (p := p.release j)
      (by simpa only [length_counters_release] using hbounded)
    -- the counters of the others are not touched
    have hsame : js.filter (fun k => (p.release j).waiting k - 1 == 0) =
        js.filter (fun k => p.waiting k - 1 == 0) := by
      refine List.filter_congr fun k hk => ?_
      have hne : k ≠ j := fun heq => hnew (heq ▸ hk)
      rw [waiting_release hj, if_neg hne]
    rw [hsame, ready_release, waiting_release hj, if_pos rfl] at hrest
    refine hrest.trans ?_
    by_cases hzero : p.waiting j - 1 = 0
    · rw [if_pos hzero, List.filter_cons_of_pos (by simpa using hzero), insertAscending_eq]
      exact ((List.perm_orderedInsert (· ≤ ·) j p.ready).append_left _).trans List.perm_middle
    · rw [if_neg hzero, List.filter_cons_of_neg (by simpa using hzero)]

end Progress

/-! ### Placing -/

/-- What is true of every state while positions are placed: the counters count the predecessors
that are still missing, and the ready positions are those that miss none. -/
structure Progress.Valid (g : Digraph) (p : Progress) : Prop where
  length_counters : p.counters.length = g.size
  nodup : p.placed.Nodup
  bounded : ∀ i ∈ p.placed, i < g.size
  respects : g.Respects p.placed
  waiting : ∀ j < g.size, p.waiting j = (g.pending p.placed j).length
  ready : ∀ j, j ∈ p.ready ↔ j < g.size ∧ j ∉ p.placed ∧ g.pending p.placed j = []
  readyNodup : p.ready.Nodup
  ascending : p.ready.Pairwise (· ≤ ·)

theorem valid_start (hg : g.Sound) : Progress.Valid g g.start := by
  have hdegree : ∀ j, g.inDegree j = (g.pending [] j).length := by
    intro j
    rw [hg.inDegree, pending]
    simp
  refine ⟨(List.length_map ..).trans hg.length_counts, List.nodup_nil,
    fun i hi => absurd hi List.not_mem_nil, respects_nil g, ?_, ?_, ?_, ?_⟩
  · intro j _
    change g.start.waiting j = (g.pending [] j).length
    rw [← hdegree]
    simp only [Progress.waiting, start, inDegree, List.getD_eq_getElem?_getD, List.getElem?_map]
    cases g.counts[j]? <;> rfl
  · intro j
    simp [start, hdegree]
  · exact List.nodup_range.filter _
  · exact List.pairwise_le_range.filter _

/-- A ready position has no arc to itself and none to another ready position. -/
theorem Progress.Valid.not_mem_ready {p : Progress} (h : p.Valid g) {i j : Nat}
    (hi : i ∈ p.ready) (harc : g.Arc i j) : j ∉ p.ready := by
  intro hj
  obtain ⟨-, -, hnone⟩ := (h.ready j).1 hj
  exact ((h.ready i).1 hi).2.1 (pending_eq_nil_iff.1 hnone i harc)

section Place

variable {p : Progress} {next : Nat} {rest : List Nat}

theorem place_cons (hready : p.ready = next :: rest) :
    g.place p = (g.successors next).foldl Progress.release
      { p with ready := rest, placed := p.placed ++ [next] } := by
  rw [place, hready]

theorem placed_place (hready : p.ready = next :: rest) :
    (g.place p).placed = p.placed ++ [next] := by
  rw [place_cons hready, Progress.placed_foldl_release]

theorem waiting_place_eq (hg : g.Sound) (h : p.Valid g) (hready : p.ready = next :: rest) (j : Nat) :
    (g.place p).waiting j = if j ∈ g.successors next then p.waiting j - 1 else p.waiting j := by
  rw [place_cons hready, Progress.waiting_foldl_release (hg.nodup next)]
  · rfl
  · exact fun j harc => h.length_counters ▸ hg.bounded harc

theorem waiting_place (hg : g.Sound) (h : p.Valid g) (hready : p.ready = next :: rest) {j : Nat}
    (hj : j < g.size) :
    (g.place p).waiting j = (g.pending (p.placed ++ [next]) j).length := by
  obtain ⟨-, hfresh, -⟩ := (h.ready next).1 (hready ▸ List.mem_cons_self)
  rw [waiting_place_eq hg h hready, pending_concat, h.waiting j hj]
  split
  · rename_i harc
    have hmem : next ∈ g.pending p.placed j := mem_pending.2 ⟨harc, hfresh⟩
    have hpos := List.length_pos_of_mem hmem
    rw [List.length_erase_of_mem hmem]
    omega
  · rename_i harc
    rw [List.erase_of_not_mem fun hin => harc (mem_pending.1 hin).1]

theorem perm_ready_place (hg : g.Sound) (h : p.Valid g) (hready : p.ready = next :: rest) :
    (g.place p).ready.Perm
      ((g.successors next).filter (fun j => (g.place p).waiting j == 0) ++ rest) := by
  have hwaiting : (g.successors next).filter (fun j => (g.place p).waiting j == 0) =
      (g.successors next).filter (fun j => p.waiting j - 1 == 0) := by
    refine List.filter_congr fun j harc => ?_
    rw [waiting_place_eq hg h hready, if_pos harc]
  rw [hwaiting, place_cons hready]
  exact Progress.perm_ready_foldl_release (hg.nodup next)
    fun j harc => h.length_counters ▸ hg.bounded harc

theorem nodup_ready_place (hg : g.Sound) (h : p.Valid g) (hready : p.ready = next :: rest) :
    (g.place p).ready.Nodup := by
  have hmem : next ∈ p.ready := hready ▸ List.mem_cons_self
  have hrest : rest.Nodup := (List.nodup_cons.1 (hready ▸ h.readyNodup)).2
  rw [(perm_ready_place hg h hready).nodup_iff]
  refine List.nodup_append.2 ⟨(hg.nodup next).filter _, hrest, ?_⟩
  rintro j hj _ hj' rfl
  have harc : g.Arc next j := (List.mem_filter.1 hj).1
  exact h.not_mem_ready hmem harc (hready ▸ List.mem_cons_of_mem next hj')

theorem mem_ready_place (hg : g.Sound) (h : p.Valid g) (hready : p.ready = next :: rest) {j : Nat} :
    j ∈ (g.place p).ready ↔
      j < g.size ∧ j ∉ p.placed ++ [next] ∧ g.pending (p.placed ++ [next]) j = [] := by
  have hmem : next ∈ p.ready := hready ▸ List.mem_cons_self
  have hnext : next ∉ rest := (List.nodup_cons.1 (hready ▸ h.readyNodup)).1
  obtain ⟨-, hfresh, -⟩ := (h.ready next).1 hmem
  rw [(perm_ready_place hg h hready).mem_iff, List.mem_append, List.mem_filter]
  constructor
  · rintro (⟨harc, hzero⟩ | hj)
    · -- were `j` placed, its predecessor `next` would stand in front of it
      have harc : g.Arc next j := harc
      have hj : j < g.size := hg.bounded harc
      rw [waiting_place hg h hready hj] at hzero
      refine ⟨hj, ?_, by simpa using hzero⟩
      intro hplaced
      rcases List.mem_append.1 hplaced with hplaced | heq
      · exact hfresh (h.respects.mem hplaced harc)
      · rw [List.mem_singleton.1 heq] at harc
        exact h.not_mem_ready hmem harc hmem
    · obtain ⟨hj', hnew, hempty⟩ := (h.ready j).1 (hready ▸ List.mem_cons_of_mem next hj)
      refine ⟨hj', ?_, ?_⟩
      · rw [List.mem_append, List.mem_singleton]
        rintro (hplaced | rfl)
        · exact hnew hplaced
        · exact hnext hj
      · rw [pending_concat, hempty, List.erase_nil]
  · rintro ⟨hj, hnew, hempty⟩
    rw [List.mem_append, List.mem_singleton, not_or] at hnew
    -- what misses nothing now was released just now, or was ready before
    by_cases harc : g.Arc next j
    · left
      refine ⟨harc, ?_⟩
      rw [waiting_place hg h hready hj, hempty]
      rfl
    · right
      have hbefore : g.pending p.placed j = [] := by
        rwa [pending_concat, List.erase_of_not_mem] at hempty
        exact fun hin => harc (mem_pending.1 hin).1
      have hold : j ∈ p.ready := (h.ready j).2 ⟨hj, hnew.1, hbefore⟩
      rw [hready] at hold
      exact (List.mem_cons.1 hold).resolve_left hnew.2

end Place

theorem valid_place (hg : g.Sound) {p : Progress} (h : p.Valid g) : (g.place p).Valid g := by
  cases hready : p.ready with
  | nil => simpa only [place, hready] using h
  | cons next rest =>
    obtain ⟨hsize, hfresh, hnone⟩ := (h.ready next).1 (hready ▸ List.mem_cons_self)
    refine ⟨?_, ?_, ?_, ?_, ?_, ?_, nodup_ready_place hg h hready, ?_⟩
    · rw [place_cons hready, Progress.length_counters_foldl_release]
      exact h.length_counters
    · rw [placed_place hready]
      exact List.nodup_append.2 ⟨h.nodup, List.nodup_singleton next, by grind⟩
    · rw [placed_place hready]
      intro i hi
      rcases List.mem_append.1 hi with hi | hi
      · exact h.bounded i hi
      · rw [List.mem_singleton.1 hi]
        exact hsize
    · rw [placed_place hready]
      exact h.respects.concat (pending_eq_nil_iff.1 hnone)
    · intro j hj
      rw [placed_place hready]
      exact waiting_place hg h hready hj
    · intro j
      rw [placed_place hready]
      exact mem_ready_place hg h hready
    · rw [place_cons hready]
      exact Progress.pairwise_ready_foldl_release (List.pairwise_cons.1 (hready ▸ h.ascending)).2

theorem valid_placeMany (hg : g.Sound) {p : Progress} (steps : Nat) (h : p.Valid g) :
    (g.placeMany steps p).Valid g := by
  induction steps generalizing p with
  | zero => exact h
  | succ steps ih => exact ih (valid_place hg h)

/-! ### The least order -/

/-- Without cycles the predecessors of any set of positions end somewhere. -/
theorem Acyclic.wellFounded (h : g.Acyclic) :
    WellFounded fun i j : Fin g.size => Relation.TransGen g.Arc i j := by
  have : IsTrans (Fin g.size) fun i j => Relation.TransGen g.Arc i j :=
    ⟨fun _ _ _ hij hjk => hij.trans hjk⟩
  have : Std.Irrefl fun i j : Fin g.size => Relation.TransGen g.Arc i j := ⟨fun i => h i⟩
  exact Finite.wellFounded_of_trans_of_irrefl _

/-- As long as positions are left, one of them is ready. -/
theorem Progress.Valid.ready_ne_nil {p : Progress} (h : p.Valid g)
    (hacyclic : g.Acyclic) (hleft : p.placed.length < g.size) : p.ready ≠ [] := by
  have hopen : ∃ i : Fin g.size, i.val ∉ p.placed := by
    by_contra hall
    push Not at hall
    have hsub : List.range g.size ⊆ p.placed :=
      fun i hi => hall ⟨i, List.mem_range.1 hi⟩
    have := (List.nodup_range.subperm hsub).length_le
    rw [List.length_range] at this
    omega
  -- a position that is left, but none that leads to it, misses no predecessor
  obtain ⟨i, hi, hmin⟩ := hacyclic.wellFounded.has_min {i | i.val ∉ p.placed} hopen
  have hnone : g.pending p.placed i = [] := by
    rw [pending_eq_nil_iff]
    intro j harc
    by_contra hj
    exact hmin ⟨j, harc.lt_size⟩ hj (.single harc)
  exact List.ne_nil_of_mem ((h.ready i).2 ⟨i.isLt, hi, hnone⟩)

theorem length_placed (hg : g.Sound) (hacyclic : g.Acyclic) {p : Progress} (h : p.Valid g)
    {steps : Nat} (hsteps : p.placed.length + steps ≤ g.size) :
    (g.placeMany steps p).placed.length = p.placed.length + steps := by
  induction steps generalizing p with
  | zero => rfl
  | succ steps ih =>
    obtain ⟨next, rest, hready⟩ :=
      List.exists_cons_of_ne_nil (h.ready_ne_nil hacyclic (by omega))
    have hlength : (g.place p).placed.length = p.placed.length + 1 := by
      rw [placed_place hready, List.length_append, List.length_singleton]
    rw [placeMany, ih (valid_place hg h) (by omega), hlength]
    omega

theorem isOrder_order (hg : g.Sound) (hacyclic : g.Acyclic) : g.IsOrder g.order := by
  have hvalid : (g.placeMany g.size g.start).Valid g := 
    valid_placeMany hg g.size (valid_start hg)
  have hlength : g.order.length = g.size := by
    have hsteps : g.start.placed.length + g.size ≤ g.size := by simp [start]
    simpa [start, order] using length_placed hg hacyclic (valid_start hg) hsteps
  refine ⟨?_, hvalid.respects⟩
  have hsub : g.order ⊆ List.range g.size := fun i hi => List.mem_range.2 (hvalid.bounded i hi)
  refine (hvalid.nodup.subperm hsub).perm_of_length_le ?_
  rw [List.length_range]
  exact hlength.ge

theorem placed_isPrefix (g : Digraph) (steps : Nat) (p : Progress) :
    p.placed <+: (g.placeMany steps p).placed := by
  induction steps generalizing p with
  | zero => exact List.prefix_rfl
  | succ steps ih =>
    refine List.IsPrefix.trans ?_ (ih (g.place p))
    cases hready : p.ready with
    | nil => simp only [place, hready, List.prefix_rfl]
    | cons next rest =>
      rw [placed_place hready]
      exact List.prefix_append _ _

/-- The next position of any other order is ready. -/
theorem Progress.Valid.mem_ready {p : Progress} (h : p.Valid g) {x : Nat}
    {other : List Nat} (hother : g.IsOrder (p.placed ++ x :: other)) : x ∈ p.ready := by
  obtain ⟨hperm, hrespects⟩ := hother
  have hx : x < g.size := List.mem_range.1 (hperm.subset (by simp))
  have hnodup : (p.placed ++ x :: other).Nodup := hperm.nodup_iff.2 List.nodup_range
  have hfresh : x ∉ p.placed := by
    intro hmem
    exact (List.nodup_append.1 hnodup).2.2 x hmem x List.mem_cons_self rfl
  exact (h.ready x).2 ⟨hx, hfresh, pending_eq_nil_iff.2 (hrespects p.placed x other rfl)⟩

/-- Going on from any state, no other order that starts like it is smaller. -/
theorem exists_placed_le (hg : g.Sound) {p : Progress} (h : p.Valid g) {other : List Nat}
    (hother : g.IsOrder (p.placed ++ other)) :
    ∃ tail, (g.placeMany other.length p).placed = p.placed ++ tail ∧
      (tail = other ∨ List.Lex (· < ·) tail other) := by
  induction other generalizing p with
  | nil => exact ⟨[], by simp [placeMany], .inl rfl⟩
  | cons x other ih =>
    have hx : x ∈ p.ready := h.mem_ready hother
    cases hready : p.ready with
    | nil => simp [hready] at hx
    | cons next rest =>
      have hle : next ≤ x := by
        rcases List.mem_cons.1 (hready ▸ hx) with rfl | hx
        · exact le_rfl
        · exact (List.pairwise_cons.1 (hready ▸ h.ascending)).1 x hx
      -- at the first difference the other order takes a ready position that is not the least
      rcases hle.eq_or_lt with rfl | hlt
      · have hother' : g.IsOrder ((g.place p).placed ++ other) := by
          rw [placed_place hready, List.append_assoc]
          exact hother
        obtain ⟨tail, htail, hleast⟩ := ih (valid_place hg h) hother'
        refine ⟨next :: tail, ?_, ?_⟩
        · rw [List.length_cons, placeMany, htail, placed_place hready, List.append_assoc]
          rfl
        · exact hleast.imp (congrArg (next :: ·)) .cons
      · obtain ⟨tail, htail⟩ := placed_isPrefix g other.length (g.place p)
        refine ⟨next :: tail, ?_, .inr (.rel hlt)⟩
        rw [List.length_cons, placeMany, ← htail, placed_place hready, List.append_assoc]
        rfl

/-- Every other order that respects the arcs is lexicographically greater. -/
theorem order_least (hg : g.Sound) {other : List Nat} (hother : g.IsOrder other) :
    g.order = other ∨ List.Lex (· < ·) g.order other := by
  have hstart : g.IsOrder (g.start.placed ++ other) := hother
  obtain ⟨tail, htail, hleast⟩ := exists_placed_le hg (valid_start hg) hstart
  have hlength : other.length = g.size := by simpa using hother.1.length_eq
  rw [hlength] at htail
  rw [order, htail]
  exact hleast

end DocTopics.Digraph

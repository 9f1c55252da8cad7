import DocTopics.Proofs.LeastOrder

/-!
# The collation order of units

Units can be put in order exactly when their edges form no circle. The order then holds every unit
as often as it is listed, respects the edges, and is the least such order by position in the list.

## Main definitions

- `Requires`, `CircleFree` — one known unit has to precede another, and no unit itself
- `RespectsEdges` — every unit stands behind the units it requires

## Main statements

- `collationOf_eq_ok_iff` — when there is an order, and which
- `collationOf_least` — the order is complete, respects the edges and is the least
-/

namespace DocTopics

/-- The unit `u` has to precede the unit `v`. Edges to unknown units do not count. -/
def Requires (units : List String) (edges : List Edge) (u v : String) : Prop :=
  ⟨u, v⟩ ∈ edges ∧ u ∈ units ∧ v ∈ units

/-- No unit has to precede itself. -/
def CircleFree (units : List String) (edges : List Edge) : Prop :=
  ∀ u, ¬Relation.TransGen (Requires units edges) u u

/-- Every unit stands behind the units that have to precede it. -/
def RespectsEdges (units : List String) (edges : List Edge) (order : List String) : Prop :=
  ∀ u v, Requires units edges u v → order.idxOf u < order.idxOf v

/-! ### Units and positions -/

theorem getElem?_of_positionOf {units : List String} {u : String} {i : Nat}
    (h : positionOf units u = some i) : units[i]? = some u := by
  induction units generalizing i with
  | nil => cases h
  | cons v rest ih =>
    simp only [positionOf] at h
    split at h
    · rename_i k hk
      cases h
      simpa using ih hk
    · split at h
      · rename_i hv
        cases h
        simp [hv]
      · cases h

theorem exists_positionOf {units : List String} {u : String} (h : u ∈ units) :
    ∃ i, positionOf units u = some i := by
  induction units with
  | nil => cases h
  | cons v rest ih =>
    simp only [positionOf]
    split
    · exact ⟨_, rfl⟩
    · rename_i hrest
      rcases List.mem_cons.1 h with rfl | h
      · exact ⟨0, if_pos rfl⟩
      · obtain ⟨i, hi⟩ := ih h
        rw [hrest] at hi
        cases hi

theorem positionOf_lt {units : List String} {u : String} {i : Nat}
    (h : positionOf units u = some i) : i < units.length :=
  (List.getElem?_eq_some_iff.1 (getElem?_of_positionOf h)).1

/-- The unit at a position. -/
def unitAt (units : List String) (i : Nat) : String :=
  units[i]?.getD ""

theorem unitAt_of_positionOf {units : List String} {u : String} {i : Nat}
    (h : positionOf units u = some i) : unitAt units i = u := by
  rw [unitAt, getElem?_of_positionOf h, Option.getD_some]

/-! ### The graph of the edges -/

section Graph

variable {units : List String} {edges : List Edge} {g : Digraph} {i j : Nat}

theorem size_addEdge (units : List String) (g : Digraph) (e : Edge) :
    (addEdge units g e).size = g.size := by
  unfold addEdge
  split
  · exact Digraph.size_addArc ..
  · rfl

theorem sound_addEdge (hg : g.Sound) (hsize : g.size = units.length) (e : Edge) :
    (addEdge units g e).Sound := by
  unfold addEdge
  split
  · rename_i hi hj
    exact hg.addArc (hsize ▸ positionOf_lt hi) (hsize ▸ positionOf_lt hj)
  · exact hg

/-- An edge adds the arc between the positions of its units, if both are known. -/
theorem arc_addEdge_iff (hsize : g.size = units.length) {e : Edge} :
    (addEdge units g e).Arc i j ↔
      g.Arc i j ∨ positionOf units e.before = some i ∧ positionOf units e.after = some j := by
  unfold addEdge
  split
  · rename_i hi hj
    rw [Digraph.arc_addArc_iff (hsize ▸ positionOf_lt hi), hi, hj]
    simp [eq_comm]
  · rename_i hunknown
    exact (or_iff_left fun h => hunknown i j h.1 h.2).symm

theorem size_foldl_addEdge (units : List String) (edges : List Edge) (g : Digraph) :
    (edges.foldl (addEdge units) g).size = g.size := by
  induction edges generalizing g with
  | nil => rfl
  | cons e edges ih => exact (ih (addEdge units g e)).trans (size_addEdge units g e)

theorem sound_foldl_addEdge (hg : g.Sound) (hsize : g.size = units.length) :
    (edges.foldl (addEdge units) g).Sound := by
  induction edges generalizing g with
  | nil => exact hg
  | cons e edges ih =>
    exact ih (sound_addEdge hg hsize e) ((size_addEdge units g e).trans hsize)

theorem arc_foldl_addEdge_iff (hsize : g.size = units.length) :
    (edges.foldl (addEdge units) g).Arc i j ↔ g.Arc i j ∨
      ∃ e ∈ edges, positionOf units e.before = some i ∧ positionOf units e.after = some j := by
  induction edges generalizing g with
  | nil => simp
  | cons e edges ih =>
    rw [List.foldl_cons, ih ((size_addEdge units g e).trans hsize), arc_addEdge_iff hsize, or_assoc,
      List.exists_mem_cons_iff]

theorem size_inclusionGraph (units : List String) (edges : List Edge) :
    (inclusionGraph units edges).size = units.length := by
  rw [inclusionGraph, Digraph.size_sorted, size_foldl_addEdge, Digraph.size_empty]

theorem wellFormed_inclusionGraph (units : List String) (edges : List Edge) :
    (inclusionGraph units edges).WellFormed :=
  (sound_foldl_addEdge (Digraph.sound_empty _) (Digraph.size_empty _)).sorted

/-- The arcs are the edges between known units. -/
theorem arc_inclusionGraph :
    (inclusionGraph units edges).Arc i j ↔
      ∃ u v, Requires units edges u v ∧ positionOf units u = some i ∧
        positionOf units v = some j := by
  rw [inclusionGraph, Digraph.arc_sorted_iff, arc_foldl_addEdge_iff (Digraph.size_empty _),
    or_iff_right (Digraph.not_arc_empty _ i j)]
  constructor
  · rintro ⟨⟨u, v⟩, hedge, hu, hv⟩
    exact ⟨u, v, ⟨hedge, List.mem_of_getElem? (getElem?_of_positionOf hu),
      List.mem_of_getElem? (getElem?_of_positionOf hv)⟩, hu, hv⟩
  · rintro ⟨u, v, ⟨hedge, -, -⟩, hu, hv⟩
    exact ⟨⟨u, v⟩, hedge, hu, hv⟩

end Graph

/-- A circle of units is a cycle of positions, also where units are listed twice. -/
theorem acyclic_inclusionGraph_iff {units : List String} {edges : List Edge} :
    (inclusionGraph units edges).Acyclic ↔ CircleFree units edges := by
  constructor
  · intro h u hcircle
    refine h _ (hcircle.lift (fun u => (positionOf units u).getD 0) ?_)
    intro u v huv
    obtain ⟨i, hi⟩ := exists_positionOf huv.2.1
    obtain ⟨j, hj⟩ := exists_positionOf huv.2.2
    show (inclusionGraph units edges).Arc ((positionOf units u).getD 0) ((positionOf units v).getD 0)
    rw [hi, hj]
    exact arc_inclusionGraph.2 ⟨u, v, huv, hi, hj⟩
  · intro h i hcycle
    refine h _ (hcycle.lift (unitAt units) ?_)
    intro i j harc
    obtain ⟨u, v, huv, hi, hj⟩ := arc_inclusionGraph.1 harc
    show Requires units edges (unitAt units i) (unitAt units j)
    rw [unitAt_of_positionOf hi, unitAt_of_positionOf hj]
    exact huv

theorem collationOf_eq_ok_iff {units : List String} {edges : List Edge} {order : List String} :
    collationOf units edges = .ok order ↔
      CircleFree units edges ∧ order = unitsAt units (inclusionGraph units edges).order := by
  rw [← acyclic_inclusionGraph_iff,
    ← Digraph.cycle?_eq_none_iff (wellFormed_inclusionGraph units edges).toSound]
  simp only [collationOf]
  split
  · rename_i chain hchain
    simp [hchain]
  · rename_i hnone
    simp [hnone, eq_comm]

/-! ### The order -/

theorem isOrder_of_circleFree {units : List String} {edges : List Edge}
    (h : CircleFree units edges) :
    (inclusionGraph units edges).IsOrder (inclusionGraph units edges).order :=
  Digraph.isOrder_order (wellFormed_inclusionGraph units edges).toSound
    (acyclic_inclusionGraph_iff.2 h)

theorem unitsAt_range (units : List String) : unitsAt units (List.range units.length) = units := by
  induction units with
  | nil => rfl
  | cons u units ih =>
    rw [List.length_cons, List.range_succ_eq_map, unitsAt, List.filterMap_cons, List.filterMap_map]
    exact congrArg (u :: ·) ih

theorem perm_of_collationOf {units : List String} {edges : List Edge} {order : List String}
    (h : collationOf units edges = .ok order) : order.Perm units := by
  obtain ⟨hfree, rfl⟩ := collationOf_eq_ok_iff.1 h
  have hperm := (isOrder_of_circleFree hfree).1.filterMap (units[·]?)
  rwa [← unitsAt, ← unitsAt, size_inclusionGraph, unitsAt_range] at hperm

theorem mem_unitsAt {units : List String} {positions : List Nat} {u : String} :
    u ∈ unitsAt units positions ↔ ∃ i ∈ positions, units[i]? = some u :=
  List.mem_filterMap

/-- The order of distinct units respects the edges: at every position of the list, the units in
front of it are the placed ones. -/
theorem respectsEdges_of_collationOf {units : List String} {edges : List Edge}
    {order : List String} (hunits : units.Nodup) (h : collationOf units edges = .ok order) :
    RespectsEdges units edges order := by
  have hnodup : order.Nodup := (perm_of_collationOf h).nodup_iff.2 hunits
  obtain ⟨hfree, rfl⟩ := collationOf_eq_ok_iff.1 h
  obtain ⟨hperm, hrespects⟩ := isOrder_of_circleFree hfree
  intro u v huv
  obtain ⟨i, hi⟩ := exists_positionOf huv.2.1
  obtain ⟨j, hj⟩ := exists_positionOf huv.2.2
  have harc : (inclusionGraph units edges).Arc i j := arc_inclusionGraph.2 ⟨u, v, huv, hi, hj⟩
  have hbounded := (wellFormed_inclusionGraph units edges).bounded harc
  obtain ⟨front, back, hsplit⟩ := List.append_of_mem (hperm.mem_iff.2 (List.mem_range.2 hbounded))
  have horder : unitsAt units (inclusionGraph units edges).order =
      unitsAt units front ++ v :: unitsAt units back := by
    rw [hsplit, unitsAt, List.filterMap_append, List.filterMap_cons_some (getElem?_of_positionOf hj)]
    rfl
  have hu : u ∈ unitsAt units front :=
    mem_unitsAt.2 ⟨i, hrespects front j back hsplit i harc, getElem?_of_positionOf hi⟩
  rw [horder] at hnodup ⊢
  have hv : v ∉ unitsAt units front := by
    intro hmem
    exact (List.nodup_append.1 hnodup).2.2 v hmem v List.mem_cons_self rfl
  rw [List.idxOf_append_of_mem hu, List.idxOf_append_of_notMem hv]
  exact Nat.lt_add_right _ (List.idxOf_lt_length_of_mem hu)

/-! ### The least order -/

theorem positionOf_eq_idxOf {units : List String} (hunits : units.Nodup) {u : String} {i : Nat}
    (h : positionOf units u = some i) : units.idxOf u = i := by
  obtain ⟨hi, rfl⟩ := List.getElem?_eq_some_iff.1 (getElem?_of_positionOf h)
  exact hunits.idxOf_getElem i hi

theorem map_idxOf_self {units : List String} (hunits : units.Nodup) :
    units.map units.idxOf = List.range units.length := by
  refine List.ext_getElem (by simp) fun i hi _ => ?_
  rw [List.getElem_map, List.getElem_range]
  exact hunits.idxOf_getElem i (by simpa using hi)

theorem unitsAt_map_idxOf {units other : List String} (h : other ⊆ units) :
    unitsAt units (other.map units.idxOf) = other := by
  induction other with
  | nil => rfl
  | cons u other ih =>
    obtain ⟨hu, hother⟩ := List.cons_subset.1 h
    have hget : units[units.idxOf u]? = some u := List.getElem?_idxOf hu
    rw [List.map_cons, unitsAt, List.filterMap_cons_some hget]
    exact congrArg (u :: ·) (ih hother)

theorem map_idxOf_unitsAt {units : List String} (hunits : units.Nodup) {positions : List Nat}
    (h : ∀ i ∈ positions, i < units.length) :
    (unitsAt units positions).map units.idxOf = positions := by
  induction positions with
  | nil => rfl
  | cons i positions ih =>
    have hi : i < units.length := h i List.mem_cons_self
    rw [unitsAt, List.filterMap_cons_some (List.getElem?_eq_getElem hi), List.map_cons,
      hunits.idxOf_getElem i hi]
    exact congrArg (i :: ·) (ih fun j hj => h j (List.mem_cons_of_mem i hj))

theorem isOrder_map_idxOf {units : List String} {edges : List Edge} {other : List String}
    (hunits : units.Nodup) (hperm : other.Perm units) (hother : RespectsEdges units edges other) :
    (inclusionGraph units edges).IsOrder (other.map units.idxOf) := by
  refine ⟨?_, ?_⟩
  · rw [size_inclusionGraph, ← map_idxOf_self hunits]
    exact hperm.map units.idxOf
  · intro front j back hsplit i harc
    obtain ⟨u, v, huv, hi, hj⟩ := arc_inclusionGraph.1 harc
    obtain ⟨front', rest, rfl, rfl, hrest⟩ := List.map_eq_append_iff.1 hsplit
    obtain ⟨v', back', rfl, hv', rfl⟩ := List.map_eq_cons_iff.1 hrest
    have hmem : v' ∈ units := hperm.subset (by simp)
    have hv : v' = v := (List.idxOf_inj hmem).1 (hv'.trans (positionOf_eq_idxOf hunits hj).symm)
    subst hv
    -- `u` stands in front of `v'`, and `v'` is the first unit behind `front'`
    have hlt := hother u v' huv
    have hle : (front' ++ v' :: back').idxOf v' ≤ front'.length := by
      by_cases hin : v' ∈ front'
      · rw [List.idxOf_append_of_mem hin]
        exact List.idxOf_le_length
      · rw [List.idxOf_append_of_notMem hin, List.idxOf_cons_self]
        exact le_rfl
    have hu : u ∈ front' := by
      by_contra hout
      rw [List.idxOf_append_of_notMem hout] at hlt
      omega
    rw [← positionOf_eq_idxOf hunits hi]
    exact List.mem_map_of_mem hu

/-- Units have an order exactly when their edges form no circle. The order holds every unit as often
as it is listed. Of distinct units it respects the edges, and every other order that does so is
lexicographically greater by position. No counter of missing predecessors ever becomes negative. -/
theorem collationOf_least (units : List String) (edges : List Edge) :
    ((∃ order, collationOf units edges = .ok order) ↔ CircleFree units edges) ∧
    (∀ order, collationOf units edges = .ok order →
      order.Perm units ∧
      (units.Nodup →
        RespectsEdges units edges order ∧
        ∀ other, other.Perm units → RespectsEdges units edges other →
          order = other ∨
            List.Lex (· < ·) (order.map units.idxOf) (other.map units.idxOf))) ∧
    ∀ steps, ∀ j < units.length,
      0 ≤ ((inclusionGraph units edges).placeMany steps
        (inclusionGraph units edges).start).waiting j := by
  refine ⟨?_, ?_, ?_⟩
  · constructor
    · rintro ⟨order, h⟩
      exact (collationOf_eq_ok_iff.1 h).1
    · intro hfree
      exact ⟨_, collationOf_eq_ok_iff.2 ⟨hfree, rfl⟩⟩
  · intro order h
    refine ⟨perm_of_collationOf h, fun hunits => ⟨respectsEdges_of_collationOf hunits h, ?_⟩⟩
    intro other hperm hother
    obtain ⟨hfree, rfl⟩ := collationOf_eq_ok_iff.1 h
    have hbounded : ∀ i ∈ (inclusionGraph units edges).order, i < units.length := by
      intro i hi
      rw [← size_inclusionGraph units edges]
      exact List.mem_range.1 ((isOrder_of_circleFree hfree).1.subset hi)
    rw [map_idxOf_unitsAt hunits hbounded]
    refine (Digraph.order_least (wellFormed_inclusionGraph units edges).toSound
      (isOrder_map_idxOf hunits hperm hother)).imp_left ?_
    intro heq
    rw [heq, unitsAt_map_idxOf hperm.subset]
  · intro steps j hj
    have hg := (wellFormed_inclusionGraph units edges).toSound
    have hvalid := Digraph.valid_placeMany hg steps (Digraph.valid_start hg)
    rw [hvalid.waiting j (by rwa [size_inclusionGraph])]
    exact Int.natCast_nonneg _

end DocTopics

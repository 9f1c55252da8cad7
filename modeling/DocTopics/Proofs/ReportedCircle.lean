import DocTopics.Proofs.CollationOrder

/-!
# The circle that a failed collation reports

Units without an order are reported with a chain of edges that leads from a unit back to it and
through no other unit twice. The order in which edges are listed, and how often, matters neither for
the collation order nor for the chain.

## Main definitions

- `IsCircle` — a closed chain of edges between known units

## Main statements

- `isCircle_of_collationOf` — what is reported is a circle
- `inclusionGraph_congr` — the graph is known from the edges between known units
- `collationOf_reports_circle` — both for a whole collation
-/

namespace DocTopics

/-- A chain of edges between known units that ends where it starts and repeats nothing else. -/
def IsCircle (units : List String) (edges : List Edge) (chain : List String) : Prop :=
  ∃ first rest, chain = first :: rest ++ [first] ∧ (first :: rest).Nodup ∧
    (∀ u ∈ first :: rest, u ∈ units) ∧ chain.IsChain fun u v => ⟨u, v⟩ ∈ edges

/-- An arc leads on from every position of a closed chain. -/
theorem Digraph.IsClosedChain.exists_arc {g : Digraph} {chain : List Nat}
    (h : g.IsClosedChain chain) {i : Nat} (hi : i ∈ chain) : ∃ j, g.Arc i j := by
  obtain ⟨first, rest, rfl, -, hchain⟩ := h
  have hmem : i ∈ first :: rest := by
    rcases List.mem_append.1 hi with hi | hi
    · exact hi
    · rw [List.mem_singleton.1 hi]
      exact List.mem_cons_self
  obtain ⟨front, back, hsplit⟩ := List.append_of_mem hmem
  rw [hsplit, List.append_assoc, List.cons_append] at hchain
  cases hback : back ++ [first] with
  | nil => simp at hback
  | cons j more =>
    rw [hback] at hchain
    exact ⟨j, (List.isChain_append_cons_cons.1 hchain).2.1⟩

/-- The positions of a closed chain as units. Two of them are the same unit only if they are the
same position, since a unit takes part with its last position. -/
theorem isCircle_unitsAt {units : List String} {edges : List Edge} {chain : List Nat}
    (h : (inclusionGraph units edges).IsClosedChain chain) :
    IsCircle units edges (unitsAt units chain) := by
  have hposition : ∀ i ∈ chain, positionOf units (unitAt units i) = some i := by
    intro i hi
    obtain ⟨j, harc⟩ := h.exists_arc hi
    obtain ⟨u, v, -, hu, -⟩ := arc_inclusionGraph.1 harc
    rw [unitAt_of_positionOf hu, hu]
  have hunits : unitsAt units chain = chain.map (unitAt units) :=
    List.filterMap_eq_map_iff_forall_eq_some.2
      fun i hi => getElem?_of_positionOf (hposition i hi)
  obtain ⟨first, rest, rfl, hnodup, hchain⟩ := h
  refine ⟨unitAt units first, rest.map (unitAt units), ?_, ?_, ?_, ?_⟩
  · rw [hunits, List.map_append, List.map_cons, List.map_singleton]
  · rw [← List.map_cons]
    refine hnodup.map_on fun i hi j hj heq => ?_
    have hpos := hposition i (List.mem_append_left _ hi)
    rw [heq, hposition j (List.mem_append_left _ hj)] at hpos
    exact (Option.some_inj.1 hpos).symm
  · rw [← List.map_cons, List.forall_mem_map]
    intro i hi
    exact List.mem_of_getElem? (getElem?_of_positionOf (hposition i (List.mem_append_left _ hi)))
  · rw [hunits, List.isChain_map]
    refine hchain.imp fun i j harc => ?_
    obtain ⟨u, v, huv, hu, hv⟩ := arc_inclusionGraph.1 harc
    rw [unitAt_of_positionOf hu, unitAt_of_positionOf hv]
    exact huv.1

/-- Units without an order are reported with a circle. -/
theorem isCircle_of_collationOf {units : List String} {edges : List Edge} {failure : Failure}
    (h : collationOf units edges = .error failure) :
    ∃ chain, failure = .cycle chain ∧ IsCircle units edges chain := by
  simp only [collationOf] at h
  split at h
  · rename_i chain hchain
    cases h
    have hg := (wellFormed_inclusionGraph units edges).toSound
    exact ⟨_, rfl, isCircle_unitsAt (Digraph.isClosedChain_of_cycle? hg hchain)⟩
  · cases h

/-- The graph is known from the edges between known units, however they are listed. -/
theorem inclusionGraph_congr {units : List String} {edges edges' : List Edge}
    (h : ∀ u v, Requires units edges u v ↔ Requires units edges' u v) :
    inclusionGraph units edges = inclusionGraph units edges' := by
  refine (wellFormed_inclusionGraph units edges).ext (wellFormed_inclusionGraph units edges') ?_ ?_
  · rw [size_inclusionGraph, size_inclusionGraph]
  · intro i j
    simp only [arc_inclusionGraph, h]

/-- A collation that fails reports a closed chain of edges, of at least one edge, that goes through
distinct known units. Its whole answer, the chain included, is the same for every list of the same
edges. -/
theorem collationOf_reports_circle (units : List String) (edges : List Edge) :
    (∀ failure, collationOf units edges = .error failure →
      ∃ chain, failure = .cycle chain ∧ IsCircle units edges chain) ∧
    ∀ edges', (∀ e, e ∈ edges' ↔ e ∈ edges) →
      collationOf units edges' = collationOf units edges := by
  refine ⟨fun failure h => isCircle_of_collationOf h, fun edges' h => ?_⟩
  have hrequires : ∀ u v, Requires units edges' u v ↔ Requires units edges u v :=
    fun u v => and_congr_left fun _ => h ⟨u, v⟩
  simp only [collationOf, inclusionGraph_congr hrequires]

/-- The circle of two units behind a third one, with an edge listed twice. -/
theorem collationOf_twoInCircle :
    IsCircle ["a.R", "b.R", "c.R"] [⟨"a.R", "b.R"⟩, ⟨"b.R", "c.R"⟩, ⟨"c.R", "b.R"⟩]
      ["b.R", "c.R", "b.R"] ∧
    collationOf ["a.R", "b.R", "c.R"]
        [⟨"c.R", "b.R"⟩, ⟨"a.R", "b.R"⟩, ⟨"b.R", "c.R"⟩, ⟨"c.R", "b.R"⟩] =
      .error (.cycle ["b.R", "c.R", "b.R"]) := by
  have hfail : collationOf ["a.R", "b.R", "c.R"]
      [⟨"a.R", "b.R"⟩, ⟨"b.R", "c.R"⟩, ⟨"c.R", "b.R"⟩] =
        .error (.cycle ["b.R", "c.R", "b.R"]) := by
    rfl
  obtain ⟨hcircle, hsame⟩ := collationOf_reports_circle ["a.R", "b.R", "c.R"]
    [⟨"a.R", "b.R"⟩, ⟨"b.R", "c.R"⟩, ⟨"c.R", "b.R"⟩]
  refine ⟨?_, ?_⟩
  · obtain ⟨chain, heq, h⟩ := hcircle _ hfail
    cases heq
    exact h
  · rw [hsame _ (by simp), hfail]

end DocTopics

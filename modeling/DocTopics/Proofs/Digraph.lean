import DocTopics.Collation
import DocTopics.Proofs.Fold
import Mathlib.Data.List.Chain
import Mathlib.Data.List.Perm.Subperm
import Mathlib.Data.List.Sort
import Mathlib.Data.List.TakeWhile
import Mathlib.Order.WellFounded

/-!
# Graphs on positions and their cycles

A graph is built arc by arc: each new arc is added to the successors of a position and counted at
the other end. The tables fit together all the time, and with its successors in ascending order a
graph is known from its arcs. The depth-first search finds a closed chain exactly when the graph has
a cycle.

## Main definitions

- `Digraph.Arc`, `Digraph.Acyclic` — arcs between positions, and their cycles
- `Digraph.Sound`, `Digraph.WellFormed` — the tables fit together, and are in order
- `Digraph.IsPath`, `Digraph.IsClosedChain` — paths that repeat no position, and closed ones
- `Digraph.Search.Valid` — the invariant of the search

## Main statements

- `Digraph.Sound.addArc` — adding an arc keeps the tables sound
- `Digraph.WellFormed.ext` — two graphs with the same arcs are the same
- `Digraph.visit_ensures` — what a visit finds, and how it leaves the marks and the stack
- `Digraph.cycle?_eq_none_iff` — the search is exact
-/

namespace DocTopics

/-! ### Tables -/

theorem getD_modify {α : Type} {xs : List α} {i : Nat} (hi : i < xs.length) (f : α → α) (k : Nat)
    (d : α) : (xs.modify i f).getD k d = if k = i then f (xs.getD k d) else xs.getD k d := by
  rw [List.getD_eq_getElem?_getD, List.getElem?_modify, List.getD_eq_getElem?_getD]
  by_cases hk : k = i
  · subst hk
    simp [hi]
  · simp [hk, Ne.symm hk]

theorem getD_set {α : Type} {xs : List α} {i : Nat} (hi : i < xs.length) (x : α) (k : Nat) (d : α) :
    (xs.set i x).getD k d = if k = i then x else xs.getD k d := by
  rw [List.getD_eq_getElem?_getD, List.getElem?_set, List.getD_eq_getElem?_getD]
  by_cases hk : k = i
  · subst hk
    simp [hi]
  · simp [hk, Ne.symm hk]

theorem getD_replicate {α : Type} (n k : Nat) (d : α) : (List.replicate n d).getD k d = d := by
  rw [List.getD_eq_getElem?_getD, List.getElem?_replicate]
  split <;> rfl

/-- Tables of one length with the same entries are the same. -/
theorem ext_getD {α : Type} {xs ys : List α} (hlength : xs.length = ys.length) {d : α}
    (h : ∀ k, xs.getD k d = ys.getD k d) : xs = ys := by
  refine List.ext_getElem hlength fun k hk hk' => ?_
  simpa [List.getD_eq_getElem?_getD, hk, hk'] using h k

theorem insertAscending_eq (i : Nat) (js : List Nat) :
    insertAscending i js = js.orderedInsert (· ≤ ·) i := by
  induction js with
  | nil => rfl
  | cons j js ih => simp only [insertAscending, List.orderedInsert_cons, ih]

theorem sortAscending_eq (js : List Nat) : sortAscending js = js.insertionSort (· ≤ ·) := by
  induction js with
  | nil => rfl
  | cons j js ih =>
    rw [List.insertionSort_cons, ← ih, ← insertAscending_eq]
    rfl

namespace Digraph

variable {g : Digraph} {i j : Nat}

/-- An arc leads from one position to another. -/
def Arc (g : Digraph) (i j : Nat) : Prop :=
  j ∈ g.successors i

/-- No position leads back to itself. -/
def Acyclic (g : Digraph) : Prop :=
  ∀ i, ¬Relation.TransGen g.Arc i i

/-- The positions that an arc comes from. -/
def predecessors (g : Digraph) (j : Nat) : List Nat :=
  (List.range g.size).filter fun i => (g.successors i).contains j

/-- The tables of a graph fit together: every arc is listed once, and counted at its end. -/
structure Sound (g : Digraph) : Prop where
  length_counts : g.counts.length = g.size
  bounded : ∀ {i j}, g.Arc i j → j < g.size
  nodup : ∀ i, (g.successors i).Nodup
  inDegree : ∀ j, g.inDegree j = (g.predecessors j).length

/-- Sound tables with all successors in ascending order. -/
structure WellFormed (g : Digraph) : Prop extends Sound g where
  ascending : ∀ i, (g.successors i).Pairwise (· ≤ ·)

theorem Arc.lt_size (h : g.Arc i j) : i < g.size := by
  by_contra hi
  rw [Arc, successors, List.getD_eq_getElem?_getD, List.getElem?_eq_none (Nat.not_lt.1 hi)] at h
  cases h

theorem mem_predecessors : i ∈ g.predecessors j ↔ g.Arc i j := by
  rw [predecessors, List.mem_filter, List.mem_range, List.contains_iff_mem]
  exact ⟨fun h => h.2, fun h => ⟨h.lt_size, h⟩⟩

theorem nodup_predecessors (g : Digraph) (j : Nat) : (g.predecessors j).Nodup :=
  List.nodup_range.filter _

theorem length_predecessors_congr {g' : Digraph} (h : ∀ i, g.Arc i j ↔ g'.Arc i j) :
    (g.predecessors j).length = (g'.predecessors j).length := by
  have hperm : (g.predecessors j).Perm (g'.predecessors j) := by
    refine (List.perm_ext_iff_of_nodup (nodup_predecessors g j) (nodup_predecessors g' j)).2
      fun i => ?_
    rw [mem_predecessors, mem_predecessors, h]
  exact hperm.length_eq

/-! ### Building a graph -/

theorem size_empty (size : Nat) : (empty size).size = size :=
  List.length_replicate

theorem successors_empty (size i : Nat) : (empty size).successors i = [] :=
  getD_replicate size i []

theorem not_arc_empty (size i j : Nat) : ¬(empty size).Arc i j := by
  rw [Arc, successors_empty]
  exact List.not_mem_nil

theorem sound_empty (size : Nat) : (empty size).Sound where
  length_counts := List.length_replicate.trans (size_empty size).symm
  bounded harc := absurd harc (not_arc_empty _ _ _)
  nodup i := successors_empty size i ▸ List.nodup_nil
  inDegree j := by
    have hnone : (empty size).predecessors j = [] :=
      List.eq_nil_iff_forall_not_mem.2 fun i hi => not_arc_empty size i j (mem_predecessors.1 hi)
    rw [hnone]
    exact getD_replicate size j 0

theorem size_addArc (g : Digraph) (i j : Nat) : (g.addArc i j).size = g.size := by
  rw [addArc]
  split
  · rfl
  · exact List.length_modify ..

theorem addArc_of_arc (h : g.Arc i j) : g.addArc i j = g :=
  if_pos (List.contains_iff_mem.2 h)

theorem successors_addArc (hi : i < g.size) (hnew : ¬g.Arc i j) (k : Nat) :
    (g.addArc i j).successors k = if k = i then g.successors k ++ [j] else g.successors k := by
  rw [addArc, if_neg fun hmem => hnew (List.contains_iff_mem.1 hmem)]
  exact getD_modify hi _ k []

theorem arc_addArc_iff (hi : i < g.size) {a b : Nat} :
    (g.addArc i j).Arc a b ↔ g.Arc a b ∨ a = i ∧ b = j := by
  by_cases h : g.Arc i j
  · rw [addArc_of_arc h]
    exact ⟨.inl, fun hab => hab.elim id fun ⟨ha, hb⟩ => ha ▸ hb ▸ h⟩
  · rw [Arc, successors_addArc hi h]
    by_cases ha : a = i
    · rw [if_pos ha, List.mem_append, List.mem_singleton, Arc]
      simp [ha]
    · rw [if_neg ha, Arc]
      simp [ha]

/-- A new arc has one more predecessor at its end, and changes nothing elsewhere. -/
theorem length_predecessors_addArc (hi : i < g.size) (hnew : ¬g.Arc i j) (k : Nat) :
    ((g.addArc i j).predecessors k).length =
      if k = j then (g.predecessors k).length + 1 else (g.predecessors k).length := by
  split
  · rename_i hk
    subst hk
    have hfresh : i ∉ g.predecessors k := fun hmem => hnew (mem_predecessors.1 hmem)
    have hperm : ((g.addArc i k).predecessors k).Perm (i :: g.predecessors k) := by
      refine (List.perm_ext_iff_of_nodup (nodup_predecessors _ _)
        (List.nodup_cons.2 ⟨hfresh, nodup_predecessors _ _⟩)).2 fun a => ?_
      rw [mem_predecessors, arc_addArc_iff hi, List.mem_cons, mem_predecessors]
      tauto
    rw [hperm.length_eq, List.length_cons]
  · rename_i hk
    refine length_predecessors_congr fun a => ?_
    rw [arc_addArc_iff hi]
    tauto

theorem Sound.addArc (h : g.Sound) (hi : i < g.size) (hj : j < g.size) : (g.addArc i j).Sound := by
  by_cases harc : g.Arc i j
  · rwa [addArc_of_arc harc]
  have hcounts : (g.addArc i j).counts = g.counts.modify j (· + 1) := by
    rw [Digraph.addArc, if_neg fun hmem => harc (List.contains_iff_mem.1 hmem)]
  refine ⟨?_, ?_, ?_, ?_⟩
  · rw [hcounts, List.length_modify, size_addArc, h.length_counts]
  · intro a b hab
    rw [size_addArc]
    rcases (arc_addArc_iff hi).1 hab with hab | ⟨-, rfl⟩
    · exact h.bounded hab
    · exact hj
  · intro k
    rw [successors_addArc hi harc]
    split
    · rename_i hk
      subst hk
      exact List.nodup_append.2 ⟨h.nodup k, List.nodup_singleton j, by grind [Arc]⟩
    · exact h.nodup k
  · intro k
    rw [Digraph.inDegree, hcounts, getD_modify (h.length_counts ▸ hj), ← Digraph.inDegree,
      h.inDegree, length_predecessors_addArc hi harc]

theorem size_sorted (g : Digraph) : g.sorted.size = g.size :=
  List.length_map ..

theorem successors_sorted (g : Digraph) (i : Nat) :
    g.sorted.successors i = sortAscending (g.successors i) := by
  rw [successors, successors, sorted, List.getD_eq_getElem?_getD, List.getD_eq_getElem?_getD,
    List.getElem?_map]
  cases g.lists[i]? <;> rfl

theorem perm_successors_sorted (g : Digraph) (i : Nat) :
    (g.sorted.successors i).Perm (g.successors i) := by
  rw [successors_sorted, sortAscending_eq]
  exact List.perm_insertionSort _ _

theorem arc_sorted_iff : g.sorted.Arc i j ↔ g.Arc i j :=
  (perm_successors_sorted g i).mem_iff

/-- Sorting the successors of a sound graph makes it well-formed. -/
theorem Sound.sorted (h : g.Sound) : g.sorted.WellFormed where
  length_counts := h.length_counts.trans (size_sorted g).symm
  bounded harc := (size_sorted g).symm ▸ h.bounded (arc_sorted_iff.1 harc)
  nodup i := (perm_successors_sorted g i).nodup_iff.2 (h.nodup i)
  inDegree j := (h.inDegree j).trans (length_predecessors_congr fun _ => arc_sorted_iff.symm)
  ascending i := by
    rw [successors_sorted, sortAscending_eq]
    exact List.pairwise_insertionSort _ _

/-- A well-formed graph is known from its arcs. -/
theorem WellFormed.ext {g' : Digraph} (h : g.WellFormed) (h' : g'.WellFormed)
    (hsize : g.size = g'.size) (harc : ∀ i j, g.Arc i j ↔ g'.Arc i j) : g = g' := by
  have hsuccessors : ∀ i, g.successors i = g'.successors i := by
    intro i
    refine ((List.perm_ext_iff_of_nodup (h.nodup i) (h'.nodup i)).2 (harc i)).eq_of_pairwise ?_
      (h.ascending i) (h'.ascending i)
    exact fun a b _ _ => le_antisymm
  have hdegrees : ∀ j, g.inDegree j = g'.inDegree j := by
    intro j
    rw [h.inDegree, h'.inDegree]
    exact length_predecessors_congr fun i => harc i j
  have hlists : g.lists = g'.lists := ext_getD hsize hsuccessors
  have hcounts : g.counts = g'.counts :=
    ext_getD (h.length_counts.trans (hsize.trans h'.length_counts.symm)) hdegrees
  calc g = ⟨g.lists, g.counts⟩ := rfl
    _ = ⟨g'.lists, g'.counts⟩ := by rw [hlists, hcounts]

/-! ### Cycles -/

/-- A chain of arcs that repeats no position. -/
structure IsPath (g : Digraph) (path : List Nat) : Prop where
  nodup : path.Nodup
  bounded : ∀ i ∈ path, i < g.size
  chain : path.IsChain g.Arc

/-- A chain of arcs that ends where it starts and repeats nothing else. -/
def IsClosedChain (g : Digraph) (chain : List Nat) : Prop :=
  ∃ first rest, chain = first :: rest ++ [first] ∧ (first :: rest).Nodup ∧ chain.IsChain g.Arc

theorem IsPath.length_le {path : List Nat} (h : g.IsPath path) :
    path.length ≤ g.size := by
  have hsub : path ⊆ List.range g.size := fun i hi => List.mem_range.2 (h.bounded i hi)
  simpa using (h.nodup.subperm hsub).length_le

theorem isPath_singleton {i : Nat} (hi : i < g.size) : g.IsPath [i] :=
  ⟨List.nodup_singleton i, by simpa using hi, .singleton i⟩

theorem IsPath.concat (hg : g.Sound) {path : List Nat} {node next : Nat}
    (h : g.IsPath (path ++ [node])) (harc : g.Arc node next) (hnew : next ∉ path ++ [node]) :
    g.IsPath (path ++ [node] ++ [next]) := by
  refine ⟨?_, ?_, ?_⟩
  · exact List.nodup_append.2 ⟨h.nodup, List.nodup_singleton next, by grind⟩
  · intro i hi
    rcases List.mem_append.1 hi with hi | hi
    · exact h.bounded i hi
    · rw [List.mem_singleton.1 hi]
      exact hg.bounded harc
  · rw [List.append_assoc]
    exact List.isChain_append_cons_cons.2 ⟨h.chain, harc, .singleton next⟩

/-- A path closes along an arc back to one of its positions. -/
theorem IsPath.close {path : List Nat} {node next : Nat}
    (h : g.IsPath (path ++ [node])) (harc : g.Arc node next) (hold : next ∈ path ++ [node]) :
    g.IsClosedChain ((path ++ [node]).dropWhile (· != next) ++ [next]) := by
  have hhead : ∃ rest, (path ++ [node]).dropWhile (· != next) = next :: rest := by
    have hne : (path ++ [node]).dropWhile (· != next) ≠ [] := by
      intro hnil
      simpa using List.dropWhile_eq_nil_iff.1 hnil next hold
    obtain ⟨x, rest, hx⟩ := List.exists_cons_of_ne_nil hne
    have hkeep := List.head_dropWhile_not (· != next) hne
    simp only [hx, List.head_cons, bne_eq_false_iff_eq] at hkeep
    exact ⟨rest, by rw [hx, hkeep]⟩
  obtain ⟨rest, hrest⟩ := hhead
  have hsuffix : next :: rest <:+ path ++ [node] := hrest ▸ List.dropWhile_suffix _
  refine ⟨next, rest, by rw [hrest], h.nodup.sublist hsuffix.sublist, ?_⟩
  rw [hrest]
  refine (h.chain.suffix hsuffix).append (.singleton next) ?_
  intro x hx y hy
  have hlast : (next :: rest).getLast? = some node := by
    obtain ⟨front, hfront⟩ := hsuffix
    have hl := congrArg List.getLast? hfront
    rwa [List.getLast?_append_of_ne_nil _ (List.cons_ne_nil next rest),
      List.getLast?_concat] at hl
  rw [hlast, Option.mem_some_iff] at hx
  rw [List.head?_singleton, Option.mem_some_iff] at hy
  exact hx ▸ hy ▸ harc

theorem IsClosedChain.not_acyclic {chain : List Nat} (h : g.IsClosedChain chain) :
    ¬g.Acyclic := by
  obtain ⟨first, rest, rfl, -, hchain⟩ := h
  intro hacyclic
  rw [List.cons_append] at hchain
  cases hrest : rest ++ [first] with
  | nil => simp at hrest
  | cons second more =>
    rw [hrest] at hchain
    have harc : g.Arc first second := hchain.rel
    have hlast : (second :: more).getLast (List.cons_ne_nil _ _) = first := by
      simp only [← hrest, List.getLast_concat]
    have hback : Relation.ReflTransGen g.Arc second first :=
      List.relationReflTransGen_of_exists_isChain_cons more hchain.tail hlast
    exact hacyclic first (.head' harc hback)

theorem not_rel_self_of_acc {r : Nat → Nat → Prop} {i : Nat} (h : Acc r i) : ¬r i i := by
  induction h with
  | intro i _ ih => exact fun hii => ih i hii hii

namespace Search

variable {s s' : Search} {node next : Nat}

/-- What is true of a search all the time: the stack is a path of exactly the positions that are
marked so, and from a position that is done every chain of arcs comes to an end. -/
structure Valid (g : Digraph) (s : Search) : Prop where
  length_marks : s.marks.length = g.size
  path : g.IsPath s.stack
  onStack : ∀ i, s.markOf i = .onStack ↔ i ∈ s.stack
  done : ∀ i, s.markOf i = .done → Acc (fun j i => g.Arc i j) i

/-- What a visit leaves as it was: the stack, and the positions that were done. -/
structure Keeps (s s' : Search) : Prop where
  stack : s'.stack = s.stack
  done : ∀ i, s.markOf i = .done → s'.markOf i = .done

theorem Keeps.refl (s : Search) : s.Keeps s :=
  ⟨rfl, fun _ h => h⟩

theorem Keeps.trans {s'' : Search} (h : s.Keeps s') (h' : s'.Keeps s'') : s.Keeps s'' :=
  ⟨h'.stack.trans h.stack, fun i hi => h'.done i (h.done i hi)⟩

theorem Keeps.done_concat (h : s.Keeps s') {front : List Nat}
    (hdone : ∀ i ∈ front, s.markOf i = .done) (hnext : s'.markOf next = .done) :
    ∀ i ∈ front ++ [next], s'.markOf i = .done := by
  rw [List.forall_mem_append, List.forall_mem_singleton]
  exact ⟨fun i hi => h.done i (hdone i hi), hnext⟩

theorem markOf_enter (h : s.Valid g) (hnode : node < g.size) (i : Nat) :
    (s.enter node).markOf i = if i = node then .onStack else s.markOf i :=
  getD_set (h.length_marks ▸ hnode) _ i _

theorem markOf_leave (h : s.Valid g) (hnode : node < g.size) (i : Nat) :
    (s.leave node).markOf i = if i = node then .done else s.markOf i :=
  getD_set (h.length_marks ▸ hnode) _ i _

theorem Valid.enter (h : s.Valid g) (hpath : g.IsPath (s.stack ++ [node])) :
    (s.enter node).Valid g := by
  have hnode : node < g.size := hpath.bounded node (by simp)
  refine ⟨(List.length_set ..).trans h.length_marks, hpath, fun i => ?_, fun i hi => ?_⟩
  · rw [markOf_enter h hnode]
    change _ ↔ i ∈ s.stack ++ [node]
    split
    · simp [*]
    · simp [*, h.onStack i]
  · rw [markOf_enter h hnode] at hi
    split at hi
    · cases hi
    · exact h.done i hi

/-- A position is done when all that it leads to is. -/
theorem Valid.leave (h : s.Valid g) {front : List Nat} (hstack : s.stack = front ++ [node])
    (hdone : ∀ j, g.Arc node j → s.markOf j = .done) : (s.leave node).Valid g := by
  have hpath : g.IsPath (front ++ [node]) := hstack ▸ h.path
  have hnode : node < g.size := hpath.bounded node (by simp)
  have hfront : (s.leave node).stack = front := by
    rw [Search.leave, hstack, List.dropLast_concat]
  have hnew : node ∉ front := by
    have := List.nodup_append.1 hpath.nodup
    grind
  refine ⟨(List.length_set ..).trans h.length_marks, ?_, fun i => ?_, fun i hi => ?_⟩
  · rw [hfront]
    exact ⟨hpath.nodup.sublist (List.sublist_append_left ..),
      fun i hi => hpath.bounded i (List.mem_append_left _ hi), hpath.chain.left_of_append⟩
  · rw [markOf_leave h hnode, hfront]
    split
    · rename_i hi
      simp [hi, hnew]
    · rename_i hi
      rw [h.onStack, hstack]
      simp [hi]
  · rw [markOf_leave h hnode] at hi
    split at hi
    · rename_i heq
      subst heq
      exact .intro i fun j harc => h.done j (hdone j harc)
    · exact h.done i hi

/-- Going on to a position and back from it leaves all else as it was. -/
theorem Keeps.leave (hs : s.Valid g) (hs' : s'.Valid g) (hnode : node < g.size)
    (h : (s.enter node).Keeps s') : s.Keeps (s'.leave node) := by
  have hstack : s'.stack = s.stack ++ [node] := h.stack
  refine ⟨?_, fun i hi => ?_⟩
  · rw [Search.leave, hstack, List.dropLast_concat]
  · rw [markOf_leave hs' hnode]
    split
    · rfl
    · rename_i hne
      refine h.done i ?_
      rw [markOf_enter hs hnode, if_neg hne, hi]

/-- The chain from a position on the stack starts at its place there. -/
theorem chainTo_eq (h : next ∈ s.stack) :
    s.chainTo next = s.stack.dropWhile (· != next) ++ [next] := by
  have hdrop : ∀ xs : List Nat, next ∈ xs →
      xs.drop ((xs.findIdx? (· == next)).getD 0) = xs.dropWhile (· != next) := by
    intro xs hmem
    induction xs with
    | nil => cases hmem
    | cons x xs ih =>
      by_cases hx : x = next
      · simp [List.findIdx?_cons, hx]
      · have hrest : next ∈ xs := by simpa [Ne.symm hx] using hmem
        obtain ⟨k, hk⟩ : ∃ k, xs.findIdx? (· == next) = some k := by
          rw [← Option.isSome_iff_exists, List.findIdx?_isSome]
          simpa using hrest
        have hrec := ih hrest
        rw [hk, Option.getD_some] at hrec
        simp [List.findIdx?_cons, hx, hk, hrec]
  rw [chainTo, hdrop s.stack h]

end Search

/-- A visit finds a closed chain, or it leaves the search as it was apart from positions that are
done now. -/
theorem visit_ensures (hg : g.Sound) {fuel node : Nat} {s : Search} (hs : s.Valid g)
    (hpath : g.IsPath (s.stack ++ [node])) (hfuel : g.size ≤ s.stack.length + fuel) :
    Ensures g.IsClosedChain (fun s' => s'.Valid g ∧ s.Keeps s' ∧ s'.markOf node = .done)
      (g.visit fuel s node) := by
  -- the stack grows with every call and repeats nothing, so the fuel lasts
  induction fuel generalizing s node with
  | zero =>
    have hlength := hpath.length_le
    rw [List.length_append, List.length_singleton] at hlength
    omega
  | succ fuel ih =>
    have hnode : node < g.size := hpath.bounded node (by simp)
    rw [visit, Ensures.map_iff]
    refine Ensures.imp ?_ (Ensures.foldlM (fun front s' => s'.Valid g ∧ (s.enter node).Keeps s' ∧
      ∀ j ∈ front, s'.markOf j = .done) ⟨hs.enter hpath, .refl _, by simp⟩ ?_)
    · rintro s' ⟨hvalid, hkeeps, hdone⟩
      refine ⟨hvalid.leave hkeeps.stack hdone, hkeeps.leave hs hvalid hnode, ?_⟩
      rw [Search.markOf_leave hvalid hnode, if_pos rfl]
    · rintro front next hitems s' ⟨hvalid, hkeeps, hdone⟩
      have harc : g.Arc node next := hitems.subset (by simp)
      have hstack : s'.stack = s.stack ++ [node] := hkeeps.stack
      have hpath' : g.IsPath (s.stack ++ [node]) := hstack ▸ hvalid.path
      split
      · rename_i hmark
        have hmem := (hvalid.onStack next).1 hmark
        rw [Ensures, Search.chainTo_eq hmem, hstack]
        exact hpath'.close harc (hstack ▸ hmem)
      · rename_i hmark
        have hnew : next ∉ s.stack ++ [node] := by
          rw [← hstack, ← hvalid.onStack, hmark]
          decide
        have hnext : g.IsPath (s'.stack ++ [next]) := hstack ▸ hpath'.concat hg harc hnew
        have hlength : g.size ≤ s'.stack.length + fuel := by
          rw [hstack, List.length_append, List.length_singleton]
          omega
        refine (ih hvalid hnext hlength).imp ?_
        rintro s'' ⟨hvalid', hkeeps', hmark'⟩
        exact ⟨hvalid', hkeeps.trans hkeeps', hkeeps'.done_concat hdone hmark'⟩
      · rename_i hmark
        exact ⟨hvalid, hkeeps, (Search.Keeps.refl s').done_concat hdone hmark⟩

theorem visitAll_ensures (hg : g.Sound) :
    Ensures g.IsClosedChain (fun s => s.Valid g ∧ ∀ i < g.size, s.markOf i = .done) g.visitAll := by
  have hmark : ∀ i, (Search.mk (List.replicate g.size .unvisited) []).markOf i = .unvisited :=
    fun i => getD_replicate g.size i _
  have hstart : (Search.mk (List.replicate g.size .unvisited) []).Valid g :=
    ⟨List.length_replicate, ⟨List.nodup_nil, by simp, .nil⟩, by simp [hmark], by simp [hmark]⟩
  refine Ensures.imp ?_ (Ensures.foldlM (fun front s => s.Valid g ∧ s.stack = [] ∧
    ∀ i ∈ front, s.markOf i = .done) ⟨hstart, rfl, by simp⟩ ?_)
  · rintro s ⟨hvalid, -, hdone⟩
    exact ⟨hvalid, fun i hi => hdone i (List.mem_range.2 hi)⟩
  · rintro front start hitems s ⟨hvalid, hstack, hdone⟩
    have hsize : start < g.size := List.mem_range.1 (hitems.subset (by simp))
    split
    · have hpath : g.IsPath (s.stack ++ [start]) := by
        rw [hstack]
        exact isPath_singleton hsize
      refine (visit_ensures hg hvalid hpath (Nat.le_add_left ..)).imp ?_
      rintro s' ⟨hvalid', hkeeps, hmark'⟩
      exact ⟨hvalid', hkeeps.stack.trans hstack, hkeeps.done_concat hdone hmark'⟩
    · -- nothing is on the stack between two visits
      rename_i hvisited
      refine ⟨hvalid, hstack, (Search.Keeps.refl s).done_concat hdone ?_⟩
      have hoff : s.markOf start ≠ .onStack := by
        rw [Ne, hvalid.onStack, hstack]
        exact List.not_mem_nil
      cases hmark : s.markOf start <;> simp_all

theorem isClosedChain_of_cycle? (hg : g.Sound) {chain : List Nat} (h : g.cycle? = some chain) :
    g.IsClosedChain chain := by
  have hvisited := visitAll_ensures hg
  unfold cycle? at h
  split at h
  · cases h
  · rename_i found hfound
    cases h
    rwa [hfound] at hvisited

theorem acyclic_of_visitAll (hg : g.Sound) {s : Search} (h : g.visitAll = .ok s) : g.Acyclic := by
  have hvisited := visitAll_ensures hg
  rw [h] at hvisited
  obtain ⟨hvalid, hdone⟩ := hvisited
  intro i hcycle
  have hi : i < g.size := by
    obtain ⟨j, harc, -⟩ := Relation.TransGen.head'_iff.1 hcycle
    exact harc.lt_size
  have hacc : Acc (Relation.TransGen fun j i => g.Arc i j) i :=
    (hvalid.done i (hdone i hi)).transGen
  exact not_rel_self_of_acc hacc (Relation.transGen_swap.2 hcycle)

theorem cycle?_eq_none_iff (hg : g.Sound) : g.cycle? = none ↔ g.Acyclic := by
  constructor
  · intro h
    unfold cycle? at h
    split at h
    · rename_i s hs
      exact acyclic_of_visitAll hg hs
    · cases h
  · intro hacyclic
    cases h : g.cycle? with
    | none => rfl
    | some chain => exact absurd hacyclic (isClosedChain_of_cycle? hg h).not_acyclic

end Digraph

end DocTopics

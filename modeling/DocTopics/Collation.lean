import DocTopics.Failure

/-!
# Collation order

Units are put into an order in which every unit stands behind the units it includes. Among all such
orders it is the one that keeps units as early as their source order allows. Units that include each
other in a circle have no order, and the circle is reported.

Units are numbered by their position in the input. A unit that is listed twice takes part with its
last position only.

## Main definitions

- `Digraph` — a finite graph on positions, with its successors and in-degrees
- `Digraph.cycle?` — a closed chain of arcs, found depth first
- `Digraph.order` — all positions, the least ready one first
- `collationOf` — the order of a list of units
-/

namespace DocTopics

/-- Puts a position into an ascending list. -/
def insertAscending (i : Nat) : List Nat → List Nat
  | [] => [i]
  | j :: js => if i ≤ j then i :: j :: js else j :: insertAscending i js

/-- The positions in ascending order. -/
def sortAscending (js : List Nat) : List Nat :=
  js.foldr insertAscending []

/-- A directed graph on the positions of two tables of one length. -/
structure Digraph where
  /-- For each position, the positions that an arc leads to. -/
  lists : List (List Nat)
  /-- For each position, the number of positions that an arc comes from. -/
  counts : List Nat

namespace Digraph

/-- The number of positions. -/
def size (g : Digraph) : Nat :=
  g.lists.length

/-- The positions that an arc leads to. -/
def successors (g : Digraph) (i : Nat) : List Nat :=
  g.lists.getD i []

/-- The number of positions that an arc comes from. -/
def inDegree (g : Digraph) (j : Nat) : Nat :=
  g.counts.getD j 0

/-! ### Arcs -/

/-- Positions without arcs. -/
def empty (size : Nat) : Digraph :=
  { lists := List.replicate size [], counts := List.replicate size 0 }

/-- Adds an arc, unless it is there. -/
def addArc (g : Digraph) (i j : Nat) : Digraph :=
  if (g.successors i).contains j then g
  else { lists := g.lists.modify i (· ++ [j]), counts := g.counts.modify j (· + 1) }

/-- The graph with all successors in ascending order. -/
def sorted (g : Digraph) : Digraph :=
  { g with lists := g.lists.map sortAscending }

/-! ### Cycles -/

/-- What is known of a position while cycles are looked for. -/
inductive Mark where
  | unvisited
  | onStack
  | done
deriving DecidableEq

/-- A search for cycles: the marks of all positions, and those on the way to the current one. -/
structure Search where
  marks : List Mark
  stack : List Nat := []

namespace Search

def markOf (s : Search) (i : Nat) : Mark :=
  s.marks.getD i .unvisited

/-- Goes on to a position. -/
def enter (s : Search) (node : Nat) : Search :=
  { marks := s.marks.set node .onStack, stack := s.stack ++ [node] }

/-- Goes back from a position. -/
def leave (s : Search) (node : Nat) : Search :=
  { marks := s.marks.set node .done, stack := s.stack.dropLast }

/-- The chain from a position on the stack back to it. -/
def chainTo (s : Search) (next : Nat) : List Nat :=
  s.stack.drop ((s.stack.findIdx? (· == next)).getD 0) ++ [next]

end Search

/-- Visits a position and all that it leads to. The result is a closed chain, or the search behind
the visit. A stack never repeats a position, so a `fuel` as large as the graph is enough. -/
def visit (g : Digraph) (fuel : Nat) (s : Search) (node : Nat) : Except (List Nat) Search :=
  match fuel with
  | 0 => .ok s
  | fuel + 1 =>
    let visited : Except (List Nat) Search := (g.successors node).foldlM (fun s next =>
      match s.markOf next with
      | .onStack => .error (s.chainTo next)
      | .unvisited => g.visit fuel s next
      | .done => .ok s) (s.enter node)
    visited.map (·.leave node)

/-- Visits every position that was not reached before. -/
def visitAll (g : Digraph) : Except (List Nat) Search :=
  (List.range g.size).foldlM (fun s start =>
    if s.markOf start = .unvisited then g.visit g.size s start else .ok s)
    { marks := List.replicate g.size .unvisited }

/-- The first closed chain of arcs, its first position repeated at the end. -/
def cycle? (g : Digraph) : Option (List Nat) :=
  match g.visitAll with
  | .ok _ => none
  | .error chain => some chain

/-! ### Order -/

/-- How far an order has come. -/
structure Progress where
  /-- For each position, the number of predecessors that are not placed yet. -/
  counters : List Int
  /-- The positions that wait for nothing, in ascending order. -/
  ready : List Nat
  placed : List Nat := []

namespace Progress

/-- The number of predecessors of a position that are not placed yet. -/
def waiting (p : Progress) (j : Nat) : Int :=
  p.counters.getD j 0

/-- One predecessor of a position is placed. -/
def release (p : Progress) (j : Nat) : Progress :=
  let counters := p.counters.modify j (· - 1)
  { p with
    counters := counters
    ready := if counters.getD j 0 = 0 then insertAscending j p.ready else p.ready }

end Progress

/-- The start: nothing is placed. -/
def start (g : Digraph) : Progress :=
  { counters := g.counts.map Int.ofNat
    ready := (List.range g.size).filter fun j => g.inDegree j == 0 }

/-- Places the least ready position. -/
def place (g : Digraph) (p : Progress) : Progress :=
  match p.ready with
  | [] => p
  | next :: rest =>
    (g.successors next).foldl Progress.release { p with ready := rest, placed := p.placed ++ [next] }

/-- Places up to `steps` positions. -/
def placeMany (g : Digraph) : (steps : Nat) → Progress → Progress
  | 0, p => p
  | steps + 1, p => g.placeMany steps (g.place p)

/-- The positions in an order that respects every arc, the least ready position always first. -/
def order (g : Digraph) : List Nat :=
  (g.placeMany g.size g.start).placed

end Digraph

/-- The unit `before` has to stand in front of the unit `after`. -/
structure Edge where
  before : String
  after : String
deriving DecidableEq

/-- The last position of a unit. -/
def positionOf (units : List String) (unit : String) : Option Nat :=
  match units with
  | [] => none
  | u :: rest =>
    match positionOf rest unit with
    | some i => some (i + 1)
    | none => if u = unit then some 0 else none

/-- The graph with an edge added, if both of its units are known. -/
def addEdge (units : List String) (g : Digraph) (e : Edge) : Digraph :=
  match positionOf units e.before, positionOf units e.after with
  | some i, some j => g.addArc i j
  | _, _ => g

/-- The graph of the edges between known units. -/
def inclusionGraph (units : List String) (edges : List Edge) : Digraph :=
  (edges.foldl (addEdge units) (.empty units.length)).sorted

/-- The units at the given positions. -/
def unitsAt (units : List String) (positions : List Nat) : List String :=
  positions.filterMap (units[·]?)

/-- The units in collation order. -/
def collationOf (units : List String) (edges : List Edge) : Except Failure (List String) :=
  let g := inclusionGraph units edges
  match g.cycle? with
  | some chain => .error (.cycle (unitsAt units chain))
  | none => .ok (unitsAt units g.order)

end DocTopics

import ChainGrammar.Fault
import ChainGrammar.SortedSet

/-!
# Directed graphs

A graph on the nodes below its size. Each edge is kept twice, with the node it
leaves and with the node it enters; the two tables are inverse to each other in
every graph.

* `Graph.ofEdges`: the graph of a list of edges, which fails at the first end of
  an edge that is no node.
* `Graph.edges`: the edges in increasing order.
* `Graph.Adj`: the edge relation; `Graph.Adj.lt` says that it holds of nodes only,
  `Graph.adj_addEdge` what an edge adds to it.
* `Graph.ext_adj`: graphs of one size with the same edges are equal.
-/

namespace ChainGrammar

/-- For every node a set of nodes. -/
abbrev Neighbours := Array (SortedSet Nat)

namespace Neighbours

/-- The neighbours of `x`, none beyond the end of the table. -/
def of (t : Neighbours) (x : Nat) : SortedSet Nat := t[x]?.getD .empty

/-- The table with `y` among the neighbours of `x`. -/
def add (t : Neighbours) (x y : Nat) : Neighbours := t.modify x (·.insert y)

@[simp] theorem size_add (t : Neighbours) (x y : Nat) : (t.add x y).size = t.size := by
  simp [add]

theorem lt_of_mem_of {t : Neighbours} {x y : Nat} (h : y ∈ t.of x) : x < t.size := by
  refine Nat.lt_of_not_le fun hx => ?_
  simp [of, Array.getElem?_eq_none hx] at h

theorem mem_of_add {t : Neighbours} {x y v w : Nat} (hx : x < t.size) :
    w ∈ (t.add x y).of v ↔ w ∈ t.of v ∨ v = x ∧ w = y := by
  unfold of add
  rw [Array.getElem?_modify]
  by_cases hv : x = v
  · subst hv
    simp [Array.getElem?_eq_getElem hx, SortedSet.mem_insert, or_comm]
  · simp [hv, Ne.symm hv]

theorem ext_of {t u : Neighbours} (hs : t.size = u.size)
    (h : ∀ x y, y ∈ t.of x ↔ y ∈ u.of x) : t = u := by
  refine Array.ext hs fun i hi hj => ?_
  have hr : ∀ y, y ∈ t.of i ↔ y ∈ u.of i := h i
  simp only [of, Array.getElem?_eq_getElem hi, Array.getElem?_eq_getElem hj,
    Option.getD_some] at hr
  exact SortedSet.ext_mem hr

end Neighbours

/-- A directed graph, with the successors and the predecessors of every node. -/
structure Graph where
  successors : Neighbours
  predecessors : Neighbours
  sizes_eq : predecessors.size = successors.size
  inverse : ∀ x y, y ∈ successors.of x ↔ x ∈ predecessors.of y
deriving DecidableEq

namespace Graph

/-- The number of nodes. -/
def size (g : Graph) : Nat := g.successors.size

/-- The nodes in increasing order. -/
def nodes (g : Graph) : List Nat := List.range g.size

/-- The nodes that an edge from `x` enters. -/
def next (g : Graph) (x : Nat) : SortedSet Nat := g.successors.of x

/-- The nodes that an edge into `y` leaves. -/
def prev (g : Graph) (y : Nat) : SortedSet Nat := g.predecessors.of y

/-- There is an edge from `x` to `y`. -/
def Adj (g : Graph) (x y : Nat) : Prop := y ∈ g.next x

theorem adj_iff_mem_next {g : Graph} {x y : Nat} : g.Adj x y ↔ y ∈ g.next x := Iff.rfl

theorem adj_iff_mem_prev {g : Graph} {x y : Nat} : g.Adj x y ↔ x ∈ g.prev y := g.inverse x y

/-- Both ends of an edge are nodes. -/
theorem Adj.lt {g : Graph} {x y : Nat} (h : g.Adj x y) : x < g.size ∧ y < g.size := by
  refine ⟨Neighbours.lt_of_mem_of h, ?_⟩
  have := Neighbours.lt_of_mem_of (adj_iff_mem_prev.1 h)
  rwa [g.sizes_eq] at this

/-- The successors of a node, a fault if it is none. -/
def successorsOf (g : Graph) (x : Nat) : Except Fault (SortedSet Nat) := entry g.successors x

/-- The predecessors of a node, a fault if it is none. -/
def predecessorsOf (g : Graph) (x : Nat) : Except Fault (SortedSet Nat) := entry g.predecessors x

/-- The edges, by the node they leave and then by the node they enter. -/
def edges (g : Graph) : List (Nat × Nat) :=
  g.nodes.flatMap fun x => (g.next x).toList.map fun y => (x, y)

/-- The number of edges. -/
def edgeCount (g : Graph) : Nat := g.nodes.foldr (fun x n => (g.next x).size + n) 0

/-! ## Building a graph -/

/-- The graph of the given size without edges. -/
def edgeless (n : Nat) : Graph where
  successors := Array.replicate n .empty
  predecessors := Array.replicate n .empty
  sizes_eq := rfl
  inverse x y := by
    constructor <;> intro h
    all_goals
      have := Neighbours.lt_of_mem_of h
      simp_all [Neighbours.of, Array.getElem?_replicate]

/-- The graph with the edge from `x` to `y` added. -/
def addEdge (g : Graph) (x y : Nat) (hx : x < g.size) (hy : y < g.size) : Graph where
  successors := g.successors.add x y
  predecessors := g.predecessors.add y x
  sizes_eq := by simp [g.sizes_eq]
  inverse v w := by
    rw [Neighbours.mem_of_add hx, Neighbours.mem_of_add (g.sizes_eq ▸ hy), g.inverse v w, and_comm]

@[simp] theorem size_edgeless (n : Nat) : (edgeless n).size = n := by simp [edgeless, size]

@[simp] theorem not_adj_edgeless {n x y : Nat} : ¬(edgeless n).Adj x y := by
  intro h
  have := Neighbours.lt_of_mem_of h
  simp_all [Adj, next, edgeless, Neighbours.of]

theorem size_addEdge {g : Graph} {x y : Nat} (hx : x < g.size) (hy : y < g.size) :
    (g.addEdge x y hx hy).size = g.size := Neighbours.size_add ..

/-- **An added edge** is the only one that comes with it. -/
theorem adj_addEdge {g : Graph} {x y v w : Nat} (hx : x < g.size) (hy : y < g.size) :
    (g.addEdge x y hx hy).Adj v w ↔ g.Adj v w ∨ v = x ∧ w = y :=
  Neighbours.mem_of_add hx

/-- The graph with an edge added, a fault if an end of it is no node. -/
def addEdge? (g : Graph) (e : Nat × Nat) : Except Fault Graph :=
  if hx : e.1 < g.size then
    if hy : e.2 < g.size then .ok (g.addEdge e.1 e.2 hx hy)
    else .error (.outOfBounds g.size e.2)
  else .error (.outOfBounds g.size e.1)

/-- The graph on `n` nodes with the given edges. -/
def ofEdges (n : Nat) (es : List (Nat × Nat)) : Except Fault Graph :=
  es.foldlM addEdge? (edgeless n)

/-- **The edge relation is all there is to a graph** of a given size. -/
theorem ext_adj {g h : Graph} (hs : g.size = h.size) (ha : ∀ x y, g.Adj x y ↔ h.Adj x y) :
    g = h := by
  have h1 : g.successors = h.successors := Neighbours.ext_of hs ha
  have h2 : g.predecessors = h.predecessors := by
    refine Neighbours.ext_of (by rw [g.sizes_eq, h.sizes_eq, h1]) fun y x => ?_
    rw [← g.inverse, ← h.inverse]
    exact ha x y
  cases g; cases h; simp_all

end Graph

end ChainGrammar

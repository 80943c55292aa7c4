import ChainGrammar.Graph.Basic
import ChainGrammar.Partition

/-!
# Quotient graphs

* `Graph.quotient`: the graph with the blocks of a partition as its nodes, and an
  edge between two different blocks where there is one between members of them.
  Edges within a block are dropped.
-/

namespace ChainGrammar.Graph

/-- The edge between the blocks of the ends of an edge, none if they are the same. -/
def blockEdge? (number : Nat → Nat) (e : Nat × Nat) : Option (Nat × Nat) :=
  if number e.1 = number e.2 then none else some (number e.1, number e.2)

/-- The graph of the blocks of a partition of the nodes. -/
def quotient (g : Graph) (p : Partition) : Except Fault Graph :=
  if p.size = g.size then
    let table := p.table
    ofEdges p.count (g.edges.filterMap (blockEdge? table.number))
  else .error (.notCovering p.size g.size)

end ChainGrammar.Graph

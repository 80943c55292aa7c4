import ChainGrammar.Graph.Basic

/-!
# The text of a graph

* `Graph.describe`: the numbers of nodes and edges, and a line for every edge.
-/

namespace ChainGrammar.Graph

/-- The line of an edge. -/
def edgeLine (e : Nat × Nat) : String := e.1.repr ++ " --> " ++ e.2.repr ++ "\n"

/-- The numbers of nodes and edges, and the edges in increasing order. -/
def describe (g : Graph) : String :=
  "Number of nodes: " ++ g.size.repr ++ "\nNumber of edges: " ++ g.edgeCount.repr ++ "\n" ++
    String.join (g.edges.map edgeLine)

end ChainGrammar.Graph

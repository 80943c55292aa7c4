import ChainGrammar.Automaton.Basic
import ChainGrammar.Graph.Basic

/-!
# The graph of an automaton

* `Automaton.graph`: the graph of the states with symbols. Its nodes are numbered
  from 0 in the order in which the symbols were met; the anchors and their edges
  are left out.
-/

namespace ChainGrammar.Automaton

variable {α : Type}

/-- The node of a state with a symbol, none for an anchor. -/
def nodeOf? (a : Automaton α) (i : Nat) : Option Nat :=
  if i < anchorCount ∨ a.states.size ≤ i then none else some (i - anchorCount)

/-- The edge between the nodes of two states, none if one is an anchor. -/
def nodeEdge? (a : Automaton α) (e : Nat × Nat) : Option (Nat × Nat) := do
  return (← a.nodeOf? e.1, ← a.nodeOf? e.2)

/-- The graph of the states with symbols. -/
def graph (a : Automaton α) : Except Fault Graph :=
  Graph.ofEdges a.stateCount (a.edges.filterMap a.nodeEdge?)

end ChainGrammar.Automaton

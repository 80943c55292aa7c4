import ChainGrammar.Graph.Listing
import ChainGrammar.Order
import ChainGrammar.Permutation
import Std.Data.TreeSet.Basic

/-!
# Topological order

The nodes in an order that goes along all edges. Among the nodes whose
predecessors have been placed the one with the least priority comes next, and of
those with equal priorities the least node, so that the order is determined by the
graph and the priorities.

* `Graph.topologicalOrder`: the order, or a node that cannot be placed.
* `Graph.isTopologicalOrder`: whether an order of the nodes goes along all edges.
* `Placing`, `Placing.run`: the nodes placed so far, and placing the others.
-/

namespace ChainGrammar

/-- The nodes placed so far, for every node the number of predecessors still to be placed, and the
nodes that wait for none. -/
structure Placing (κ : Type) [Ord κ] where
  order : Array Nat
  waiting : Array Nat
  ready : Std.TreeSet (Keyed κ)

namespace Placing

variable {κ : Type} [Ord κ]

/-- No node is placed, and those without predecessors are ready. -/
def begin (g : Graph) (priority : Nat → κ) : Placing κ where
  order := #[]
  waiting := (g.nodes.map fun x => (g.prev x).size).toArray
  ready := (g.nodes.filter fun x => (g.prev x).isEmpty).foldl
    (fun s x => s.insert ⟨priority x, x⟩) ∅

/-- A predecessor of `y` has been placed. -/
def release (priority : Nat → κ) (s : Placing κ) (y : Nat) : Except Fault (Placing κ) := do
  match ← entry s.waiting y with
  | 0 => throw .underflow
  | k + 1 => return { s with
      waiting := s.waiting.setIfInBounds y k
      ready := if k = 0 then s.ready.insert ⟨priority y, y⟩ else s.ready }

/-- Places the next node, if one is ready. -/
def step (g : Graph) (priority : Nat → κ) (s : Placing κ) : Except Fault (Placing κ) :=
  match s.ready.min? with
  | none => return s
  | some k =>
    (g.next k.node).toList.foldlM (release priority)
      { s with order := s.order.push k.node, ready := s.ready.erase k }

/-- Places up to the given number of nodes. -/
def run (g : Graph) (priority : Nat → κ) : Nat → Placing κ → Except Fault (Placing κ)
  | 0, s => return s
  | n + 1, s => do run g priority n (← step g priority s)

/-- The first node that waits for a predecessor. -/
def blocked? (g : Graph) (s : Placing κ) : Option Nat :=
  g.nodes.find? fun x => s.waiting[x]?.getD 0 ≠ 0

end Placing

namespace Graph

/-- Where each node stands in an order: a place beyond the order for a node that is not in it, and
the last of its places for one that is there more than once. -/
def places (g : Graph) (order : List Nat) : Except Fault (Array Nat) := do
  match order.find? fun x => g.size ≤ x with
  | some x => throw (.outOfBounds g.size x)
  | none =>
    return order.zipIdx.foldl (fun t e => t.setIfInBounds e.1 e.2) (Array.replicate g.size g.size)

/-- Whether every node is in the order once, before all its successors. -/
def isTopologicalOrder (g : Graph) (order : List Nat) : Except Fault Bool := do
  if order.length ≠ g.size then return false
  let place ← g.places order
  let placeOf (x : Nat) := place[x]?.getD g.size
  return isPermutation placeOf g.size && g.edges.all fun e => placeOf e.1 < placeOf e.2

variable {κ : Type} [Ord κ]

/-- The nodes in topological order, least priorities first, a fault if there is a cycle. -/
def topologicalOrder (g : Graph) (priority : Nat → κ) : Except Fault (List Nat) := do
  let s ← (Placing.begin g priority).run g priority g.size
  match s.blocked? g with
  | some x => throw (.cycle x)
  | none =>
    let order := s.order.toList
    if ← g.isTopologicalOrder order then return order else throw (.notSorted order g.describe)

end Graph

end ChainGrammar

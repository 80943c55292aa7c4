import ChainGrammar.Graph.Basic
import ChainGrammar.Partition

/-!
# Strongly connected components

One depth first search finds the components. The index of a node is the number of nodes met before
it. Its low link is the least index that is known to be reached from it through nodes without a
component. Such nodes are on a stack. A node whose low link is its index when all edges out of it
have been followed closes a component, which consists of the nodes on the stack down to it.

* `Graph.components`: the partition of the nodes into components, numbered by their least nodes.
* `LowLinks`, `LowLinks.step`: the state of the search and its steps.
* `LowLinks.follow`, `LowLinks.finish`: an edge is followed, or a node has no edges left.
* `LowLinks.begin`, `LowLinks.run`: the first state, and the steps from there on.
-/

namespace ChainGrammar

/-- What the search knows of a node. -/
inductive Standing where
  /-- The node has not been met. -/
  | unseen
  /-- The node has been met and is on the stack. -/
  | onStack
  /-- The node belongs to the component of that number. -/
  | closed (component : Nat)
deriving DecidableEq

/-- The component of a node, 0 while it has none. -/
def Standing.component : Standing → Nat
  | .closed c => c
  | _ => 0

/-- The state of the search: the nodes that may still start a path, the path with its last node
first, each with the position of the next edge out of it, the nodes on the stack, the standing,
the index and the low link of every node, and the numbers of nodes met and of components found. -/
structure LowLinks where
  roots : List Nat
  path : List (Nat × Nat)
  stack : List Nat
  standing : Array Standing
  index : Array Nat
  low : Array Nat
  met : Nat
  found : Nat

namespace LowLinks

/-- The search before its first step. -/
def begin (g : Graph) : LowLinks where
  roots := g.nodes
  path := []
  stack := []
  standing := Array.replicate g.size .unseen
  index := Array.replicate g.size 0
  low := Array.replicate g.size 0
  met := 0
  found := 0

/-- Meets the node `x`: its index is the next one, and its low link is its index. -/
def meet (s : LowLinks) (x : Nat) : LowLinks :=
  { s with
    stack := x :: s.stack
    standing := s.standing.setIfInBounds x .onStack
    index := s.index.setIfInBounds x s.met
    low := s.low.setIfInBounds x s.met
    met := s.met + 1 }

/-- Meets the last node of the path, if it is at the first edge out of it. The position of a node
that has been met is never the first one again when the node is the last of the path. -/
def arrive (s : LowLinks) : LowLinks :=
  match s.path with
  | (x, 0) :: _ => s.meet x
  | _ => s

/-- Lowers the low link of `x` to `k`. -/
def lower (s : LowLinks) (x k : Nat) : Except Fault LowLinks := do
  return { s with low := s.low.setIfInBounds x (min (← entry s.low x) k) }

/-- Follows an edge from `x` to `y`. -/
def follow (s : LowLinks) (x y : Nat) : Except Fault LowLinks := do
  match ← entry s.standing y with
  | .unseen => return { s with path := (y, 0) :: s.path }
  | .onStack => s.lower x (← entry s.index y)
  | .closed _ => return s

/-- Takes nodes from the stack into component `c`, down to the node `x`. -/
def closeTo (c x : Nat) : List Nat → Array Standing → List Nat × Array Standing
  | [], standing => ([], standing)
  | y :: stack, standing =>
    let standing := standing.setIfInBounds y (.closed c)
    if y = x then (stack, standing) else closeTo c x stack standing

/-- Closes the component of `x`. -/
def close (s : LowLinks) (x : Nat) : LowLinks :=
  let (stack, standing) := closeTo s.found x s.stack s.standing
  { s with stack, standing, found := s.found + 1 }

/-- No edge out of `x` is left, and `x` is off the path: its component is closed if its low link is
its index. The low link of the node before it on the path is lowered in either case. -/
def finish (s : LowLinks) (x : Nat) : Except Fault LowLinks := do
  let low ← entry s.low x
  let index ← entry s.index x
  let s := if low = index then s.close x else s
  match s.path with
  | [] => return s
  | (y, _) :: _ => s.lower y low

/-- Tries a root, follows the next edge out of the last node of the path or finishes that node. -/
def advance (g : Graph) (s : LowLinks) : Except Fault LowLinks :=
  match s.path with
  | [] => match s.roots with
    | [] => return s
    | x :: roots => do
      match ← entry s.standing x with
      | .unseen => return { s with roots, path := [(x, 0)] }
      | _ => return { s with roots }
  | (x, k) :: path => do
    match (← g.successorsOf x).toList[k]? with
    | some y => follow { s with path := (x, k + 1) :: path } x y
    | none => finish { s with path } x

/-- One step of the search. -/
def step (g : Graph) (s : LowLinks) : Except Fault LowLinks := s.arrive.advance g

/-- The given number of steps. -/
def run (g : Graph) : Nat → LowLinks → Except Fault LowLinks
  | 0, s => return s
  | n + 1, s => do run g n (← step g s)

end LowLinks

namespace Graph

/-- Every node is tried once, entered once and closed at most once, and every edge is followed
once. -/
def searchSteps (g : Graph) : Nat := 2 * g.size + g.edgeCount

/-- The partition of the nodes into strongly connected components, in the order of their least
nodes. -/
def components (g : Graph) : Except Fault Partition := do
  let s ← (LowLinks.begin g).run g g.searchSteps
  let found ← Partition.ofNumbers (s.standing.toList.map Standing.component)
  found.normalise

end Graph

end ChainGrammar

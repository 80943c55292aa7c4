import ChainGrammar.Graph.Components

/-!
# The search by knots

The depth first search for components with a path of knots in place of low links: sets of nodes that
are known to reach each other, each with the edges out of it that are still to be followed. An edge
back into the path ties all knots from there on into one; an edge to a new node starts a knot of its
own; a knot without edges left is a component.

* `Search`, `Search.step`: the state of the search and its steps.
* `Search.begin`, `Search.run`: the first state, and the steps from there on.
-/

namespace ChainGrammar

/-- A set of nodes on the search path that reach each other, with the ends of the edges out of
them that are still to be followed. -/
structure Knot where
  members : List Nat
  pending : List Nat

/-- The state of the search: the nodes that may still start a path, the path with its last knot
first, the standing of every node and the number of components found. -/
structure Search where
  roots : List Nat
  path : List Knot
  standing : Array Standing
  found : Nat

namespace Search

/-- The search before its first step. -/
def begin (g : Graph) : Search := ⟨g.nodes, [], Array.replicate g.size .unseen, 0⟩

/-- Puts the new node `x` on the path, with the given knots below it. -/
def enter (g : Graph) (s : Search) (x : Nat) (below : List Knot) : Search :=
  { s with
    path := ⟨[x], (g.next x).toList⟩ :: below
    standing := s.standing.setIfInBounds x .onStack }

/-- Ties the last knot of the path with the ones below it down to the one with `x`. -/
def tie (x : Nat) : Knot → List Knot → List Knot
  | k, [] => [k]
  | k, l :: path =>
    if x ∈ k.members then k :: l :: path
    else tie x ⟨k.members ++ l.members, k.pending ++ l.pending⟩ path

/-- Gives the nodes the standing of members of component `c`. -/
def close (c : Nat) (members : List Nat) (standing : Array Standing) : Array Standing :=
  members.foldl (fun t x => t.setIfInBounds x (.closed c)) standing

/-- One step of the search: a root is tried, an edge out of the last knot is followed, or the last
knot is closed. -/
def step (g : Graph) (s : Search) : Search :=
  match s.path with
  | [] => match s.roots with
    | [] => s
    | x :: roots =>
      if s.standing[x]? = some .unseen then enter g { s with roots } x [] else { s with roots }
  | ⟨members, []⟩ :: below =>
    { s with path := below, standing := close s.found members s.standing, found := s.found + 1 }
  | ⟨members, y :: pending⟩ :: below =>
    match s.standing[y]? with
    | some .unseen => enter g s y (⟨members, pending⟩ :: below)
    | some .onStack => { s with path := tie y ⟨members, pending⟩ below }
    | _ => { s with path := ⟨members, pending⟩ :: below }

/-- The given number of steps. -/
def run (g : Graph) : Nat → Search → Search
  | 0, s => s
  | n + 1, s => run g n (step g s)

end Search

end ChainGrammar

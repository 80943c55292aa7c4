import ChainGrammar.Graph.Basic

/-!
# Reachability

Which nodes a node reaches along one edge or more. A breadth first search from
every node finds them. The nodes to be visited wait in a queue, where a node may
stand more than once; its first visit marks it, the others are passed over. The
search starts with the successors of its node, which has no mark at first, so
that a node reaches itself only if it lies on a cycle. One queue serves all the
searches.

* `Graph.reachability`: the table, one row for every node.
* `Reachability.reaches`, `Reachability.incomparable`: the look-ups in it.
* `Spread`, `Spread.step`: the state of the search from one node, and its steps.
* `Spread.begin`, `Spread.run`: the first state, and the steps from there on.
* `Graph.rows`: the searches from some nodes, one after the other.
* `Spread.waiting`: the nodes in a queue.
-/

namespace ChainGrammar

/-- The number of nodes, and for every node the row of marks of those that it reaches, which is
left empty if there are none. -/
structure Reachability where
  size : Nat
  rows : Array (Array Bool)

namespace Reachability

/-- Whether there is a path of at least one edge from `x` to `y`. -/
def reaches (r : Reachability) (x y : Nat) : Except Fault Bool := do
  let marks ← entry r.rows x
  if y < r.size then return marks[y]?.getD false else throw (.bitOutOfBounds r.size y)

/-- Whether neither of two nodes reaches the other. -/
def incomparable (r : Reachability) (x y : Nat) : Except Fault Bool := do
  if ← r.reaches x y then return false
  return !(← r.reaches y x)

end Reachability

/-- The state of the search from one node: the marks of the nodes that have been visited, and the
nodes that wait for a visit. -/
structure Spread where
  marks : Array Bool
  queue : Std.Queue Nat

namespace Spread

/-- The queue with some more nodes at its end. -/
def join (queue : Std.Queue Nat) (xs : List Nat) : Std.Queue Nat := queue.enqueueAll xs.reverse

/-- The search from `x` before its first step: the successors of `x` wait, and no node is marked.
There are no marks at all if no node waits. -/
def begin (g : Graph) (x : Nat) (queue : Std.Queue Nat) : Spread :=
  let queue := join queue (g.next x).toList
  ⟨if queue.isEmpty then #[] else Array.replicate g.size false, queue⟩

/-- Visits the next node of the queue: if it has no mark, it gets one, and those of its successors
that have none join the queue. -/
def step (g : Graph) (s : Spread) : Spread :=
  match s.queue.dequeue? with
  | none => s
  | some (x, queue) =>
    if s.marks[x]? = some false then
      let marks := s.marks.setIfInBounds x true
      ⟨marks, join queue ((g.next x).toList.filter fun y => marks[y]? = some false)⟩
    else ⟨s.marks, queue⟩

/-- Up to the given number of steps. -/
def run (g : Graph) : Nat → Spread → Spread
  | 0, s => s
  | n + 1, s => if s.queue.isEmpty then s else run g n (step g s)

end Spread

namespace Graph

/-- The search from `x` to its end, in a graph with the given number of edges. The successors of `x`
are visited, and for every node that is marked its successors at most once more. -/
def spread (g : Graph) (edges x : Nat) (queue : Std.Queue Nat) : Spread :=
  (Spread.begin g x queue).run g ((g.next x).size + edges)

/-- The rows of some nodes, one after the other, and the queue that is left. -/
def rows (g : Graph) (edges : Nat) :
    List Nat → Std.Queue Nat → List (Array Bool) × Std.Queue Nat
  | [], queue => ([], queue)
  | x :: xs, queue =>
    let s := g.spread edges x queue
    let (rows, queue) := rows g edges xs s.queue
    (s.marks :: rows, queue)

/-- The table of the nodes that each node reaches. -/
def reachability (g : Graph) : Reachability :=
  ⟨g.size, (g.rows g.edgeCount g.nodes .empty).1.toArray⟩

end Graph

/-! ## The nodes in a queue -/

namespace Spread

variable {queue rest : Std.Queue Nat} {xs : List Nat} {x : Nat}

/-- The nodes in a queue, the next one first. -/
def waiting (queue : Std.Queue Nat) : List Nat := queue.dList ++ queue.eList.reverse

@[simp] theorem waiting_empty : waiting .empty = [] := rfl

@[simp] theorem waiting_join : waiting (join queue xs) = waiting queue ++ xs := by
  simp [waiting, join, Std.Queue.enqueueAll]

theorem isEmpty_iff : queue.isEmpty = true ↔ waiting queue = [] := by
  simp [Std.Queue.isEmpty, waiting]

theorem eq_empty_of_waiting (h : waiting queue = []) : queue = .empty := by
  obtain ⟨es, ds⟩ := queue
  obtain ⟨rfl, hes⟩ : ds = [] ∧ es.reverse = [] := List.append_eq_nil_iff.1 h
  obtain rfl : es = [] := List.reverse_eq_nil_iff.1 hes
  rfl

/-- Taking a node from a queue. -/
theorem dequeue?_of_waiting (h : waiting queue = x :: xs) :
    ∃ rest, queue.dequeue? = some (x, rest) ∧ waiting rest = xs := by
  obtain ⟨es, ds⟩ := queue
  cases ds with
  | cons d ds =>
    obtain ⟨rfl, rfl⟩ : d = x ∧ ds ++ es.reverse = xs := List.cons.inj h
    exact ⟨⟨es, ds⟩, rfl, rfl⟩
  | nil =>
    have hes : es.reverse = x :: xs := h
    refine ⟨⟨[], xs⟩, ?_, by simp [waiting]⟩
    simp [Std.Queue.dequeue?, hes]

end Spread

end ChainGrammar

import ChainGrammar.Fault
import ChainGrammar.SortedSet

/-!
# Single occurrence automata

The automaton of a list of sample sequences has one state for every symbol that
occurs in them, and an edge between two states where one symbol comes right after
the other. Two anchors stand for the start and the end of a sequence. The states
are numbered from the anchors on in the order in which their symbols were met. An
index of the symbols is kept beside the table of the states.

* `Automaton.learn`: adds a sequence to the automaton.
* `Automaton.ofSequences`: the automaton of some sequences.
* `Automaton.stateOf?`, `Automaton.symbolAt`, `Automaton.edges`: what it holds.
-/

namespace ChainGrammar

/-- A state, with the states before and after it and the number of times its symbol occurred.
An anchor has no symbol. -/
structure State (α : Type) where
  symbol : Option α
  predecessors : SortedSet Nat
  successors : SortedSet Nat
  occurrences : Nat

/-- A state without edges whose symbol has not been counted. -/
def State.fresh {α : Type} (symbol : Option α) : State α := ⟨symbol, .empty, .empty, 0⟩

/-- The states, the index of the symbols, and the numbers of edges and of sequences learned. The
index gives the state of every symbol that was met; a later entry of a symbol stands before its
earlier ones. -/
structure Automaton (α : Type) where
  states : Array (State α)
  index : List (α × Nat)
  edgeCount : Nat
  sequenceCount : Nat

namespace Automaton

variable {α : Type}

/-- The anchor before the first symbol of every sequence. -/
def start : Nat := 0

/-- The anchor after the last symbol of every sequence. -/
def finish : Nat := 1

/-- The number of anchors, which is the first state with a symbol. -/
def anchorCount : Nat := 2

/-- The automaton of no sequences. -/
def empty : Automaton α := ⟨#[.fresh none, .fresh none], [], 0, 0⟩

/-! ## Learning -/

/-- The state of a symbol, none if it has not occurred. -/
def stateOf? [DecidableEq α] (a : Automaton α) (s : α) : Option Nat := a.index.lookup s

/-- The automaton with a further state, which the index gives for the symbol. -/
def extend (a : Automaton α) (s : α) : Automaton α :=
  { a with
    states := a.states.push (.fresh (some s))
    index := (s, a.states.size) :: a.index }

/-- The automaton with a state for the symbol, and that state. -/
def intern [DecidableEq α] (a : Automaton α) (s : α) : Automaton α × Nat :=
  match a.stateOf? s with
  | some i => (a, i)
  | none => (a.extend s, a.states.size)

/-- Counts an occurrence of the symbol of a state, which is one of the table. -/
def count (a : Automaton α) (i : Nat) : Automaton α :=
  { a with states := a.states.modify i fun q => { q with occurrences := q.occurrences + 1 } }

/-- The states after `i`, none beyond the last state. -/
def next (a : Automaton α) (i : Nat) : SortedSet Nat :=
  match a.states[i]? with
  | some q => q.successors
  | none => .empty

/-- The states before `i`, none beyond the last state. -/
def prev (a : Automaton α) (i : Nat) : SortedSet Nat :=
  match a.states[i]? with
  | some q => q.predecessors
  | none => .empty

/-- The automaton with an edge from `i` to `j`, which are states of the table. -/
def connect (a : Automaton α) (i j : Nat) : Automaton α :=
  match (a.next i).insert? j with
  | none => a
  | some after =>
    let leaving := a.states.modify i fun q => { q with successors := after }
    { a with
      states := leaving.modify j fun q => { q with predecessors := q.predecessors.insert i }
      edgeCount := a.edgeCount + 1 }

/-- Goes from the state of the symbol before to that of `s`, counting an occurrence of it. -/
def advance [DecidableEq α] (p : Automaton α × Nat) (s : α) : Automaton α × Nat :=
  let (a, i) := p.1.intern s
  ((a.count i).connect p.2 i, i)

/-- The automaton with a further sequence learned. A sequence that does not get away from the start
is not counted. -/
def learn [DecidableEq α] (a : Automaton α) (w : List α) : Automaton α :=
  let (b, last) := w.foldl advance (a, start)
  if last = start then b
  else { b.connect last finish with sequenceCount := b.sequenceCount + 1 }

/-- The automaton of some sequences, learned in order. -/
def ofSequences [DecidableEq α] (ws : List (List α)) : Automaton α := ws.foldl learn empty

/-! ## Looking up -/

/-- The number of states with a symbol. -/
def stateCount (a : Automaton α) : Nat := a.states.size - anchorCount

/-- The states with a symbol, in the order in which their symbols were met. -/
def learned (a : Automaton α) : List Nat := List.range' anchorCount a.stateCount

/-- Whether the state is an anchor. -/
def isAnchor (i : Nat) : Bool := i < anchorCount

/-- The symbol of a state, none for an anchor. -/
def symbolAt (a : Automaton α) (i : Nat) : Except Fault (Option α) := do
  return (← entry a.states i).symbol

/-- How often the symbol of a state occurred in the sequences. -/
def occurrencesAt (a : Automaton α) (i : Nat) : Except Fault Nat := do
  return (← entry a.states i).occurrences

/-- The states before a state. -/
def predecessorsAt (a : Automaton α) (i : Nat) : Except Fault (SortedSet Nat) := do
  return (← entry a.states i).predecessors

/-- The states after a state. -/
def successorsAt (a : Automaton α) (i : Nat) : Except Fault (SortedSet Nat) := do
  return (← entry a.states i).successors

/-- The edges, by the state they leave and then by the state they enter. -/
def edges (a : Automaton α) : List (Nat × Nat) :=
  (List.range a.states.size).flatMap fun i => (a.next i).toList.map fun j => (i, j)

end Automaton

end ChainGrammar

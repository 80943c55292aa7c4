import ChainGrammar.Automaton.Basic

/-!
# The text of an automaton

* `Automaton.summary`: the numbers of sequences, states and edges.
* `Automaton.describe`: the summary and a line for every edge.
* `Automaton.statistics`: the summary and a line for every symbol with its
  number of occurrences.
-/

namespace ChainGrammar.Automaton

variable {α : Type} [Text.Textual α]

/-- The numbers of sequences, states and edges, a line for each. -/
def summary (a : Automaton α) : String :=
  "Number of sequences: " ++ a.sequenceCount.repr ++ "\nNumber of states: " ++
    a.stateCount.repr ++ "\nNumber of edges: " ++ a.edgeCount.repr

/-- The name of a state: its quoted symbol, or that of the anchor. -/
def nameOf (a : Automaton α) (i : Nat) : String :=
  match a.states[i]?.bind State.symbol with
  | some s => Text.Textual.quoted s
  | none => if i = start then "start" else "end"

/-- The summary and the edges between the names of the states. -/
def describe (a : Automaton α) : String :=
  a.summary ++ "\n" ++
    String.join (a.edges.map fun e => a.nameOf e.1 ++ " --> " ++ a.nameOf e.2 ++ "\n")

/-- The line of a state with its symbol and the number of its occurrences. -/
def occurrenceLine (q : State α) : String :=
  match q.symbol with
  | some s => Text.Textual.plain s ++ ": " ++ q.occurrences.repr ++ " occurrences\n"
  | none => ""

/-- The summary and the occurrences of the symbols, in the order in which they were met. -/
def statistics (a : Automaton α) : String :=
  a.summary ++ "\n" ++ String.join (a.states.toList.map occurrenceLine)

end ChainGrammar.Automaton

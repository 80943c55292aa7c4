import ChainGrammar.Automaton.Graph
import ChainGrammar.Expr.Basic
import ChainGrammar.Graph.Slots
import ChainGrammar.Graph.TopologicalOrder

/-!
# Chain expressions

The expression inferred from an automaton: a sequence of repeated factors, one
for every slot. A slot of one symbol is that symbol, a larger one the choice of
its symbols in the order in which they were met. The factors follow a topological
order of the slots; where it leaves a choice, the slot whose first symbol was met
earliest comes first.

* `Automaton.chain`: the expression, without children if there is no symbol.
* `Automaton.factor`: the factor of one slot.
-/

namespace ChainGrammar.Automaton

variable {α : Type}

/-- The symbol of a node of the graph of the automaton. -/
def symbolOfNode (a : Automaton α) (x : Nat) : Except Fault α := do
  if a.stateCount ≤ x then throw (.outOfBounds a.stateCount x)
  match ← a.symbolAt (anchorCount + x) with
  | some s => return s
  | none => throw .unlabelled

/-- The factor of a slot with the given nodes. -/
def factor (a : Automaton α) : List Nat → Except Fault (Expr α)
  | [x] => return .repeated (.symbol (← a.symbolOfNode x))
  | xs => do
    let symbols ← xs.mapM a.symbolOfNode
    return .repeated (.choice (symbols.map .symbol))

/-- The first node of a slot. -/
def firstOf (members : Array (List Nat)) (slot : Nat) : Option Nat := do
  (← members[slot]?).head?

/-- The fault of the whole when the slots have no order. -/
def withoutOrder : Fault → Fault
  | .cycle slot => .cyclicSlots slot
  | e => e

/-- The chain expression of the automaton. A slot is ordered by its first node, which has to be
there. -/
def chain (a : Automaton α) : Except Fault (Expr α) := do
  let g ← a.graph
  let slots ← g.slots
  let h ← g.quotient slots
  let members ← slots.blocks
  if [] ∈ members.toList then throw (.outOfBounds 0 0)
  let order ← (h.topologicalOrder (firstOf members)).mapError withoutOrder
  let factors ← order.mapM fun slot => do a.factor (← entry members slot)
  return .sequence factors

end ChainGrammar.Automaton

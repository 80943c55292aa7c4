import ChainGrammar.Graph.Components
import ChainGrammar.Graph.Quotient
import ChainGrammar.Graph.Reachability

/-!
# Slots

Nodes that are interchangeable as positions in a chain. Nodes that reach each
other share a slot; so do two components with the same neighbours of which
neither reaches the other. Components are taken in the order of their least
nodes, and each goes into the first slot that admits it.

* `Graph.slots`: the partition of the nodes into slots.
* `Slot`, `Slot.admits`: a slot in the making, and whether it takes a component.
* `Slot.place`: puts one component into its slot.
-/

namespace ChainGrammar

/-- A slot in the making: its components, the last of them first, and the neighbours that all of
them have. -/
structure Slot where
  before : SortedSet Nat
  after : SortedSet Nat
  components : List Nat

namespace Slot

/-- Whether no component of the slot reaches `c` or is reached by it. -/
def independent (r : Reachability) (c : Nat) : List Nat → Except Fault Bool
  | [] => return true
  | d :: ds => do
    if ← r.incomparable d c then independent r c ds else return false

/-- Whether component `c` of the component graph belongs to the slot. -/
def admits (g : Graph) (r : Reachability) (c : Nat) (s : Slot) : Except Fault Bool :=
  if s.before = g.prev c ∧ s.after = g.next c then independent r c s.components else return false

/-- Puts component `c` into the first slot that admits it, a new one if there is none, and
returns the slots with the place of that slot. -/
def place (g : Graph) (r : Reachability) (c : Nat) : List Slot → Except Fault (List Slot × Nat)
  | [] => return ([⟨g.prev c, g.next c, [c]⟩], 0)
  | s :: slots => do
    if ← s.admits g r c then return ({ s with components := c :: s.components } :: slots, 0)
    let (slots, i) ← place g r c slots
    return (s :: slots, i + 1)

/-- Puts components into slots one after the other, and returns the slots with the place of each
component. -/
def placeAll (g : Graph) (r : Reachability) :
    List Nat → List Slot → Except Fault (List Slot × List Nat)
  | [], slots => return (slots, [])
  | c :: cs, slots => do
    let (slots, i) ← place g r c slots
    let (slots, is) ← placeAll g r cs slots
    return (slots, i :: is)

end Slot

namespace Graph

/-- The partition of the nodes into slots, in the order of their least nodes. -/
def slots (g : Graph) : Except Fault Partition := do
  let components ← g.components
  let h ← g.quotient components
  let (_, numbers) ← Slot.placeAll h h.reachability h.nodes []
  components.compose (← Partition.ofNumbers numbers)

end Graph

end ChainGrammar

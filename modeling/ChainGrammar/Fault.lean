import ChainGrammar.Text.Textual

/-!
# What can go wrong in a graph computation

* `Fault`: the causes.
* `Fault.message`: their wording.
* `entry`, `setEntry`: a look-up and an update that fail beyond the end of a table.
-/

namespace ChainGrammar

universe u

/-- The reason why a computation on graphs, partitions or automata has no result. -/
inductive Fault where
  /-- A table of the given size has no entry at the index. -/
  | outOfBounds (size index : Nat)
  /-- A row of bits of the given size has no bit at the index. -/
  | bitOutOfBounds (size index : Nat)
  /-- A block number has no successor among the 64-bit numbers. -/
  | blockOverflow
  /-- Some number below the largest block number is not used. -/
  | notDense (numbers : List Nat)
  /-- A partition of `length` elements was given for a graph of `nodes` nodes. -/
  | notCovering (length nodes : Nat)
  /-- A partition of `length` elements was given for the `blocks` blocks of another one. -/
  | notComposable (length blocks : Nat)
  /-- More edges into a node were followed than there are. -/
  | underflow
  /-- No order of the nodes goes along all edges; `node` is the first that has no place. -/
  | cycle (node : Nat)
  /-- An order of the nodes goes against some edge of the graph with the given text. -/
  | notSorted (order : List Nat) (graph : String)
  /-- The slots of an automaton have no order; `node` is the first that has no place. -/
  | cyclicSlots (node : Nat)
  /-- A state without a symbol was to be written as a symbol. -/
  | unlabelled
deriving DecidableEq

namespace Fault

/-- The numbers in square brackets. -/
def bracketed (numbers : List Nat) : String :=
  "[" ++ ", ".intercalate (numbers.map Nat.repr) ++ "]"

/-- The wording of a fault. -/
def message : Fault → String
  | .outOfBounds size index =>
    s!"index out of bounds: the len is {size} but the index is {index}"
  | .bitOutOfBounds size index => s!"index {index} out of bounds: {size}"
  | .blockOverflow => "attempt to add with overflow"
  | .notDense numbers => "Block numbers " ++ bracketed numbers ++ " are not dense"
  | .notCovering length nodes =>
    "assertion `left == right` failed: The partition must cover the nodes of the graph\n" ++
      s!"  left: {length}\n right: {nodes}"
  | .notComposable length blocks =>
    s!"assertion `left == right` failed\n  left: {length}\n right: {blocks}"
  | .underflow => "attempt to subtract with overflow"
  | .cycle node => s!"The graph contains a cycle through node {node}"
  | .notSorted order graph =>
    "The order " ++ bracketed order ++
      " is not a valid topological ordering of the nodes of the given graph: " ++ graph
  | .cyclicSlots node =>
    s!"The slots of a single occurrence automaton form an acyclic graph: Cycle({node})"
  | .unlabelled => "Only learned states are part of a slot"

end Fault

/-- The entry of a table at an index, a fault if there is none. -/
def entry {α : Type u} (table : Array α) (index : Nat) : Except Fault α :=
  match table[index]? with
  | some a => .ok a
  | none => .error (.outOfBounds table.size index)

/-- The table with another entry at an index, a fault if there is none. -/
def setEntry {α : Type u} (table : Array α) (index : Nat) (a : α) : Except Fault (Array α) :=
  if index < table.size then .ok (table.setIfInBounds index a)
  else .error (.outOfBounds table.size index)

/-! ## Results -/

section Results

variable {α β : Type u}

@[simp] theorem ok_bind (a : α) (f : α → Except Fault β) : (Except.ok a >>= f) = f a := rfl

theorem bind_eq_ok {x : Except Fault α} {f : α → Except Fault β} {b : β} :
    (x >>= f) = .ok b ↔ ∃ a, x = .ok a ∧ f a = .ok b := by
  cases x with
  | ok a => simp
  | error c =>
    constructor
    · intro h
      exact nomatch h
    · rintro ⟨_, h, -⟩
      exact nomatch h

@[simp] theorem pure_eq_ok (a : α) : (pure a : Except Fault α) = .ok a := rfl

theorem entry_eq_ok {table : Array α} {index : Nat} {a : α} (h : table[index]? = some a) :
    entry table index = .ok a := by
  rw [entry, h]

theorem getElem?_of_entry_eq_ok {table : Array α} {index : Nat} {a : α}
    (h : entry table index = .ok a) : table[index]? = some a := by
  unfold entry at h
  split at h
  · next b hb => rw [hb, Except.ok.inj h]
  · exact nomatch h

theorem setEntry_eq_ok {table : Array α} {index : Nat} (h : index < table.size) (a : α) :
    setEntry table index a = .ok (table.setIfInBounds index a) := by
  rw [setEntry, if_pos h]

end Results

end ChainGrammar

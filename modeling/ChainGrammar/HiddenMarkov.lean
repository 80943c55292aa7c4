import ChainGrammar.RandomSource

/-!
# Hidden Markov models

A model has states and labels. It starts in a random state, moves from state to
state and emits a label in each; the probabilities of the start, of the moves and
of the labels are tables of floating point numbers.

* `HiddenMarkov.uniform`: the model in which all is equally probable.
* `HiddenMarkov.randomize`: the model with all probabilities drawn anew.
* `HiddenMarkov.transition`, `emission`, `start`, `label`: the look-ups, which
  fail with the index that is too large and its bound.
-/

namespace ChainGrammar

/-- Why a model has no answer. -/
inductive ModelError where
  /-- A model was to be made without states. -/
  | noStates
  /-- A model was to be made without labels. -/
  | noLabels
  /-- The index is not below its bound. -/
  | outOfRange (index bound : Nat)
deriving DecidableEq

/-- The wording of a model error. -/
def ModelError.message : ModelError → String
  | .noStates => "A hidden Markov model must have at least one state"
  | .noLabels => "A hidden Markov model must have at least one label"
  | .outOfRange index bound => s!"Index {index} is out of range, it must be below {bound}"

/-- The labels, the probability of every state at the start, of every state after each state, and
of every label in each state. -/
structure HiddenMarkov (α : Type) where
  labels : Array α
  starts : Array Float
  transitions : Array (Array Float)
  emissions : Array (Array Float)

namespace HiddenMarkov

variable {α : Type}

/-- The number of states. -/
def stateCount (m : HiddenMarkov α) : Nat := m.transitions.size

/-- The number of labels. -/
def labelCount (m : HiddenMarkov α) : Nat := m.labels.size

/-- The model of the given number of states in which all is equally probable. -/
def uniform (states : Nat) (labels : Array α) : Except ModelError (HiddenMarkov α) :=
  if states = 0 then .error .noStates
  else if labels.isEmpty then .error .noLabels
  else
    let perState := 1.0 / Float.ofNat states
    let perLabel := 1.0 / Float.ofNat labels.size
    .ok { labels := labels
          starts := Array.replicate states perState
          transitions := Array.replicate states (Array.replicate states perState)
          emissions := Array.replicate states (Array.replicate labels.size perLabel) }

/-- The entry of a table at an index, which has to be below the bound. -/
def lookUp {β : Type} (table : Array β) (index bound : Nat) : Except ModelError β :=
  match table[index]? with
  | some a => .ok a
  | none => .error (.outOfRange index bound)

/-- The probability of state `y` after state `x`. -/
def transition (m : HiddenMarkov α) (x y : Nat) : Except ModelError Float := do
  let row ← lookUp m.transitions x m.stateCount
  lookUp row y m.stateCount

/-- The probability of label `l` in state `x`. -/
def emission (m : HiddenMarkov α) (x l : Nat) : Except ModelError Float := do
  let row ← lookUp m.emissions x m.stateCount
  lookUp row l m.labelCount

/-- The probability of state `x` at the start. -/
def start (m : HiddenMarkov α) (x : Nat) : Except ModelError Float :=
  lookUp m.starts x m.stateCount

/-- The label of an index. -/
def label (m : HiddenMarkov α) (l : Nat) : Except ModelError α :=
  lookUp m.labels l m.labelCount

/-- The number of steps between the probabilities 0 and 1 that are drawn. -/
def granularity : Float := 10000.0

/-- Draws `n` probabilities from the given remainder, and then takes what is left of it. -/
def breakOff : Nat → Float → RandomSource → List Float × RandomSource
  | 0, left, s => ([left], s)
  | n + 1, left, s =>
    let (k, s) := s.upTo .full (left * granularity).floor.toUInt64.toNat
    let value := Float.ofNat k / granularity
    let remainder := left - value
    let (rest, s) := breakOff n (if remainder < 0 then 0 else remainder) s
    (value :: rest, s)

/-- Draws a distribution over the given number of values. -/
def drawDistribution (size : Nat) (s : RandomSource) : Array Float × RandomSource :=
  match size with
  | 0 => (#[], s)
  | n + 1 =>
    let (values, s) := breakOff n 1 s
    (values.toArray, s)

/-- Draws a distribution for each of the given number of rows. -/
def drawRows (size : Nat) : Nat → RandomSource → List (Array Float) × RandomSource
  | 0, s => ([], s)
  | n + 1, s =>
    let (row, s) := drawDistribution size s
    let (rows, s) := drawRows size n s
    (row :: rows, s)

/-- The model with all distributions drawn anew: the moves, then the labels, then the start. -/
def randomize (m : HiddenMarkov α) (s : RandomSource) : HiddenMarkov α × RandomSource :=
  let (transitions, s) := drawRows m.stateCount m.transitions.size s
  let (emissions, s) := drawRows m.labelCount m.emissions.size s
  let (starts, s) := drawDistribution m.stateCount s
  ({ m with
      transitions := transitions.toArray
      emissions := emissions.toArray
      starts := starts }, s)

end HiddenMarkov

end ChainGrammar

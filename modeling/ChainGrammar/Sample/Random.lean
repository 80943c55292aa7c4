import ChainGrammar.RandomSource

/-!
# Random sample sequences

* `Sample.random`: sequences of random lengths over the first letters of the
  alphabet.
-/

namespace ChainGrammar.Sample

/-- Why no sequences could be drawn. -/
inductive DrawError where
  /-- There are not as many letters as were asked for, or none was asked for. -/
  | alphabet (size : Nat)
  /-- The table of the given size has no letter at the index. -/
  | noLetter (size index : Nat)
deriving DecidableEq

/-- The wording of a failed drawing. -/
def DrawError.message : DrawError → String
  | .alphabet size => s!"Only alphabetic symbols are supported, requested {size}"
  | .noLetter size index => s!"index out of bounds: the len is {size} but the index is {index}"

/-- The first letters of the alphabet. -/
def letters (n : Nat) : Array String :=
  ((List.range n).map fun i => String.singleton (Char.ofNat ('a'.toNat + i))).toArray

/-- Draws a sequence of the given length over the given letters. -/
def randomSymbols (table : Array String) :
    Nat → RandomSource → Except DrawError (List String × RandomSource)
  | 0, s => return ([], s)
  | n + 1, s => do
    let (i, s) := s.indexUpTo (table.size - 1)
    match table[i]? with
    | none => throw (.noLetter table.size i)
    | some letter =>
      let (rest, s) ← randomSymbols table n s
      return (letter :: rest, s)

/-- Draws the given number of sequences, for each its length first. -/
def randomSequences (table : Array String) (maxLength : Nat) :
    Nat → RandomSource → Except DrawError (List (List String) × RandomSource)
  | 0, s => return ([], s)
  | n + 1, s => do
    let (length, s) := s.indexUpTo maxLength
    let (w, s) ← randomSymbols table length s
    let (rest, s) ← randomSequences table maxLength n s
    return (w :: rest, s)

/-- Draws sequences of at most the given length over the first letters of the alphabet. -/
def random (sequences symbols maxLength : Nat) (s : RandomSource) :
    Except DrawError (List (List String) × RandomSource) :=
  if 1 ≤ symbols ∧ symbols ≤ 26 then randomSequences (letters symbols) maxLength sequences s
  else throw (.alphabet symbols)

end ChainGrammar.Sample

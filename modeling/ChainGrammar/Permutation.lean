import Std.Data.TreeSet.Basic
import ChainGrammar.Fault

/-!
# Permutations of an initial segment

* `isPermutation f n`: whether `f` maps the numbers below `n` one to one onto
  themselves. It stops at the first number that is hit twice or lies outside, and
  holds the numbers hit so far only.
* `markPermutation f n`: the same with a table of marks for all numbers below `n`,
  in which looking up a mark and setting it can fail.
-/

namespace ChainGrammar

/-- Whether `f` maps the last `k` of the numbers below `n` to different numbers below `n`, none of
which has been hit before. -/
def allFresh (f : Nat → Nat) (n : Nat) : Nat → Std.TreeSet Nat → Bool
  | 0, _ => true
  | k + 1, hit =>
    let t := f (n - (k + 1))
    t < n && !hit.contains t && allFresh f n k (hit.insert t)

/-- Whether `f` permutes the numbers below `n`. -/
def isPermutation (f : Nat → Nat) (n : Nat) : Bool := allFresh f n n ∅

/-- Whether `f` maps the last `k` of the numbers below `n` to different numbers below `n` that are
not marked in the table, a fault if a mark beyond its end is looked up or set. -/
def allUnmarked (f : Nat → Nat) (n : Nat) : Nat → Array Bool → Except Fault Bool
  | 0, _ => return true
  | k + 1, marks => do
    let t := f (n - (k + 1))
    if n ≤ t then return false
    if ← entry marks t then return false
    allUnmarked f n k (← setEntry marks t true)

/-- Whether `f` permutes the numbers below `n`, by marking the numbers that are hit. -/
def markPermutation (f : Nat → Nat) (n : Nat) : Except Fault Bool :=
  allUnmarked f n n (Array.replicate n false)

end ChainGrammar

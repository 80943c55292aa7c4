/-!
# Drawing numbers from random words

A source of 64-bit words, and a way to draw a number up to a bound from it. A word
times the size of the range is read as a fixed point number, and its integer part
is the number drawn; where the fraction is so large that a longer word could carry
into the integer part, a second word decides.

* `RandomSource`: the words and how many of them have been taken.
* `RandomSource.upTo`: draws a number that is at most `high`.
-/

namespace ChainGrammar

/-- How much of a word a draw takes. -/
inductive WordWidth where
  /-- The low 32 bits. -/
  | half
  /-- All 64 bits. -/
  | full
deriving DecidableEq

/-- The number of words of a width. -/
def WordWidth.size : WordWidth → Nat
  | .half => 4294967296
  | .full => 18446744073709551616

/-- A stream of words, of which the first `drawn` have been taken. -/
structure RandomSource where
  word : Nat → UInt64
  drawn : Nat

namespace RandomSource

/-- The source that repeats the given words for ever, or yields zeros if there are none. -/
def cycle (words : Array UInt64) : RandomSource :=
  ⟨fun i => words[i % words.size]?.getD 0, 0⟩

/-- Takes a word, of which a draw of the given width sees the low bits. -/
def take (width : WordWidth) (s : RandomSource) : Nat × RandomSource :=
  ((s.word s.drawn).toNat % width.size, { s with drawn := s.drawn + 1 })

/-- Draws a number that is at most `high`, from words of the given width. The range of all words
needs no scaling. -/
def upTo (width : WordWidth) (high : Nat) (s : RandomSource) : Nat × RandomSource :=
  let (w, s) := s.take width
  let range := (high + 1) % width.size
  if range = 0 then (w, s)
  else
    let whole := w * range / width.size
    let fraction := w * range % width.size
    if width.size - range < fraction then
      let (v, s) := s.take width
      let more := v * range / width.size
      (if width.size ≤ fraction + more then whole + 1 else whole, s)
    else (whole, s)

/-- The width of the draws for an index that is at most `high`: half a word if that holds it. -/
def indexWidth (high : Nat) : WordWidth := if high < WordWidth.half.size then .half else .full

/-- Draws an index that is at most `high`. -/
def indexUpTo (high : Nat) (s : RandomSource) : Nat × RandomSource := s.upTo (indexWidth high) high

end RandomSource

end ChainGrammar

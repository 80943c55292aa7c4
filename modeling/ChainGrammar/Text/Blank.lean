/-!
# Blank characters

The characters with the Unicode property `White_Space`. They separate words and
are cut from both ends of a line or a word.

* `isBlank`: the property, as a table of ranges.
* `trim`: a text without the blanks at its ends.
-/

namespace ChainGrammar.Text

/-- The code points with the property `White_Space`, as ranges with both ends included. -/
def blankRanges : List (Nat × Nat) :=
  [(0x09, 0x0D), (0x20, 0x20), (0x85, 0x85), (0xA0, 0xA0), (0x1680, 0x1680), (0x2000, 0x200A),
   (0x2028, 0x2029), (0x202F, 0x202F), (0x205F, 0x205F), (0x3000, 0x3000)]

/-- Whether the character is white space. -/
def isBlank (c : Char) : Bool := blankRanges.any fun r => r.1 ≤ c.toNat && c.toNat ≤ r.2

/-- The text without the blanks at its end. -/
def trimEnd (l : List Char) : List Char := (l.reverse.dropWhile isBlank).reverse

/-- The text without the blanks at its start and its end. -/
def trim (l : List Char) : List Char := trimEnd (l.dropWhile isBlank)

/-- Every blank of the core library's class is one here. -/
theorem isBlank_of_isWhitespace {c : Char} (h : c.isWhitespace = true) : isBlank c = true := by
  simp only [Char.isWhitespace, Bool.or_eq_true, decide_eq_true_eq] at h
  rcases h with ((rfl | rfl) | rfl) | rfl <;> decide

end ChainGrammar.Text

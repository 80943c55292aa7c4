import ChainGrammar.Text.Quoted

/-!
# Things with a text

The two ways in which a symbol or an index is written: plainly, as it stands in
an expression, and quoted, as it stands in a listing where a word must not be
taken for a number.

* `Textual`: the class, with `plain` and `quoted`.
* `decimal`: the text of an integer.
-/

namespace ChainGrammar.Text

universe u

/-- A type whose values have a text. -/
class Textual (α : Type u) where
  /-- The text as it stands in an expression. -/
  plain : α → String
  /-- The text as it stands in a listing. -/
  quoted : α → String

/-- A number is its decimal digits. -/
instance : Textual Nat := ⟨Nat.repr, Nat.repr⟩

/-- A negative number has a minus sign in front of its digits. -/
def decimal : Int → String
  | .ofNat n => n.repr
  | .negSucc n => "-" ++ (n + 1).repr

instance : Textual Int := ⟨decimal, decimal⟩

/-- A word is itself, and in a listing stands between quotes. -/
instance : Textual String := ⟨id, quote⟩

end ChainGrammar.Text

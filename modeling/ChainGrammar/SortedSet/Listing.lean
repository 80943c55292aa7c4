import ChainGrammar.SortedSet
import ChainGrammar.Text.Textual

/-!
# The text of a set

* `SortedSet.describe`: the quoted elements in braces.
-/

namespace ChainGrammar.SortedSet

variable {α : Type} [Ord α] [Text.Textual α]

/-- The elements in increasing order, in braces. -/
def describe (s : SortedSet α) : String :=
  "\x7b" ++ ", ".intercalate (s.toList.map Text.Textual.quoted) ++ "\x7d"

end ChainGrammar.SortedSet

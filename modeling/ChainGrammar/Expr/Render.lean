import ChainGrammar.Expr.Basic
import ChainGrammar.Text.Textual

/-!
# The text of an expression

A sequence is written `( a b )`, a choice `( a + b )`, an optional expression `a?`
and a repeated one `a*`. Only sequences and choices bring brackets; without
children both are written `(  )`.

* `Expr.render`: the text.
* `Expr.renderReading`: the reading that produces its characters.
-/

namespace ChainGrammar.Expr

variable {α : Type} [Text.Textual α]

/-- The text in brackets, a space away from each. -/
def bracketed (l : List Char) : List Char := ['(', ' '] ++ l ++ [' ', ')']

/-- The characters of an expression, given those of its children. -/
def renderReading : Reading α (List Char) where
  symbol s := (Text.Textual.plain s).toList
  sequence parts := bracketed ([' '].intercalate parts)
  choice parts := bracketed ([' ', '+', ' '].intercalate parts)
  optional part := part ++ ['?']
  repeated part := part ++ ['*']

/-- The text of an expression. -/
def render (e : Expr α) : String := String.ofList (e.fold renderReading)

end ChainGrammar.Expr

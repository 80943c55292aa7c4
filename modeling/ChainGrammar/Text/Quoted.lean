import ChainGrammar.Text.Printable

/-!
# Quoted text

A text between double quotes in which every character can be seen. The double
quote, the backslash and the commonest controls have short escapes, the other
characters without a glyph are written by their code point in hexadecimal.

* `quote`: the quoted form of a text.
-/

namespace ChainGrammar.Text

/-- The code point in lower case hexadecimal digits, without padding. -/
def hexCode (c : Char) : List Char := Nat.toDigits 16 c.toNat

/-- The form of one character between the quotes. -/
def escape (c : Char) : List Char :=
  match c with
  | '"' => ['\\', '"']
  | '\\' => ['\\', '\\']
  | '\n' => ['\\', 'n']
  | '\r' => ['\\', 'r']
  | '\t' => ['\\', 't']
  | '\x00' => ['\\', '0']
  | c => if isPrintable c then [c] else ['\\', 'u', '\x7b'] ++ hexCode c ++ ['\x7d']

/-- The text between double quotes, with its special characters escaped. -/
def quote (s : String) : String :=
  String.ofList (['"'] ++ s.toList.flatMap escape ++ ['"'])

end ChainGrammar.Text

import ChainGrammar.SystemError
import ChainGrammar.Text.Blank

/-!
# Reading sample sequences

A text holds one sequence on every line. Blank lines and lines that start with `#`
hold none. The symbols of a sequence are separated by blanks, or by a delimiter
if one is given; then they are trimmed and empty ones dropped, and a line of
delimiters alone holds the empty sequence.

* `Sample.read`: the sequences of an input, which fails if the reader does or a line is not UTF-8.
* `Sample.sequenceOf`: the sequence of one line.
* `Input`: the bytes of a text, and the error with which the reader breaks off after them, if any.
-/

namespace ChainGrammar.Sample

open Text

/-- The bytes that a reader yields, and the error with which it then fails instead of coming to an
end. -/
structure Input where
  bytes : List UInt8
  failure : Option SystemError

/-- Why an input could not be read. -/
inductive ReadError where
  /-- A line is not UTF-8. -/
  | invalidText
  /-- The reader failed. -/
  | readerFailed (e : SystemError)
deriving DecidableEq

/-- The error as the reader of lines reports it; that of the reader of bytes is passed on. -/
def ReadError.systemError : ReadError → SystemError
  | .invalidText => ⟨none, "InvalidData", "stream did not contain valid UTF-8"⟩
  | .readerFailed e => e

/-- The byte that ends a line. -/
def lineEnd : UInt8 := 10

/-- The lines of a text, the last of them ended by the end of the text. -/
def lines (bytes : List UInt8) : List (List UInt8) := bytes.splitOn lineEnd

/-- The lines of an input that are complete: all, or all but the last if the reader fails. -/
def Input.lines (i : Input) : List (List UInt8) :=
  match i.failure with
  | some _ => (Sample.lines i.bytes).dropLast
  | none => Sample.lines i.bytes

/-- The characters of a line in UTF-8. -/
def decode (line : List UInt8) : Except ReadError (List Char) :=
  match String.fromUTF8? line.toByteArray with
  | some s => .ok s.toList
  | none => .error .invalidText

/-- The symbols of a trimmed line. -/
def symbolsOf (delimiter : Option Char) (line : List Char) : List (List Char) :=
  match delimiter with
  | none => (line.splitOnP isBlank).filter (· ≠ [])
  | some d => ((line.splitOn d).map trim).filter (· ≠ [])

/-- The sequence of a line, none if it is blank or a comment. -/
def sequenceOf (delimiter : Option Char) (line : List Char) : Option (List String) :=
  match trim line with
  | [] => none
  | '#' :: _ => none
  | l => some ((symbolsOf delimiter l).map String.ofList)

/-- The sequences of an input. An invalid line before the failure of the reader is found first. -/
def read (delimiter : Option Char) (i : Input) : Except ReadError (List (List String)) := do
  let texts ← i.lines.mapM decode
  match i.failure with
  | some e => throw (.readerFailed e)
  | none => return texts.filterMap (sequenceOf delimiter)

end ChainGrammar.Sample

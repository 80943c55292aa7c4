import ChainGrammar.Expr.Basic
import ChainGrammar.Text.Textual

/-!
# The structure of an expression

A listing that shows how an expression is built, operator by operator, with its
symbols quoted.

* `Expr.describe`: the listing in one line.
* `Expr.outline`: the listing with a line for every part, four spaces a level.
-/

namespace ChainGrammar.Expr

variable {α : Type} [Text.Textual α]

/-- A symbol in one line. -/
def describeLeaf (s : α) : String := "Leaf(" ++ Text.Textual.quoted s ++ ")"

/-- An operator in one line, given the listings of its children. -/
def describeNode (kind : Kind) (children : List String) : String :=
  "Node(Regex \x7b kind: " ++ kind.name ++ ", children: [" ++ ", ".intercalate children ++ "] \x7d)"

/-- The structure of an expression in one line. -/
def describe : Expr α → String :=
  fold ⟨describeLeaf, describeNode .sequence, describeNode .choice,
    fun e => describeNode .optional [e], fun e => describeNode .repeated [e]⟩

/-- The start of a line at the given level. -/
def margin (level : Nat) : String := String.ofList (List.replicate (4 * level) ' ')

/-- A group with its parts on lines of their own; `level` is that of the line it starts on. -/
def outlineGroup (level : Nat) (opening closing : String) (parts : List String) : String :=
  opening ++ "\n" ++ String.join (parts.map fun p => margin (level + 1) ++ p ++ ",\n") ++
    margin level ++ closing

/-- The children of an operator, in square brackets. -/
def outlineChildren (level : Nat) (children : List String) : String :=
  if children.isEmpty then "[]" else outlineGroup level "[" "]" children

/-- An operator on lines of its own, given its children as a function of their level. -/
def outlineNode (kind : Kind) (children : Nat → List String) (level : Nat) : String :=
  outlineGroup level "Node(" ")"
    [outlineGroup (level + 1) "Regex \x7b" "\x7d"
      ["kind: " ++ kind.name, "children: " ++ outlineChildren (level + 2) (children (level + 3))]]

/-- The structure of an expression with a line for every part. -/
def outline (e : Expr α) : String :=
  let group (kind : Kind) (parts : List (Nat → String)) :=
    outlineNode kind fun level => parts.map fun part => part level
  let reading : Reading α (Nat → String) :=
    ⟨fun s level => outlineGroup level "Leaf(" ")" [Text.Textual.quoted s],
      group .sequence, group .choice, fun part => group .optional [part],
      fun part => group .repeated [part]⟩
  e.fold reading 0

end ChainGrammar.Expr

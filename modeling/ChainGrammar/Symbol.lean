import ChainGrammar.Text.Textual

/-!
# Symbols

A symbol of an example sequence: a number or a word. The number `1` and the word
`1` are written alike in an expression and are still different symbols.

* `Symbol`: the type, ordered with the numbers before the words.
* `Symbol.compare_eq_iff`: symbols that compare as equal are equal.
-/

namespace ChainGrammar

/-- A symbol of an example sequence. -/
inductive Symbol where
  | number (value : Int)
  | word (text : String)
deriving DecidableEq, Inhabited

namespace Symbol

/-- Numbers come before words, numbers by value and words by code points. -/
protected def compare : Symbol → Symbol → Ordering
  | .number a, .number b => Ord.compare a b
  | .number _, .word _ => .lt
  | .word _, .number _ => .gt
  | .word a, .word b => Ord.compare a b

instance : Ord Symbol := ⟨Symbol.compare⟩

theorem compare_def (a b : Symbol) : Ord.compare a b = Symbol.compare a b := rfl

/-- **The order tells symbols apart.** -/
theorem compare_eq_iff {a b : Symbol} : Ord.compare a b = .eq ↔ a = b := by
  cases a <;> cases b <;> simp [compare_def, Symbol.compare]

instance : Std.TransOrd Symbol where
  eq_swap {a b} := by
    match a, b with
    | .number m, .number n => exact @Std.OrientedOrd.eq_swap Int _ _ m n
    | .number _, .word _ => rfl
    | .word _, .number _ => rfl
    | .word v, .word w => exact @Std.OrientedOrd.eq_swap String _ _ v w
  isLE_trans {a b c} h1 h2 := by
    match a, b, c with
    | .number l, .number m, .number n => exact @Std.TransOrd.isLE_trans Int _ _ l m n h1 h2
    | .number _, _, .word _ => rfl
    | .word u, .word v, .word w => exact @Std.TransOrd.isLE_trans String _ _ u v w h1 h2
    | .word _, .number _, _ => exact absurd h1 (by simp [compare_def, Symbol.compare])
    | .word _, .word _, .number _ => exact absurd h2 (by simp [compare_def, Symbol.compare])
    | .number _, .word _, .number _ => exact absurd h2 (by simp [compare_def, Symbol.compare])

instance : Std.LawfulEqOrd Symbol where
  compare_self := compare_eq_iff.2 rfl
  eq_of_compare := compare_eq_iff.1

/-- A symbol is written as its number or word. -/
instance : Text.Textual Symbol where
  plain
    | .number n => Text.Textual.plain n
    | .word w => Text.Textual.plain w
  quoted
    | .number n => Text.Textual.quoted n
    | .word w => Text.Textual.quoted w

end Symbol

end ChainGrammar

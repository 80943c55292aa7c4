import ChainGrammar.Proofs.WellFormedSamples

/-!
# How many symbols are read

Every symbol that is read has a character of its own, and every character a byte. So the symbols of
an input are no more than its bytes, and a counter that can hold the size of the input can hold the
number of its symbols.

* `Text.length_flatten_splitOnP_le`: the pieces of a text are no longer than the text.
* `Sample.length_symbolsOf_le`: the symbols of a line are no more than its characters.
* `Sample.length_flatten_le_of_read`: **the symbols of an input** are no more than its bytes.
-/

namespace ChainGrammar

/-! ## Pieces of a text -/

namespace Text

/-- The pieces of a text are no longer than the text. -/
theorem length_flatten_splitOnP_le (p : Char → Bool) (l : List Char) :
    (l.splitOnP p).flatten.length ≤ l.length := by
  induction l with
  | nil => simp
  | cons c l ih =>
    rw [List.splitOnP_cons_eq_if_modifyHead]
    split
    · exact Nat.le_succ_of_le ih
    · -- the first piece gets the character
      obtain ⟨q, qs, hqs⟩ := List.exists_cons_of_ne_nil (List.splitOnP_ne_nil p l)
      rw [hqs] at ih ⊢
      exact Nat.succ_le_succ ih

theorem length_flatten_splitOn_le (d : Char) (l : List Char) :
    (l.splitOn d).flatten.length ≤ l.length := by
  rw [List.splitOn_eq_splitOnP]
  exact length_flatten_splitOnP_le _ l

theorem length_trim_le (l : List Char) : (trim l).length ≤ l.length :=
  Nat.le_trans (trimEnd_isPrefix _).length_le (List.dropWhile_suffix isBlank).length_le

end Text

/-! ## Symbols of an input -/

namespace Sample

open Text

variable {α β : Type}

/-- Lists that are not empty are no more than their elements. -/
theorem length_filter_ne_nil_le [DecidableEq α] (ls : List (List α)) :
    (ls.filter (· ≠ [])).length ≤ ls.flatten.length := by
  induction ls with
  | nil => exact Nat.le_refl 0
  | cons l ls ih =>
    rw [List.flatten_cons, List.length_append]
    by_cases hl : l = []
    · simpa [hl] using ih
    · have hpos := List.length_pos_iff.2 hl
      rw [List.filter_cons_of_pos (by simpa using hl), List.length_cons]
      omega

/-- Lists that are not made longer one by one are not longer together. -/
theorem length_flatten_filterMap_le {f : List α → Option (List β)} {ls : List (List α)}
    (hf : ∀ l w, f l = some w → w.length ≤ l.length) :
    (ls.filterMap f).flatten.length ≤ ls.flatten.length := by
  induction ls with
  | nil => exact Nat.le_refl 0
  | cons l ls ih =>
    rw [List.flatten_cons, List.length_append]
    cases hl : f l with
    | none =>
      rw [List.filterMap_cons_none hl]
      omega
    | some w =>
      have hw := hf l w hl
      rw [List.filterMap_cons_some hl, List.flatten_cons, List.length_append]
      omega

/-- **The symbols of a line** are no more than its characters. -/
theorem length_symbolsOf_le (d : Option Char) (l : List Char) :
    (symbolsOf d l).length ≤ l.length := by
  cases d with
  | none => exact Nat.le_trans (length_filter_ne_nil_le _) (length_flatten_splitOnP_le _ l)
  | some e =>
    have htrim : ((l.splitOn e).map trim).flatten.length ≤ (l.splitOn e).flatten.length := by
      rw [← List.filterMap_eq_map]
      exact length_flatten_filterMap_le fun q w hw => Option.some.inj hw ▸ length_trim_le q
    calc (symbolsOf (some e) l).length
      _ ≤ ((l.splitOn e).map trim).flatten.length := length_filter_ne_nil_le _
      _ ≤ (l.splitOn e).flatten.length := htrim
      _ ≤ l.length := length_flatten_splitOn_le e l

theorem length_le_of_sequenceOf {d : Option Char} {l : List Char} {w : List String}
    (h : sequenceOf d l = some w) : w.length ≤ l.length := by
  obtain ⟨-, -, rfl⟩ := of_sequenceOf_eq_some h
  rw [List.length_map]
  exact Nat.le_trans (length_symbolsOf_le d _) (length_trim_le l)

/-- A character takes a byte or more. -/
theorem length_le_length_encode (l : List Char) : l.length ≤ (encode l).length := by
  induction l with
  | nil => exact Nat.le_refl 0
  | cons c l ih =>
    have hpos := c.utf8Size_pos
    rw [encode_cons, List.length_append, String.length_utf8EncodeChar, List.length_cons]
    omega

/-- **The symbols of an input** are no more than its bytes. -/
theorem length_flatten_le_of_read {d : Option Char} {i : Input} {ws : List (List String)}
    (h : read d i = .ok ws) : ws.flatten.length ≤ i.bytes.length := by
  obtain ⟨l, rfl⟩ := exists_text_of_read h
  obtain rfl : (l.splitOn '\n').filterMap (sequenceOf d) = ws :=
    Except.ok.inj ((read_ofText d l).symm.trans h)
  calc ((l.splitOn '\n').filterMap (sequenceOf d)).flatten.length
    _ ≤ (l.splitOn '\n').flatten.length :=
        length_flatten_filterMap_le fun _ _ => length_le_of_sequenceOf
    _ ≤ l.length := length_flatten_splitOn_le '\n' l
    _ ≤ (Input.ofText l).bytes.length := length_le_length_encode l

end Sample

end ChainGrammar

import ChainGrammar.Sample.Random
import ChainGrammar.Proofs.Draws

/-!
# Random samples stay in range

Lengths and letters are drawn as indices up to a bound, so that a letter is never looked up beyond
the end of its table. What fits the request is what can be drawn.

* `Sample.alphabet`, `Sample.letters_eq`: the letters to draw from.
* `Sample.Fits`: the samples that a request allows.
* `Sample.randomSymbols_ok`, `Sample.randomSequences_ok`: what is drawn fits.
* `Sample.exists_words_symbols`, `Sample.exists_words_sequences`: what fits is drawn from some
  words.
* `Sample.random_fits`: **drawing gives the samples that fit the request**, and no others.
-/

namespace ChainGrammar.Sample

variable {table : Array String} {k n high i : Nat} {s s' s'' : RandomSource} {x : String}
  {w : List String} {ws : List (List String)}

/-! ## Letters -/

/-- The lower case letters. -/
def alphabet : List String := "abcdefghijklmnopqrstuvwxyz".toList.map String.singleton

theorem size_letters (k : Nat) : (letters k).size = k := by
  rw [letters, List.size_toArray, List.length_map, List.length_range]

theorem letters_eq (hk : k ≤ 26) : (letters k).toList = alphabet.take k := by
  have hall : alphabet = (List.range 26).map fun i =>
      String.singleton (Char.ofNat ('a'.toNat + i)) := by decide
  rw [letters, hall, ← List.map_take, List.take_range, Nat.min_eq_left hk]

/-- The samples that a request allows: as many sequences as were asked for, none of them too long,
over the first letters of the alphabet. -/
structure Fits (sequences symbols maxLength : Nat) (ws : List (List String)) : Prop where
  length_eq : ws.length = sequences
  length_le : ∀ w ∈ ws, w.length ≤ maxLength
  mem_alphabet : ∀ w ∈ ws, ∀ x ∈ w, x ∈ alphabet.take symbols

/-! ## What is drawn -/

theorem randomSymbols_succ (hi : s.indexUpTo (table.size - 1) = (i, s')) (hx : table[i]? = some x)
    (hw : randomSymbols table n s' = .ok (w, s'')) :
    randomSymbols table (n + 1) s = .ok (x :: w, s'') := by
  simp only [randomSymbols, hi, hx, hw]
  rfl

theorem randomSequences_succ (hn : s.indexUpTo high = (i, s')) {s₁ : RandomSource}
    (hw : randomSymbols table i s' = .ok (w, s₁))
    (hws : randomSequences table high n s₁ = .ok (ws, s'')) :
    randomSequences table high (n + 1) s = .ok (w :: ws, s'') := by
  simp only [randomSequences, hn, hw, hws, bind, Except.bind]
  rfl

/-- **No letter is looked up beyond the end** of a table that is not empty. -/
theorem randomSymbols_ok (htable : 0 < table.size) (n : Nat) (s : RandomSource) :
    ∃ w s', randomSymbols table n s = .ok (w, s') ∧ w.length = n ∧ ∀ x ∈ w, x ∈ table := by
  induction n generalizing s with
  | zero => exact ⟨[], s, rfl, rfl, fun x hx => absurd hx List.not_mem_nil⟩
  | succ n ih =>
    have hlt := RandomSource.indexUpTo_lt htable s
    obtain ⟨w, s', hw, hlen, hmem⟩ := ih (s.indexUpTo (table.size - 1)).2
    refine ⟨_, s', randomSymbols_succ rfl (Array.getElem?_eq_getElem hlt) hw, ?_, ?_⟩
    · rw [List.length_cons, hlen]
    · exact List.forall_mem_cons.2 ⟨Array.getElem_mem hlt, hmem⟩

theorem randomSequences_ok (htable : 0 < table.size) (high n : Nat) (s : RandomSource) :
    ∃ ws s', randomSequences table high n s = .ok (ws, s') ∧ ws.length = n ∧
      ∀ w ∈ ws, w.length ≤ high ∧ ∀ x ∈ w, x ∈ table := by
  induction n generalizing s with
  | zero => exact ⟨[], s, rfl, rfl, fun w hw => absurd hw List.not_mem_nil⟩
  | succ n ih =>
    have hle := RandomSource.indexUpTo_le high s
    obtain ⟨w, s₁, hw, hwlen, hwmem⟩ :=
      randomSymbols_ok htable (s.indexUpTo high).1 (s.indexUpTo high).2
    obtain ⟨ws, s', hws, hlen, hmem⟩ := ih s₁
    refine ⟨_, s', randomSequences_succ rfl hw hws, ?_, ?_⟩
    · rw [List.length_cons, hlen]
    · exact List.forall_mem_cons.2 ⟨⟨hwlen.trans_le hle, hwmem⟩, hmem⟩

/-! ## What can be drawn -/

/-- Every sequence over the letters of a table is drawn from some words. -/
theorem exists_words_symbols (hsize : table.size ≤ WordWidth.full.size) (hw : ∀ x ∈ w, x ∈ table) :
    ∃ words : List UInt64, ∀ s : RandomSource, s.Yields words →
      randomSymbols table w.length s = .ok (w, s.skip words.length) := by
  induction w with
  | nil => exact ⟨[], fun s _ => rfl⟩
  | cons x w ih =>
    obtain ⟨hx, hw⟩ := List.forall_mem_cons.1 hw
    obtain ⟨i, hlt, hi⟩ := Array.getElem_of_mem hx
    obtain ⟨words, hwords⟩ := ih hw
    have hle : i ≤ table.size - 1 := Nat.le_sub_one_of_lt hlt
    obtain ⟨first, hfirst⟩ := RandomSource.exists_words_indexUpTo hle (by omega)
    refine ⟨first ++ words, fun s hs => ?_⟩
    obtain ⟨hs₁, hs₂⟩ := RandomSource.yields_append hs
    rw [List.length_append, ← RandomSource.skip_skip]
    exact randomSymbols_succ (hfirst s hs₁) (Array.getElem?_eq_some_iff.2 ⟨hlt, hi⟩)
      (hwords _ hs₂)

/-- All sequences over the letters of a table that are not too long are drawn from some words. -/
theorem exists_words_sequences (hsize : table.size ≤ WordWidth.full.size)
    (hhigh : high < WordWidth.full.size)
    (hws : ∀ w ∈ ws, w.length ≤ high ∧ ∀ x ∈ w, x ∈ table) :
    ∃ words : List UInt64, ∀ s : RandomSource, s.Yields words →
      randomSequences table high ws.length s = .ok (ws, s.skip words.length) := by
  induction ws with
  | nil => exact ⟨[], fun s _ => rfl⟩
  | cons w ws ih =>
    obtain ⟨⟨hlen, hw⟩, hws⟩ := List.forall_mem_cons.1 hws
    obtain ⟨first, hfirst⟩ := RandomSource.exists_words_indexUpTo hlen hhigh
    obtain ⟨symbols, hsymbols⟩ := exists_words_symbols hsize hw
    obtain ⟨words, hwords⟩ := ih hws
    refine ⟨first ++ (symbols ++ words), fun s hs => ?_⟩
    obtain ⟨hs₁, hs⟩ := RandomSource.yields_append hs
    obtain ⟨hs₂, hs₃⟩ := RandomSource.yields_append hs
    rw [List.length_append, List.length_append, ← RandomSource.skip_skip,
      ← RandomSource.skip_skip]
    exact randomSequences_succ (hfirst s hs₁) (hsymbols _ hs₂) (hwords _ hs₃)

/-- **Drawing gives the samples that fit the request.** Whatever the words, there are as many
sequences as asked for, none is too long, and all symbols are among the first letters of the
alphabet; no index that is drawn is beyond the end of the table of letters. And every such sample is
drawn from some words, if there is a word for every length. -/
theorem random_fits (sequences maxLength : Nat) {symbols : Nat} (hone : 1 ≤ symbols)
    (hletters : symbols ≤ 26) :
    (∀ s, ∃ ws s', random sequences symbols maxLength s = .ok (ws, s') ∧
      Fits sequences symbols maxLength ws) ∧
    (∀ s : RandomSource,
      (s.indexUpTo ((letters symbols).size - 1)).1 < (letters symbols).size) ∧
    (maxLength < WordWidth.full.size → ∀ ws, Fits sequences symbols maxLength ws →
      ∃ words s', random sequences symbols maxLength (.cycle words) = .ok (ws, s')) := by
  have hsize : (letters symbols).size = symbols := size_letters symbols
  have htable : 0 < (letters symbols).size := by omega
  have hmem : ∀ x, x ∈ letters symbols ↔ x ∈ alphabet.take symbols := fun x => by
    rw [← letters_eq hletters, Array.mem_toList_iff]
  simp only [random, if_pos (And.intro hone hletters)]
  refine ⟨fun s => ?_, RandomSource.indexUpTo_lt htable, ?_⟩
  · obtain ⟨ws, s', hws, hlen, hfits⟩ := randomSequences_ok htable maxLength sequences s
    exact ⟨ws, s', hws, hlen, fun w hw => (hfits w hw).1,
      fun w hw x hx => (hmem x).1 ((hfits w hw).2 x hx)⟩
  · rintro hmax ws ⟨rfl, hle, hin⟩
    have hfull : (letters symbols).size ≤ WordWidth.full.size :=
      hsize.trans_le (hletters.trans (by decide))
    obtain ⟨words, hwords⟩ := exists_words_sequences hfull hmax
      fun w hw => ⟨hle w hw, fun x hx => (hmem x).2 (hin w hw x hx)⟩
    exact ⟨words.toArray, _, hwords _ (RandomSource.yields_cycle words)⟩

/-- Words of which the first one leaves open whether the length is 0 or 1, and the second one adds a
carry to it. -/
def carryWords : Array UInt64 := #[1431655765, 4294967295, 4294967295, 0]

theorem random_fits_carry :
    1 ≤ 26 ∧ 26 ≤ 26 ∧ 2 < WordWidth.full.size ∧
      (random 2 26 2 (.cycle carryWords)).map Prod.fst = .ok [["z"], []] ∧
      Fits 2 26 2 [["z"], []] ∧ Fits 2 26 2 [["b"], ["c", "a"]] ∧
      ∃ words s', random 2 26 2 (.cycle words) = .ok ([["b"], ["c", "a"]], s') := by
  obtain ⟨hdrawn, -, hall⟩ := random_fits 2 2 (show 1 ≤ 26 by decide) le_rfl
  have hrun : (random 2 26 2 (.cycle carryWords)).map Prod.fst = .ok [["z"], []] := rfl
  obtain ⟨ws, s', hws, hfits⟩ := hdrawn (.cycle carryWords)
  obtain rfl : ws = [["z"], []] := by
    rw [hws] at hrun
    exact Except.ok.inj hrun
  have hother : Fits 2 26 2 [["b"], ["c", "a"]] := ⟨rfl, by decide, by decide⟩
  exact ⟨by decide, le_rfl, by decide, hrun, hfits, hother, hall (by decide) _ hother⟩

end ChainGrammar.Sample

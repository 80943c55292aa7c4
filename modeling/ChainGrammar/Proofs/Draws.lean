import Mathlib.Algebra.Order.Ring.Nat
import Mathlib.Tactic.Ring
import ChainGrammar.RandomSource

/-!
# The number that is drawn

A draw takes a second word only where the first one leaves the number open. The number is the same
as if both words were always read, as one word of twice the width: times the size of the range, its
integer part is the number. So the carry from the second word cannot lead out of the range, and
every number in the range can be drawn.

* `RandomSource.scaled`: the number that a word of twice the width gives.
* `RandomSource.upTo_eq`: **the number drawn, and the words taken**.
* `RandomSource.upTo_le`, `RandomSource.indexUpTo_lt`: the number drawn is at most the bound.
* `RandomSource.Yields`: the next words of a source.
* `RandomSource.exists_words_upTo`, `RandomSource.exists_words_indexUpTo`: **every number up to the
  bound** is drawn from some words.
-/

namespace ChainGrammar

theorem WordWidth.size_pos (width : WordWidth) : 0 < width.size := by
  cases width <;> decide

theorem WordWidth.size_le_full (width : WordWidth) : width.size ≤ WordWidth.full.size := by
  cases width <;> decide

namespace RandomSource

variable {width : WordWidth} {high size range first second n t : Nat} {s : RandomSource}

/-! ## Two words as one -/

/-- The number below `range` that two words of the given size give, read as one word. -/
def scaled (size range first second : Nat) : Nat :=
  (first * size + second) * range / (size * size)

/-- The second word adds the integer part of its own product to the fraction of the first one. -/
theorem scaled_eq (hsize : 0 < size) : scaled size range first second =
    first * range / size + (first * range % size + second * range / size) / size := by
  have hproduct : (first * size + second) * range = second * range + first * range * size := by
    ring
  have hsplit : second * range / size + first * range =
      first * range % size + second * range / size + size * (first * range / size) := by
    have hwhole := Nat.mod_add_div (first * range) size
    omega
  rw [scaled, ← Nat.div_div_eq_div_mul, hproduct, Nat.add_mul_div_right _ _ hsize, hsplit,
    Nat.add_mul_div_left _ _ hsize, Nat.add_comm]

theorem mul_div_lt (hword : second < size) (hrange : 0 < range) : second * range / size < range :=
  Nat.div_lt_of_lt_mul (Nat.mul_lt_mul_of_pos_right hword hrange)

/-- **No carry leads out of the range.** -/
theorem scaled_lt (hfirst : first < size) (hsecond : second < size) (hrange : 0 < range) :
    scaled size range first second < range := by
  have hword : first * size + second < size * size := by
    calc first * size + second < (first + 1) * size := by rw [Nat.add_mul]; omega
      _ ≤ size * size := Nat.mul_le_mul_right size hfirst
  exact mul_div_lt hword hrange

/-- A fraction that is small enough leaves no room for a carry, whatever the second word. -/
theorem scaled_eq_whole (hsecond : second < size) (hrange : 0 < range) (hle : range ≤ size)
    (hfraction : first * range % size ≤ size - range) :
    scaled size range first second = first * range / size := by
  have hmore := mul_div_lt hsecond hrange
  have hnone : (first * range % size + second * range / size) / size = 0 :=
    Nat.div_eq_of_lt (by omega)
  rw [scaled_eq (by omega), hnone, Nat.add_zero]

/-- The carry is at most one. -/
theorem scaled_eq_carry (hsecond : second < size) (hrange : 0 < range) (hle : range ≤ size) :
    scaled size range first second =
      if size ≤ first * range % size + second * range / size then first * range / size + 1
      else first * range / size := by
  have hmore := mul_div_lt hsecond hrange
  have hfraction : first * range % size < size := Nat.mod_lt _ (by omega)
  have hcarry : (first * range % size + second * range / size) / size =
      if size ≤ first * range % size + second * range / size then 1 else 0 := by
    split
    · exact Nat.div_eq_of_lt_le (by omega) (by omega)
    · exact Nat.div_eq_of_lt (by omega)
  rw [scaled_eq (by omega), hcarry]
  split <;> rfl

/-! ## Draws -/

/-- What a draw of the given width would see in the word that comes after the next `i`. -/
def peek (width : WordWidth) (i : Nat) (s : RandomSource) : Nat :=
  (s.word (s.drawn + i)).toNat % width.size

/-- The source with `n` more words taken. -/
def skip (n : Nat) (s : RandomSource) : RandomSource := { s with drawn := s.drawn + n }

theorem take_eq : s.take width = (s.peek width 0, s.skip 1) := rfl

theorem peek_skip_one : (s.skip 1).peek width 0 = s.peek width 1 := rfl

theorem skip_skip (m : Nat) : (s.skip n).skip m = s.skip (n + m) := by
  rw [skip, skip, skip, Nat.add_assoc]

theorem peek_lt (i : Nat) : s.peek width i < width.size := Nat.mod_lt _ width.size_pos

/-- **The number drawn** is the one that two words give as one, or the word itself if all words are
in the range. The second word is taken only if the fraction leaves room for a carry. -/
theorem upTo_eq (width : WordWidth) (high : Nat) (s : RandomSource) : s.upTo width high =
    if (high + 1) % width.size = 0 then (s.peek width 0, s.skip 1)
    else (scaled width.size ((high + 1) % width.size) (s.peek width 0) (s.peek width 1),
      s.skip (if width.size - (high + 1) % width.size <
        s.peek width 0 * ((high + 1) % width.size) % width.size then 2 else 1)) := by
  simp only [upTo, take_eq, peek_skip_one, skip_skip]
  split
  · rfl
  · next hrange =>
    have hpos := Nat.pos_of_ne_zero hrange
    have hle : (high + 1) % width.size ≤ width.size := (Nat.mod_lt _ width.size_pos).le
    split
    · rw [scaled_eq_carry (peek_lt 1) hpos hle]
    · next hfraction => rw [scaled_eq_whole (peek_lt 1) hpos hle (Nat.not_lt.1 hfraction)]

/-- **A number that is drawn is at most the bound**, for words of either width, also if all words
are in the range. -/
theorem upTo_le (width : WordWidth) (high : Nat) (s : RandomSource) :
    (s.upTo width high).1 ≤ high := by
  rw [upTo_eq]
  split
  · next hrange =>
    have hword : s.peek width 0 < width.size := peek_lt 0
    have hsize : width.size ≤ high + 1 :=
      Nat.le_of_dvd (Nat.succ_pos high) (Nat.dvd_of_mod_eq_zero hrange)
    exact Nat.le_of_lt_succ (Nat.lt_of_lt_of_le hword hsize)
  · next hrange =>
    have hlt : scaled width.size ((high + 1) % width.size) (s.peek width 0) (s.peek width 1) <
        (high + 1) % width.size := scaled_lt (peek_lt 0) (peek_lt 1) (Nat.pos_of_ne_zero hrange)
    have hle := Nat.mod_le (high + 1) width.size
    exact Nat.le_of_lt_succ (Nat.lt_of_lt_of_le hlt hle)

theorem indexUpTo_le (high : Nat) (s : RandomSource) : (s.indexUpTo high).1 ≤ high :=
  upTo_le _ high s

/-- An index into a table that is not empty. -/
theorem indexUpTo_lt (hn : 0 < n) (s : RandomSource) : (s.indexUpTo (n - 1)).1 < n := by
  have hle := indexUpTo_le (n - 1) s
  omega

/-! ## Words for every number -/

/-- The next words of the source are the given ones. -/
def Yields (s : RandomSource) (words : List UInt64) : Prop :=
  ∀ (i : Nat) (w : UInt64), words[i]? = some w → s.word (s.drawn + i) = w

theorem yields_append {k l : List UInt64} (h : s.Yields (k ++ l)) :
    s.Yields k ∧ (s.skip k.length).Yields l := by
  refine ⟨fun i w hi => h i w ?_, fun i w hi => ?_⟩
  · rw [List.getElem?_append_left (List.getElem?_eq_some_iff.1 hi).1, hi]
  · rw [skip, Nat.add_assoc]
    refine h _ w ?_
    rw [List.getElem?_append_right (Nat.le_add_right ..), Nat.add_sub_cancel_left, hi]

theorem yields_cycle (words : List UInt64) : (cycle words.toArray).Yields words := by
  intro i w hi
  obtain ⟨hlt, -⟩ := List.getElem?_eq_some_iff.1 hi
  simp [cycle, Nat.mod_eq_of_lt hlt, hi]

/-- The number whose word comes next is seen by a draw of a width that holds it. -/
theorem peek_of_yields {words : List UInt64} {i m : Nat} (h : s.Yields words)
    (hi : words[i]? = some (UInt64.ofNat m)) (hm : m < width.size) : s.peek width i = m := by
  have hfull : m < UInt64.size := Nat.lt_of_lt_of_le hm width.size_le_full
  rw [peek, h i _ hi, UInt64.toNat_ofNat_of_lt' hfull, Nat.mod_eq_of_lt hm]

/-- Every number in the range is given by two words: those of the least word of twice the width
whose product with the range does not fall short of it. -/
theorem exists_scaled (ht : t < range) (hle : range ≤ size) :
    ∃ first second, first < size ∧ second < size ∧ scaled size range first second = t := by
  have hsize : 0 < size := by omega
  have hsquare : size ≤ size * size := Nat.le_mul_of_pos_left size hsize
  set d := (t * (size * size) + (range - 1)) / range
  have hle_d : t * (size * size) ≤ d * range := by
    have hceil : t * (size * size) + (range - 1) < range * (d + 1) :=
      Nat.lt_mul_div_succ _ (by omega)
    rw [Nat.mul_add, Nat.mul_comm range] at hceil
    omega
  have hd_lt : d * range < (t + 1) * (size * size) := by
    have hfloor : d * range ≤ t * (size * size) + (range - 1) := Nat.div_mul_le_self _ range
    rw [Nat.add_mul]
    omega
  have hd : d < size * size := by
    refine Nat.lt_of_mul_lt_mul_right (a := range) ?_
    calc d * range < (t + 1) * (size * size) := hd_lt
      _ ≤ range * (size * size) := Nat.mul_le_mul_right _ ht
      _ = size * size * range := Nat.mul_comm ..
  refine ⟨d / size, d % size, Nat.div_lt_of_lt_mul hd, Nat.mod_lt d hsize, ?_⟩
  rw [scaled, Nat.div_add_mod']
  exact Nat.div_eq_of_lt_le hle_d hd_lt

/-- **Every number up to the bound** is drawn from one or two words, if there are words for all. -/
theorem exists_words_upTo (ht : t ≤ high) (hhigh : high < width.size) :
    ∃ words : List UInt64, ∀ s : RandomSource, s.Yields words →
      s.upTo width high = (t, s.skip words.length) := by
  rcases Nat.eq_or_lt_of_le (show high + 1 ≤ width.size from hhigh) with hall | hlt
  · refine ⟨[UInt64.ofNat t], fun s hs => ?_⟩
    rw [upTo_eq, if_pos (by rw [hall, Nat.mod_self]), peek_of_yields hs rfl (by omega)]
    rfl
  · obtain ⟨first, second, hfirst, hsecond, hscaled⟩ :=
      exists_scaled (Nat.lt_succ_of_le ht) hlt.le
    have hrange : (high + 1) % width.size = high + 1 := Nat.mod_eq_of_lt hlt
    -- the second word is left out where it is not looked at
    by_cases hopen : width.size - (high + 1) < first * (high + 1) % width.size
    · refine ⟨[UInt64.ofNat first, UInt64.ofNat second], fun s hs => ?_⟩
      rw [upTo_eq, hrange, if_neg (Nat.succ_ne_zero high), peek_of_yields hs rfl hfirst,
        peek_of_yields hs rfl hsecond, hscaled, if_pos hopen]
      rfl
    · refine ⟨[UInt64.ofNat first], fun s hs => ?_⟩
      have hwhole := scaled_eq_whole hsecond (Nat.succ_pos high) hlt.le (Nat.not_lt.1 hopen)
      rw [upTo_eq, hrange, if_neg (Nat.succ_ne_zero high), peek_of_yields hs rfl hfirst,
        scaled_eq_whole (peek_lt 1) (Nat.succ_pos high) hlt.le (Nat.not_lt.1 hopen), ← hwhole,
        hscaled, if_neg hopen]
      rfl

theorem exists_words_indexUpTo (ht : t ≤ high) (hhigh : high < WordWidth.full.size) :
    ∃ words : List UInt64, ∀ s : RandomSource, s.Yields words →
      s.indexUpTo high = (t, s.skip words.length) := by
  refine exists_words_upTo ht ?_
  rw [indexWidth]
  split
  · assumption
  · exact hhigh

end RandomSource

end ChainGrammar

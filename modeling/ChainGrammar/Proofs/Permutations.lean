import Mathlib.Data.Finset.Card
import Mathlib.Data.Finset.Range
import Std.Data.TreeSet.Lemmas
import ChainGrammar.Permutation

/-!
# Permutations are recognised

Only the bounds and the absence of a second hit are looked at. That every number is hit follows by
counting: `n` different numbers below `n` are all of them.

* `allFresh_iff`: what the hits so far mean for the numbers that are left.
* `isPermutation_iff`: **a permutation of the numbers below `n`** stays below `n` and hits no
  number twice.
* `isPermutation_iff_bijOn`, `bijOn_iff_existsUnique`: such a map is one to one onto the numbers
  below `n`, and this is to hit each of them once.
* `Marks.allUnmarked_eq`: a table that marks the numbers hit so far does as well as the set of them.
* `isPermutation_exact`: **the test is exact**, and the table of marks is used within its bounds.
-/

namespace ChainGrammar

variable {f : Nat → Nat} {n k t : Nat} {hit : Std.TreeSet Nat} {marks : Array Bool}

/-- The last `k` numbers below `n` go to numbers below `n`, all of them different and none of them
hit before. -/
theorem allFresh_iff (hk : k ≤ n) :
    allFresh f n k hit = true ↔ (∀ i, n - k ≤ i → i < n → f i < n ∧ f i ∉ hit) ∧
      ∀ i j, n - k ≤ i → i < j → j < n → f i ≠ f j := by
  induction k generalizing hit with
  | zero =>
    simp only [allFresh, true_iff]
    constructor <;> intros <;> omega
  | succ k ih =>
    have ih := @ih (hit.insert (f (n - (k + 1)))) (by omega)
    have hmem : ∀ t, t ∈ hit.insert (f (n - (k + 1))) ↔ f (n - (k + 1)) = t ∨ t ∈ hit := fun t => by
      rw [Std.TreeSet.mem_insert, Std.LawfulEqCmp.compare_eq_iff_eq]
    simp only [allFresh, Bool.and_eq_true, decide_eq_true_eq, Bool.not_eq_true',
      ← Bool.not_eq_true, Std.TreeSet.contains_iff_mem, ih, hmem, not_or]
    -- the first number is compared with the later ones through the set of hits
    constructor
    · rintro ⟨⟨hlt, hnew⟩, hrest, hne⟩
      refine ⟨fun i hi hin => ?_, fun i j hi hij hj => ?_⟩
      · rcases Nat.eq_or_lt_of_le hi with rfl | hi
        · exact ⟨hlt, hnew⟩
        · obtain ⟨h1, -, h2⟩ := hrest i (by omega) hin
          exact ⟨h1, h2⟩
      · rcases Nat.eq_or_lt_of_le hi with rfl | hi
        · exact (hrest j (by omega) hj).2.1
        · exact hne i j (by omega) hij hj
    · rintro ⟨hrest, hne⟩
      refine ⟨hrest _ (Nat.le_refl _) (by omega), fun i hi hin => ?_, fun i j hi hij hj => ?_⟩
      · obtain ⟨h1, h2⟩ := hrest i (by omega) hin
        exact ⟨h1, hne _ i (Nat.le_refl _) (by omega) hin, h2⟩
      · exact hne i j (by omega) hij hj

/-- **A permutation** of the numbers below `n` stays below `n` and hits no number twice. -/
theorem isPermutation_iff : isPermutation f n = true ↔
    (∀ i < n, f i < n) ∧ ∀ i j, i < j → j < n → f i ≠ f j := by
  rw [isPermutation, allFresh_iff (Nat.le_refl n)]
  simp only [Nat.sub_self, Nat.zero_le, true_implies, Std.TreeSet.not_mem_emptyc, not_false_eq_true,
    and_true]

/-! ## All numbers are hit -/

theorem injOn_iff_of_lt :
    Set.InjOn f (Set.Iio n) ↔ ∀ i j, i < j → j < n → f i ≠ f j := by
  constructor
  · intro hinj i j hij hj heq
    exact Nat.ne_of_lt hij (hinj (Nat.lt_trans hij hj) hj heq)
  · intro hne i hi j hj heq
    rcases Nat.lt_trichotomy i j with hij | rfl | hji
    · exact absurd heq (hne i j hij hj)
    · rfl
    · exact absurd heq.symm (hne j i hji hi)

/-- **Counting**: a map of the numbers below `n` into themselves that hits no number twice hits all
of them. -/
theorem surjOn_of_injOn (hmaps : Set.MapsTo f (Set.Iio n) (Set.Iio n))
    (hinj : Set.InjOn f (Set.Iio n)) : Set.SurjOn f (Set.Iio n) (Set.Iio n) := by
  rw [← Finset.coe_range] at *
  exact Finset.surjOn_of_injOn_of_card_le f hmaps hinj le_rfl

theorem isPermutation_iff_bijOn :
    isPermutation f n = true ↔ Set.BijOn f (Set.Iio n) (Set.Iio n) := by
  rw [isPermutation_iff, ← injOn_iff_of_lt]
  constructor
  · rintro ⟨hlt, hinj⟩
    exact ⟨hlt, hinj, surjOn_of_injOn hlt hinj⟩
  · rintro ⟨hmaps, hinj, -⟩
    exact ⟨hmaps, hinj⟩

/-- To hit each number below `n` once is to stay below `n`, too. -/
theorem bijOn_iff_existsUnique :
    Set.BijOn f (Set.Iio n) (Set.Iio n) ↔ ∀ t < n, ∃! i, i < n ∧ f i = t := by
  constructor
  · rintro ⟨-, hinj, hsurj⟩ t ht
    obtain ⟨i, hi, rfl⟩ := hsurj ht
    exact ⟨i, ⟨hi, rfl⟩, fun j hj => hinj hj.1 hi hj.2⟩
  · intro hone
    have hsurj : Set.SurjOn f (Set.Iio n) (Set.Iio n) := by
      intro t ht
      obtain ⟨i, hi, -⟩ := hone t ht
      exact ⟨i, hi⟩
    -- a choice of what hits each number is one to one, so it meets all numbers below `n`
    choose! g hlt hfg using fun t ht => (hone t ht).exists
    have hgmaps : Set.MapsTo g (Set.Iio n) (Set.Iio n) := hlt
    have hginj : Set.InjOn g (Set.Iio n) := by
      intro t ht u hu heq
      rw [← hfg t ht, heq, hfg u hu]
    have hmaps : Set.MapsTo f (Set.Iio n) (Set.Iio n) := by
      intro i hi
      obtain ⟨t, ht, rfl⟩ := surjOn_of_injOn hgmaps hginj hi
      rw [hfg t ht]
      exact ht
    exact ⟨hmaps, fun i hi j hj heq => (hone (f i) (hmaps hi)).unique ⟨hi, rfl⟩ ⟨hj, heq.symm⟩,
      hsurj⟩

/-! ## A table of marks -/

/-- The table has a mark for every number below `n`, which says whether the number is in the set. -/
structure Marks (n : Nat) (marks : Array Bool) (hit : Std.TreeSet Nat) : Prop where
  size_eq : marks.size = n
  getElem?_eq : ∀ t < n, marks[t]? = some (hit.contains t)

theorem marks_replicate : Marks n (Array.replicate n false) ∅ where
  size_eq := Array.size_replicate
  getElem?_eq t ht := by
    rw [Array.getElem?_replicate, if_pos ht, Std.TreeSet.contains_emptyc]

/-- Setting a mark adds the number to the set. -/
theorem Marks.insert (h : Marks n marks hit) (t : Nat) :
    Marks n (marks.setIfInBounds t true) (hit.insert t) where
  size_eq := Array.size_setIfInBounds.trans h.size_eq
  getElem?_eq u hu := by
    rw [Array.getElem?_setIfInBounds, h.size_eq, h.getElem?_eq u hu]
    split
    · next htu =>
      subst htu
      rw [if_pos hu, Std.TreeSet.contains_insert_self]
    · next htu =>
      rw [Std.TreeSet.contains_insert, beq_false_of_ne (mt Std.LawfulEqCmp.eq_of_compare htu),
        Bool.false_or]

/-- **Marks do as well** as the set of the numbers hit so far, and there is no fault: a mark is
looked up and set only for a number below `n`. -/
theorem Marks.allUnmarked_eq (h : Marks n marks hit) :
    allUnmarked f n k marks = .ok (allFresh f n k hit) := by
  induction k generalizing marks hit with
  | zero => rfl
  | succ k ih =>
    simp only [allUnmarked, allFresh]
    split
    · next hle => simp [Nat.not_lt.2 hle]
    · next hlt =>
      have hlt := Nat.not_le.1 hlt
      rw [entry_eq_ok (h.getElem?_eq _ hlt), ok_bind,
        setEntry_eq_ok (hlt.trans_eq h.size_eq.symm), ok_bind, ih (h.insert _)]
      cases hit.contains (f (n - (k + 1))) <;> simp [hlt]

/-- **The test is exact.** A map is accepted if and only if it is one to one from the numbers below
`n` onto themselves, which is to hit each of them exactly once. With a table of marks the answer is
the same, and whatever the map gives, no mark beyond the end of the table is looked up or set. -/
theorem isPermutation_exact (f : Nat → Nat) (n : Nat) :
    (isPermutation f n = true ↔ Set.BijOn f (Set.Iio n) (Set.Iio n)) ∧
      (isPermutation f n = true ↔ ∀ t < n, ∃! i, i < n ∧ f i = t) ∧
      markPermutation f n = .ok (isPermutation f n) :=
  ⟨isPermutation_iff_bijOn, isPermutation_iff_bijOn.trans bijOn_iff_existsUnique,
    marks_replicate.allUnmarked_eq⟩

/-- A number beyond all others is turned away before it is looked up. -/
example : markPermutation (fun i => [2, 0, 1][i]?.getD 18446744073709551615) 3 = .ok true ∧
    markPermutation (fun i => [2, 0, 1][i]?.getD 18446744073709551615) 4 = .ok false := by decide

end ChainGrammar

import Mathlib.Algebra.Group.Nat.Defs
import Mathlib.Data.Finset.Card
import Mathlib.Data.Finset.Range
import ChainGrammar.Proofs.Numbering

/-!
# Partitions that are built

The number of blocks is held beside the block numbers, and nothing in the type ties the two
together. They fit in every partition that is built by the operations: the numbers in use are those
below the number of blocks.

* `Partition.ofNumbers_eq`: which numbers are accepted, and the faults of the others.
* `Partition.Built`: the partitions that the operations give, starting from nothing.
* `Partition.Built.dense`: **no block is empty** in such a partition.
* `Partition.ListsBlocks`: lists of the elements of all blocks.
* `Partition.built_dense`: **the numbers fit the number of blocks**, and the blocks can be listed.
* `Partition.normalise_canonical`: **the normal form** depends on the blocks alone.
-/

namespace ChainGrammar.Partition

/-- The partitions that the operations give, starting from nothing. -/
inductive Built : Partition → Prop
  /-- All elements in one block. -/
  | whole (n : Nat) : Built (whole n)
  /-- Given block numbers that are accepted. -/
  | ofNumbers {l : List Nat} {p : Partition} (h : ofNumbers l = .ok p) : Built p
  /-- The blocks of a partition in the order of their least elements. -/
  | normalise {p q : Partition} (hp : Built p) (h : p.normalise = .ok q) : Built q
  /-- The blocks of a partition, merged along another one. -/
  | compose {p q r : Partition} (hp : Built p) (hq : Built q) (h : p.compose q = .ok r) : Built r

variable {p q r : Partition} {l : List Nat} {m : Array (List Nat)} {b k : Nat}

/-! ## Given numbers -/

theorem toFinset_eq_range_iff : l.toFinset = Finset.range k ↔ ∀ b, b ∈ l ↔ b < k := by
  simp [Finset.ext_iff]

/-- Numbers are without a gap if they are those below the number of different ones. -/
theorem isGapless_iff_range :
    isGapless l = true ↔ l.toFinset = Finset.range l.toFinset.card := by
  rw [isGapless_iff, toFinset_eq_range_iff]
  constructor
  · rintro ⟨-, hall⟩
    have hmem : ∀ b, b ∈ l ↔ b < bound l := fun b =>
      ⟨fun hb => lt_bound_iff.2 ⟨b, hb, Nat.le_refl b⟩, hall b⟩
    rw [toFinset_eq_range_iff.2 hmem, Finset.card_range]
    exact hmem
  · intro hmem
    rw [bound_eq hmem]
    exact ⟨List.toFinset_card_le l, fun b hb => (hmem b).2 hb⟩

/-- **What becomes of given numbers.** The largest 64-bit number is looked for first. Without it the
numbers are accepted if they are those below the number of different ones. -/
theorem ofNumbers_eq (l : List Nat) : ofNumbers l =
    if lastNumber ∈ l then .error .blockOverflow
    else if l.toFinset = Finset.range l.toFinset.card then .ok ⟨l, l.toFinset.card⟩
    else .error (.notDense l) := by
  rw [ofNumbers]
  split
  · rfl
  · by_cases hl : l.toFinset = Finset.range l.toFinset.card
    · rw [if_pos (isGapless_iff_range.2 hl), if_pos hl, bound_eq (toFinset_eq_range_iff.1 hl)]
    · rw [if_neg (mt isGapless_iff_range.1 hl), if_neg hl]

theorem ofNumbers_eq_blockOverflow_iff : ofNumbers l = .error .blockOverflow ↔ lastNumber ∈ l := by
  rw [ofNumbers_eq]
  split
  · next hlast => simp [hlast]
  · next hlast => split <;> simp [hlast]

theorem ofNumbers_eq_notDense_iff : ofNumbers l = .error (.notDense l) ↔
    lastNumber ∉ l ∧ l.toFinset ≠ Finset.range l.toFinset.card := by
  rw [ofNumbers_eq]
  by_cases hlast : lastNumber ∈ l
  · simp [hlast]
  · by_cases hl : l.toFinset = Finset.range l.toFinset.card
    · rw [if_neg hlast, if_pos hl]
      exact ⟨fun h => (nomatch h), fun h => absurd hl h.2⟩
    · rw [if_neg hlast, if_neg hl]
      exact ⟨fun _ => ⟨hlast, hl⟩, fun _ => rfl⟩

theorem of_ofNumbers (h : ofNumbers l = .ok p) :
    l.toFinset = Finset.range l.toFinset.card ∧ p = ⟨l, l.toFinset.card⟩ := by
  rw [ofNumbers_eq] at h
  split at h
  · cases h
  · split at h
    · next hl => exact ⟨hl, (Except.ok.inj h).symm⟩
    · cases h

/-- The largest 64-bit number is not among numbers without a gap that fit into memory. -/
theorem lastNumber_notMem (hlen : l.length < 2 ^ 63)
    (hl : l.toFinset = Finset.range l.toFinset.card) : lastNumber ∉ l := by
  intro hlast
  have hlt := (toFinset_eq_range_iff.1 hl lastNumber).1 hlast
  have hcard := List.toFinset_card_le l
  unfold lastNumber at hlt
  omega

/-! ## No block is empty -/

theorem dense_whole (n : Nat) : (whole n).Dense := by
  intro b
  simp only [whole, List.mem_replicate]
  omega

theorem dense_of_ofNumbers (h : ofNumbers l = .ok p) : p.Dense := by
  obtain ⟨hl, rfl⟩ := of_ofNumbers h
  exact toFinset_eq_range_iff.1 hl

theorem Dense.normalise (hp : p.Dense) (h : p.normalise = .ok q) : q.Dense := by
  obtain ⟨q', hq', -, hd, -⟩ := normalise_ok fun b hb => (hp b).1 hb
  obtain rfl : q = q' := Except.ok.inj (h.symm.trans hq')
  exact hd

/-- What merging blocks gives when it succeeds. -/
theorem Dense.of_compose_eq_ok (hp : p.Dense) (h : p.compose q = .ok r) :
    q.size = p.count ∧ r.size = p.size ∧ r.count = q.count ∧
      ∀ x < p.size, r.number x = q.number (p.number x) := by
  have hs : q.size = p.count := by
    by_contra hs
    rw [compose, if_neg hs] at h
    cases h
  obtain ⟨r', hr', hr⟩ := compose_ok hp hs
  obtain rfl : r = r' := Except.ok.inj (h.symm.trans hr')
  exact ⟨hs, hr⟩

theorem Dense.compose (hp : p.Dense) (hq : q.Dense) (h : p.compose q = .ok r) : r.Dense := by
  obtain ⟨hs, hrs, hrc, hr⟩ := hp.of_compose_eq_ok h
  exact hp.of_compose hq hs hrs hrc hr

/-- **No block is empty** in a partition that was built. -/
theorem Built.dense (h : p.Built) : p.Dense := by
  induction h with
  | whole n => exact dense_whole n
  | ofNumbers h => exact dense_of_ofNumbers h
  | normalise _ h ih => exact ih.normalise h
  | compose _ _ h ihp ihq => exact ihp.compose ihq h

/-! ## Lists of the blocks -/

/-- The lists hold the elements of the blocks, one list for each block. -/
structure ListsBlocks (p : Partition) (m : Array (List Nat)) : Prop where
  size_eq : m.size = p.count
  /-- Every element is in one list and no other. -/
  unique : ∀ x < p.size, ∃! b : Nat, ∃ l, m[b]? = some l ∧ x ∈ l
  lt_size : ∀ (b : Nat) l, m[b]? = some l → ∀ x ∈ l, x < p.size
  ne_nil : ∀ (b : Nat) l, m[b]? = some l → l ≠ []
  increasing : ∀ (b : Nat) l, m[b]? = some l → l.Pairwise (· < ·)
  /-- The members of a block are its list, and there are none beyond the last block. -/
  members_eq : ∀ b : Nat, p.members b = m[b]?.getD []

theorem Dense.members_eq_nil (hd : p.Dense) (hb : p.count ≤ b) : p.members b = [] := by
  refine List.eq_nil_iff_forall_not_mem.2 fun x hmem => ?_
  obtain ⟨hx, rfl⟩ := mem_members.1 hmem
  exact Nat.not_lt.2 hb (hd.number_lt hx)

/-- The members of all blocks are lists of the blocks, if none is empty. -/
theorem Dense.listsBlocks (hd : p.Dense)
    (hget : ∀ b : Nat, m[b]? = if b < p.count then some (p.members b) else none) :
    p.ListsBlocks m := by
  have hlist : ∀ (b : Nat) l, m[b]? = some l ↔ b < p.count ∧ p.members b = l := by
    intro b l
    rw [hget]
    by_cases hb : b < p.count <;> simp [hb]
  refine ⟨?_, fun x hx => ?_, ?_, ?_, ?_, fun b => ?_⟩
  · have hnone : ∀ b, m.size ≤ b ↔ p.count ≤ b := by
      intro b
      rw [← Array.getElem?_eq_none_iff, hget]
      simp
    have h1 := hnone m.size
    have h2 := hnone p.count
    omega
  · refine ⟨p.number x, ⟨_, (hlist _ _).2 ⟨hd.number_lt hx, rfl⟩, mem_members.2 ⟨hx, rfl⟩⟩, ?_⟩
    rintro b ⟨l, hl, hxl⟩
    obtain ⟨-, rfl⟩ := (hlist b l).1 hl
    exact (mem_members.1 hxl).2.symm
  · intro b l hl x hx
    obtain ⟨-, rfl⟩ := (hlist b l).1 hl
    exact (mem_members.1 hx).1
  · intro b l hl
    obtain ⟨hb, rfl⟩ := (hlist b l).1 hl
    exact hd.members_ne_nil hb
  · intro b l hl
    obtain ⟨-, rfl⟩ := (hlist b l).1 hl
    exact pairwise_members p b
  · rw [hget]
    split
    · rfl
    · next hb => exact hd.members_eq_nil (Nat.le_of_not_lt hb)

/-- **The numbers fit the number of blocks.** Given numbers are accepted if and only if they are
those below the number of different ones, which is then the number of blocks. Otherwise they are
turned away for the largest 64-bit number, if it is among them, or for the gap. In every partition
that is built each element is in a block below the number of blocks and each of these blocks has an
element. So the blocks can be numbered anew and listed, and no look-up fails. -/
theorem built_dense :
    (∀ numbers : List Nat, numbers.length < 2 ^ 63 →
      ((∃ p, ofNumbers numbers = .ok p) ↔
        numbers.toFinset = Finset.range numbers.toFinset.card) ∧
      (∀ p, ofNumbers numbers = .ok p →
        p.numbers = numbers ∧ p.count = numbers.toFinset.card) ∧
      (ofNumbers numbers = .error .blockOverflow ↔ 2 ^ 64 - 1 ∈ numbers) ∧
      (ofNumbers numbers = .error (.notDense numbers) ↔ 2 ^ 64 - 1 ∉ numbers ∧
        numbers.toFinset ≠ Finset.range numbers.toFinset.card)) ∧
    ∀ p : Partition, p.Built →
      (∀ x < p.size, p.number x < p.count) ∧ (∀ b < p.count, ∃ x < p.size, p.number x = b) ∧
      (∃ q, p.normalise = .ok q) ∧ ∃ m, p.blocks = .ok m ∧ p.ListsBlocks m := by
  refine ⟨fun numbers hlen => ⟨⟨?_, fun hl => ?_⟩, ?_, ?_, ?_⟩, fun p hp => ?_⟩
  · rintro ⟨p, hp⟩
    exact (of_ofNumbers hp).1
  · refine ⟨⟨numbers, numbers.toFinset.card⟩, ?_⟩
    rw [ofNumbers_eq, if_neg (lastNumber_notMem hlen hl), if_pos hl]
  · intro p hp
    obtain ⟨-, rfl⟩ := of_ofNumbers hp
    exact ⟨rfl, rfl⟩
  · exact ofNumbers_eq_blockOverflow_iff
  · exact ofNumbers_eq_notDense_iff
  · have hd : p.Dense := hp.dense
    obtain ⟨q, hq, -⟩ := normalise_ok fun b hb => (hd b).1 hb
    obtain ⟨m, hm, hget⟩ := blocks_ok fun b hb => (hd b).1 hb
    exact ⟨fun x hx => hd.number_lt hx, fun b hb => hd.exists_number hb, ⟨q, hq⟩,
      m, hm, hd.listsBlocks hget⟩

/-- Merging the first and the last of three blocks leaves two, each with its list. -/
theorem built_dense_merged :
    ∃ p q r, ofNumbers [0, 1, 1, 2] = .ok p ∧ ofNumbers [0, 1, 0] = .ok q ∧
      p.compose q = .ok r ∧ r.blocks = .ok #[[0, 3], [1, 2]] ∧
      ListsBlocks r #[[0, 3], [1, 2]] := by
  have hp : ofNumbers [0, 1, 1, 2] = .ok ⟨[0, 1, 1, 2], 3⟩ := rfl
  have hq : ofNumbers [0, 1, 0] = .ok ⟨[0, 1, 0], 2⟩ := rfl
  have hr : compose ⟨[0, 1, 1, 2], 3⟩ ⟨[0, 1, 0], 2⟩ = .ok ⟨[0, 1, 1, 0], 2⟩ := rfl
  refine ⟨_, _, _, hp, hq, hr, rfl, ?_⟩
  have hbuilt := Built.compose (.ofNumbers hp) (.ofNumbers hq) hr
  obtain ⟨-, -, -, m, hm, hlists⟩ := built_dense.2 _ hbuilt
  obtain rfl := Except.ok.inj (hm.symm.trans rfl)
  exact hlists

/-! ## The normal form -/

/-- **The normal form depends on the blocks alone.** Normalising keeps the blocks and numbers them
without a gap in the order of their least elements. It leaves a normal form as it is. The normal
forms of two partitions are equal if and only if they have the same elements and the same blocks. -/
theorem normalise_canonical (hp : p.Built) (hq : q.Built) :
    ∃ p' q', p.normalise = .ok p' ∧ q.normalise = .ok q' ∧ p'.size = p.size ∧
      (∀ x y, x < p.size → y < p.size →
        (p'.number x = p'.number y ↔ p.number x = p.number y)) ∧
      (∀ b, b < p'.count ↔ ∃ x < p'.size, p'.number x = b) ∧
      (∀ a b, a < b → b < p'.count → ∃ x ∈ p'.members a, ∀ y ∈ p'.members b, x < y) ∧
      p'.normalise = .ok p' ∧
      (p' = q' ↔ p.size = q.size ∧ ∀ x y, x < p.size → y < p.size →
        (p.number x = p.number y ↔ q.number x = q.number y)) := by
  obtain ⟨p', hp', hps, hpd, hpo, hpk⟩ := normalise_ok fun b hb => (hp.dense b).1 hb
  obtain ⟨q', hq', hqs, hqd, hqo, hqk⟩ := normalise_ok fun b hb => (hq.dense b).1 hb
  refine ⟨p', q', hp', hq', hps, hpk, fun b => (dense_iff.1 hpd b).symm,
    fun a b hab hb => hpo.exists_lt_members hpd hab hb, hpo.normalise_eq_self hpd, ?_, ?_⟩
  · rintro rfl
    have hs : p.size = q.size := hps.symm.trans hqs
    refine ⟨hs, fun x y hx hy => ?_⟩
    rw [← hpk x y hx hy, hqk x y (hs ▸ hx) (hs ▸ hy)]
  · rintro ⟨hs, hk⟩
    refine hpo.ext hqo hpd hqd (hps.trans (hs.trans hqs.symm)) fun x y hx hy => ?_
    rw [hps] at hx hy
    rw [hpk x y hx hy, hqk x y (hs ▸ hx) (hs ▸ hy)]
    exact hk x y hx hy

/-- The same blocks with other numbers have the same normal form. -/
theorem normalise_canonical_renumbered :
    ∃ p q, ofNumbers [2, 0, 2, 1] = .ok p ∧ ofNumbers [1, 2, 1, 0] = .ok q ∧ p ≠ q ∧
      p.normalise = .ok ⟨[0, 1, 0, 2], 3⟩ ∧ q.normalise = .ok ⟨[0, 1, 0, 2], 3⟩ := by
  have hp : Built ⟨[2, 0, 2, 1], 3⟩ := .ofNumbers (l := [2, 0, 2, 1]) rfl
  have hq : Built ⟨[1, 2, 1, 0], 3⟩ := .ofNumbers (l := [1, 2, 1, 0]) rfl
  obtain ⟨p', q', hp', hq', -, -, -, -, -, hiff⟩ := normalise_canonical hp hq
  have hblocks : ∀ x < 4, ∀ y < 4, (number ⟨[2, 0, 2, 1], 3⟩ x = number ⟨[2, 0, 2, 1], 3⟩ y ↔
      number ⟨[1, 2, 1, 0], 3⟩ x = number ⟨[1, 2, 1, 0], 3⟩ y) := by decide
  obtain rfl : p' = q' := hiff.2 ⟨rfl, fun x y hx hy => hblocks x hx y hy⟩
  obtain rfl := Except.ok.inj (hp'.symm.trans rfl)
  exact ⟨_, _, rfl, rfl, by decide, hp', hq'⟩

end ChainGrammar.Partition

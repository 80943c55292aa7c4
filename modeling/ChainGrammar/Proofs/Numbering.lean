import Mathlib.Data.List.Basic
import ChainGrammar.Partition
import ChainGrammar.Proofs.FirstMet

/-!
# Numbered partitions

What the operations on partitions give when the block numbers are those below the number of
blocks.

* `Partition.Ordered`: the blocks are numbered in the order of their least elements.
* `Partition.ofNumbers_ok`: numbers without a gap are accepted.
* `Partition.ofRanks`: the partition of the places of a list by the elements they hold.
* `Partition.normalise_ok`: **normalising keeps the blocks and orders them**.
* `Partition.Ordered.number_eq`: ordered partitions with the same blocks have the same numbers.
* `Partition.compose_ok`: merging blocks along a partition of them.
* `Partition.blocks_ok`, `Partition.mem_members`: the elements of every block.
* `Partition.discrete`: every element in the block of its own number.
-/

namespace ChainGrammar.Partition

variable {p q : Partition} {l : List Nat} {b k x y : Nat}

/-- The blocks are numbered in the order of their least elements: every element comes after one of
every block with a smaller number. -/
def Ordered (p : Partition) : Prop := ∀ x < p.size, ∀ b < p.number x, ∃ y < x, p.number y = b

/-! ## Block numbers -/

theorem getElem?_numbers (hx : x < p.size) : p.numbers[x]? = some (p.number x) := by
  have hx' : x < p.numbers.length := hx
  rw [number, List.getElem?_eq_getElem hx', Option.getD_some]

theorem number_eq_of_getElem? (h : p.numbers[x]? = some b) : p.number x = b := by
  rw [number, h, Option.getD_some]

theorem mem_numbers : b ∈ p.numbers ↔ ∃ x < p.size, p.number x = b := by
  constructor
  · intro h
    obtain ⟨x, hx, rfl⟩ := List.getElem_of_mem h
    exact ⟨x, hx, number_eq_of_getElem? (List.getElem?_eq_getElem hx)⟩
  · rintro ⟨x, hx, rfl⟩
    exact List.mem_of_getElem? (getElem?_numbers hx)

theorem dense_iff : p.Dense ↔ ∀ b, (∃ x < p.size, p.number x = b) ↔ b < p.count := by
  simp only [Dense, mem_numbers]

theorem Dense.number_lt (h : p.Dense) (hx : x < p.size) : p.number x < p.count :=
  (dense_iff.1 h _).1 ⟨x, hx, rfl⟩

theorem Dense.exists_number (h : p.Dense) (hb : b < p.count) : ∃ x < p.size, p.number x = b :=
  (dense_iff.1 h b).2 hb

/-- There are no more numbers below a bound than in a list that holds them all. -/
theorem le_length_of_forall_mem (h : ∀ b < k, b ∈ l) : k ≤ l.length := by
  have hsub : List.range k ⊆ l := fun b hb => h b (List.mem_range.1 hb)
  simpa using List.nodup_range.length_le_of_subset hsub

theorem Dense.count_le_size (h : p.Dense) : p.count ≤ p.size :=
  le_length_of_forall_mem fun b hb => (h b).2 hb

/-- Partitions with the same numbers and as many blocks are equal. -/
theorem ext_number (hs : p.size = q.size) (hc : p.count = q.count)
    (hn : ∀ x < p.size, p.number x = q.number x) : p = q := by
  obtain ⟨ps, pc⟩ := p
  obtain ⟨qs, qc⟩ := q
  obtain rfl : pc = qc := hc
  congr 1
  refine List.ext_getElem hs fun x hx hx' => ?_
  simpa [number, hx, hx'] using hn x hx

/-! ## Given numbers -/

theorem lt_bound_iff : b < bound l ↔ ∃ c ∈ l, b ≤ c := by
  induction l with
  | nil => simp [bound]
  | cons c cs ih =>
    have hb : bound (c :: cs) = max (c + 1) (bound cs) := rfl
    have hlt : b < max (c + 1) (bound cs) ↔ b ≤ c ∨ b < bound cs := by omega
    rw [hb, hlt, ih]
    simp

theorem bound_eq (h : ∀ b, b ∈ l ↔ b < k) : bound l = k := by
  have hlt : ∀ b, b < bound l ↔ b < k := fun b => by
    rw [lt_bound_iff]
    constructor
    · rintro ⟨c, hc, hbc⟩
      exact Nat.lt_of_le_of_lt hbc ((h c).1 hc)
    · intro hb
      exact ⟨b, (h b).2 hb, Nat.le_refl b⟩
  have h1 := hlt (bound l)
  have h2 := hlt k
  omega

/-- **Numbers without a gap are accepted**, if a 64-bit number can count them. -/
theorem ofNumbers_ok (h : ∀ b, b ∈ l ↔ b < k) (hk : k ≤ lastNumber) :
    ofNumbers l = .ok ⟨l, k⟩ := by
  have hlast : lastNumber ∉ l := fun hm => by
    have := (h lastNumber).1 hm
    omega
  have hgap : isGapless l = true := by
    rw [isGapless_iff, bound_eq h]
    exact ⟨le_length_of_forall_mem fun b hb => (h b).2 hb, fun b hb => (h b).2 hb⟩
  rw [ofNumbers, if_neg hlast, if_pos hgap, bound_eq h]

/-! ## Normal form -/

section Ranks

variable {β : Type} [BEq β]

/-- The partition of the places of a list into those that hold the same element, numbered in the
order in which the elements are met. -/
def ofRanks (l : List β) : Partition := ⟨l.map (rank l), l.eraseDups.length⟩

@[simp] theorem size_ofRanks (l : List β) : (ofRanks l).size = l.length := List.length_map ..

theorem number_ofRanks {l : List β} {a : β} (h : l[x]? = some a) :
    (ofRanks l).number x = rank l a :=
  number_eq_of_getElem? (by simp [ofRanks, h])

variable [LawfulBEq β]

theorem dense_ofRanks (l : List β) : (ofRanks l).Dense := by
  intro b
  simp only [ofRanks, List.mem_map]
  constructor
  · rintro ⟨a, ha, rfl⟩
    exact rank_lt_iff.2 ha
  · intro hb
    obtain ⟨a, ha, hab⟩ := exists_rank_eq hb
    exact ⟨a, ha, hab⟩

theorem ordered_ofRanks (l : List β) : (ofRanks l).Ordered := by
  intro x hx b hb
  rw [size_ofRanks] at hx
  have hget : l[x]? = some l[x] := List.getElem?_eq_getElem hx
  rw [number_ofRanks hget] at hb
  obtain ⟨y, hyx, a, ha, hab⟩ := exists_rank_before hget hb
  exact ⟨y, hyx, (number_ofRanks ha).trans hab⟩

/-- **Places share a block** if they hold the same element. -/
theorem number_ofRanks_eq_iff {l : List β} (hx : x < l.length) (hy : y < l.length) :
    (ofRanks l).number x = (ofRanks l).number y ↔ l[x] = l[y] := by
  rw [number_ofRanks (List.getElem?_eq_getElem hx), number_ofRanks (List.getElem?_eq_getElem hy)]
  exact rank_inj (List.getElem_mem hx)

end Ranks

/-- **Normalising keeps the blocks and orders them.** -/
theorem normalise_ok (h : ∀ b ∈ p.numbers, b < p.count) :
    ∃ q, p.normalise = .ok q ∧ q.size = p.size ∧ q.Dense ∧ q.Ordered ∧
      ∀ x y, x < p.size → y < p.size → (q.number x = q.number y ↔ p.number x = p.number y) := by
  refine ⟨ofRanks p.numbers, normalise_eq h, size_ofRanks _, dense_ofRanks _, ordered_ofRanks _, ?_⟩
  intro x y hx hy
  have hn : ∀ z (hz : z < p.size), p.numbers[z] = p.number z := fun z hz =>
    (number_eq_of_getElem? (List.getElem?_eq_getElem hz)).symm
  rw [number_ofRanks_eq_iff hx hy, hn x hx, hn y hy]

/-- The number of the block of `x` is settled by the elements before `x`. -/
theorem Ordered.number_le (hp : p.Ordered) (hx : x < p.size)
    (hk : ∀ y < x, p.number y = p.number x ↔ q.number y = q.number x)
    (hlt : ∀ y < x, p.number y = q.number y) : p.number x ≤ q.number x := by
  by_contra hgt
  obtain ⟨y, hyx, hy⟩ := hp x hx (q.number x) (Nat.lt_of_not_le hgt)
  have hxy : p.number y = p.number x := (hk y hyx).2 (by rw [← hlt y hyx, hy])
  omega

/-- **Ordered partitions with the same blocks** have the same numbers. -/
theorem Ordered.number_eq (hp : p.Ordered) (hq : q.Ordered) (hs : p.size = q.size)
    (hk : ∀ x y, x < p.size → y < p.size → (p.number x = p.number y ↔ q.number x = q.number y)) :
    ∀ x < p.size, p.number x = q.number x := by
  intro x
  -- the numbers of the elements before `x` are the same, and they settle that of `x`
  induction x using Nat.strongRecOn with
  | _ x ih =>
    intro hx
    have hlt : ∀ y < x, p.number y = q.number y := fun y hyx => ih y hyx (Nat.lt_trans hyx hx)
    have hk' : ∀ y < x, p.number y = p.number x ↔ q.number y = q.number x :=
      fun y hyx => hk y x (Nat.lt_trans hyx hx) hx
    refine Nat.le_antisymm ?_ ?_
    · exact hp.number_le hx hk' hlt
    · exact hq.number_le (hs ▸ hx) (fun y h => (hk' y h).symm) fun y h => (hlt y h).symm

/-- Ordered partitions without empty blocks and with the same blocks are equal. -/
theorem Ordered.ext (hp : p.Ordered) (hq : q.Ordered) (hpd : p.Dense) (hqd : q.Dense)
    (hs : p.size = q.size)
    (hk : ∀ x y, x < p.size → y < p.size → (p.number x = p.number y ↔ q.number x = q.number y)) :
    p = q := by
  have hn := hp.number_eq hq hs hk
  refine ext_number hs ?_ hn
  have hiff (b : Nat) : b < p.count ↔ b < q.count := by
    rw [← dense_iff.1 hpd, ← dense_iff.1 hqd, ← hs]
    constructor
    · rintro ⟨x, hx, rfl⟩
      exact ⟨x, hx, (hn x hx).symm⟩
    · rintro ⟨x, hx, rfl⟩
      exact ⟨x, hx, hn x hx⟩
  have h1 := hiff p.count
  have h2 := hiff q.count
  omega

/-- An ordered partition without empty blocks is in normal form. -/
theorem Ordered.normalise_eq_self (hp : p.Ordered) (hd : p.Dense) : p.normalise = .ok p := by
  obtain ⟨q, hq, hs, hqd, hqo, hk⟩ := normalise_ok fun b hb => (hd b).1 hb
  have hqp : q = p := hqo.ext hp hqd hd hs fun x y hx hy => hk x y (hs ▸ hx) (hs ▸ hy)
  rw [hq, hqp]

/-! ## Merging blocks -/

theorem checkNumbers_ok (h : ∀ b ∈ p.numbers, b < p.count) : p.checkNumbers = .ok () := by
  have hs : p.stray? = none := by simpa [stray?] using h
  rw [checkNumbers, hs]

/-- **Merging blocks** along a partition of the block numbers. -/
theorem compose_ok (hp : p.Dense) (hs : q.size = p.count) :
    ∃ r, p.compose q = .ok r ∧ r.size = p.size ∧ r.count = q.count ∧
      ∀ x < p.size, r.number x = q.number (p.number x) := by
  refine ⟨⟨p.numbers.map q.table.number, q.count⟩, ?_, by simp [size], rfl, fun x hx => ?_⟩
  · rw [compose, if_pos hs, checkNumbers_ok fun b hb => (hp b).1 hb]
    rfl
  · exact number_eq_of_getElem? (by simp [getElem?_numbers hx])

/-- Merging blocks leaves none of them empty. -/
theorem Dense.of_compose (hp : p.Dense) (hq : q.Dense) (hs : q.size = p.count) {r : Partition}
    (hrs : r.size = p.size) (hrc : r.count = q.count)
    (hr : ∀ x < p.size, r.number x = q.number (p.number x)) : r.Dense := by
  rw [dense_iff]
  intro b
  rw [hrs, hrc]
  constructor
  · rintro ⟨x, hx, rfl⟩
    rw [hr x hx]
    exact hq.number_lt (hs ▸ hp.number_lt hx)
  · intro hb
    obtain ⟨c, hc, rfl⟩ := hq.exists_number hb
    obtain ⟨x, hx, rfl⟩ := hp.exists_number (hs ▸ hc)
    exact ⟨x, hx, hr x hx⟩

/-- Merging blocks that are in order along an ordered partition keeps the order. -/
theorem Ordered.of_compose (hp : p.Ordered) (hq : q.Ordered) (hd : p.Dense) (hs : q.size = p.count)
    {r : Partition} (hrs : r.size = p.size)
    (hr : ∀ x < p.size, r.number x = q.number (p.number x)) : r.Ordered := by
  intro x hx b hb
  rw [hrs] at hx
  rw [hr x hx] at hb
  obtain ⟨c, hc, rfl⟩ := hq _ (hs ▸ hd.number_lt hx) b hb
  obtain ⟨y, hyx, rfl⟩ := hp x hx c hc
  exact ⟨y, hyx, hr y (Nat.lt_trans hyx hx)⟩

/-! ## Members -/

theorem zipIdx_numbers (p : Partition) :
    p.numbers.zipIdx = (List.range p.size).map fun x => (p.number x, x) := by
  refine List.ext_getElem (by simp [size]) fun x hx _ => ?_
  simp only [List.length_zipIdx] at hx
  simp [number, hx]

/-- The members of a block are the elements with its number, in increasing order. -/
theorem members_eq (p : Partition) (b : Nat) :
    p.members b = (List.range p.size).filter fun x => p.number x = b := by
  rw [members, zipIdx_numbers, List.filterMap_map, ← List.filterMap_eq_filter]
  congr 1
  funext x
  simp [Option.guard]

theorem mem_members : x ∈ p.members b ↔ x < p.size ∧ p.number x = b := by
  simp [members_eq]

theorem pairwise_members (p : Partition) (b : Nat) : (p.members b).Pairwise (· < ·) := by
  rw [members_eq]
  exact List.pairwise_lt_range.filter _

theorem Dense.members_ne_nil (hd : p.Dense) (hb : b < p.count) : p.members b ≠ [] := by
  obtain ⟨x, hx⟩ := hd.exists_number hb
  exact List.ne_nil_of_mem (mem_members.2 hx)

/-- **The least element of a block** comes before all elements of the blocks with larger numbers. -/
theorem Ordered.exists_lt_members {a : Nat} (hp : p.Ordered) (hd : p.Dense) (hab : a < b)
    (hb : b < p.count) : ∃ x ∈ p.members a, ∀ y ∈ p.members b, x < y := by
  have hsorted := pairwise_members p b
  cases hm : p.members b with
  | nil => exact absurd hm (hd.members_ne_nil hb)
  | cons y ys =>
    rw [hm] at hsorted
    obtain ⟨hy, rfl⟩ := mem_members.1 (hm ▸ List.mem_cons_self : y ∈ p.members b)
    obtain ⟨x, hxy, hx⟩ := hp y hy a hab
    refine ⟨x, mem_members.2 ⟨Nat.lt_trans hxy hy, hx⟩, fun z hz => ?_⟩
    rcases List.mem_cons.1 hz with rfl | hz
    · exact hxy
    · exact Nat.lt_trans hxy ((List.pairwise_cons.1 hsorted).1 z hz)

/-- Putting elements into lists by their numbers. -/
theorem getElem?_foldr_modify (es : List (Nat × Nat)) (n b : Nat) :
    (es.foldr (fun e (t : Array (List Nat)) => t.modify e.1 (e.2 :: ·))
      (Array.replicate n []))[b]? =
      if b < n then some (es.filterMap fun e => if e.1 = b then some e.2 else none) else none := by
  induction es with
  | nil => simp [Array.getElem?_replicate]
  | cons e es ih =>
    rw [List.foldr_cons, Array.getElem?_modify, ih]
    by_cases he : e.1 = b <;> by_cases hb : b < n <;> simp [he, hb]

/-- **The lists of all blocks**, each with the members of its block. -/
theorem blocks_ok (h : ∀ b ∈ p.numbers, b < p.count) :
    ∃ m, p.blocks = .ok m ∧ ∀ b, m[b]? = if b < p.count then some (p.members b) else none := by
  refine ⟨_, ?_, getElem?_foldr_modify p.numbers.zipIdx p.count⟩
  rw [blocks, checkNumbers_ok h]
  rfl

/-! ## Every element on its own -/

section Discrete

variable {n : Nat}

/-- The partition of the numbers below `n` with each of them in the block of that number. -/
def discrete (n : Nat) : Partition := ⟨List.range n, n⟩

@[simp] theorem size_discrete (n : Nat) : (discrete n).size = n := List.length_range

theorem number_discrete (hx : x < n) : (discrete n).number x = x :=
  number_eq_of_getElem? (List.getElem?_range hx)

theorem dense_discrete (n : Nat) : (discrete n).Dense := fun _ => List.mem_range

theorem ordered_discrete (n : Nat) : (discrete n).Ordered := by
  intro x hx b hb
  rw [size_discrete] at hx
  rw [number_discrete hx] at hb
  exact ⟨b, hb, number_discrete (Nat.lt_trans hb hx)⟩

/-- An ordered partition without two elements in one block has every element in the block of its
own number. -/
theorem Ordered.eq_discrete {p : Partition} (hp : p.Ordered) (hd : p.Dense)
    (hinj : ∀ x y, x < p.size → y < p.size → p.number x = p.number y → x = y) :
    p = discrete p.size := by
  refine hp.ext (ordered_discrete _) hd (dense_discrete _) (size_discrete _).symm
    fun x y hx hy => ?_
  rw [number_discrete hx, number_discrete hy]
  exact ⟨hinj x y hx hy, fun h => h ▸ rfl⟩

end Discrete

end ChainGrammar.Partition

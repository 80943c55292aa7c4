import ChainGrammar.Fault

/-!
# Partitions

A partition of the numbers below its size into numbered blocks, held as the block
number of every element together with the number of blocks. Nothing ties the two
together in the type: `Partition.Dense` says that they fit, which the operations
here keep and on which listing the blocks relies.

* `Partition.whole`, `Partition.ofNumbers`: one block, or the given block numbers;
  `isGapless_iff` says which numbers are accepted.
* `Partition.normalise`: the same partition with its blocks numbered in the order
  of their least elements; `normalise_eq` gives the new numbers.
* `Partition.compose`: merges blocks along a partition of the block numbers.
* `Partition.members`, `Partition.blocks`: the elements of one block and of all.
-/

namespace ChainGrammar

/-- The block number of every element, and the number of blocks. -/
structure Partition where
  numbers : List Nat
  count : Nat
deriving DecidableEq

namespace Partition

/-- The number of elements. -/
def size (p : Partition) : Nat := p.numbers.length

/-- Whether there are no elements. -/
def isEmpty (p : Partition) : Bool := p.numbers.isEmpty

/-- The block numbers in use are those below the number of blocks. -/
def Dense (p : Partition) : Prop := ∀ b, b ∈ p.numbers ↔ b < p.count

/-- The block number of an element, 0 beyond the last one. -/
def number (p : Partition) (x : Nat) : Nat := p.numbers[x]?.getD 0

/-- The block number of an element, a fault if there is no such element. -/
def blockOf (p : Partition) (x : Nat) : Except Fault Nat := entry p.numbers.toArray x

/-- Block numbers for looking up many of them. -/
structure Table where
  numbers : Array Nat

/-- The block numbers of a partition. -/
def table (p : Partition) : Table := ⟨p.numbers.toArray⟩

/-- The block number of an element, 0 beyond the last one. -/
def Table.number (t : Table) (x : Nat) : Nat := t.numbers[x]?.getD 0

@[simp] theorem number_table (p : Partition) (x : Nat) : p.table.number x = p.number x := by
  simp [table, Table.number, number]

/-- The partition of the numbers below `n` with all of them in one block. -/
def whole (n : Nat) : Partition := ⟨List.replicate n 0, min n 1⟩

/-- The largest 64-bit number, which no block may have: there is no room to count one more. -/
def lastNumber : Nat := 18446744073709551615

/-- One more than the largest of the numbers, 0 if there is none. -/
def bound (numbers : List Nat) : Nat := numbers.foldr (fun b m => max (b + 1) m) 0

/-- Marks the given numbers in a table. -/
def markAll (numbers : List Nat) (marks : Array Bool) : Array Bool :=
  numbers.foldl (fun marks b => marks.setIfInBounds b true) marks

theorem getElem?_markAll (numbers : List Nat) (marks : Array Bool) (b : Nat) :
    (markAll numbers marks)[b]? =
      if b ∈ numbers ∧ b < marks.size then some true else marks[b]? := by
  unfold markAll
  induction numbers generalizing marks with
  | nil => simp
  | cons c cs ih =>
    rw [List.foldl_cons, ih, Array.size_setIfInBounds, Array.getElem?_setIfInBounds]
    by_cases hb : b < marks.size <;> by_cases hc : c = b <;> simp_all [eq_comm]

/-- Whether every number below the bound of the list is in it; a list that is shorter than its
bound cannot hold them all. -/
def isGapless (numbers : List Nat) : Bool :=
  bound numbers ≤ numbers.length &&
    (markAll numbers (Array.replicate (bound numbers) false)).toList.all id

theorem isGapless_iff {numbers : List Nat} :
    isGapless numbers = true ↔
      bound numbers ≤ numbers.length ∧ ∀ b < bound numbers, b ∈ numbers := by
  have h (b : Nat) := getElem?_markAll numbers (Array.replicate (bound numbers) false) b
  simp only [Array.size_replicate] at h
  simp only [isGapless, Bool.and_eq_true, decide_eq_true_eq, List.all_eq_true, id_eq]
  refine and_congr_right fun _ => ⟨fun hall b hb => ?_, fun hall m hm => ?_⟩
  · by_cases hmem : b ∈ numbers
    · exact hmem
    · have hf : (markAll numbers (Array.replicate (bound numbers) false))[b]? = some false := by
        simp [h, hmem, hb]
      exact absurd (hall false (Array.mem_toList_iff.2 (Array.mem_of_getElem? hf))) (by simp)
  · obtain ⟨b, hb⟩ := Array.getElem?_of_mem (Array.mem_toList_iff.1 hm)
    rw [h] at hb
    by_cases hlt : b < bound numbers
    · simpa [hlt, hall b hlt, eq_comm] using hb
    · simp [hlt] at hb

/-- The partition with the given block numbers, if those are the ones below some bound. -/
def ofNumbers (numbers : List Nat) : Except Fault Partition :=
  if lastNumber ∈ numbers then .error .blockOverflow
  else if isGapless numbers then .ok ⟨numbers, bound numbers⟩
  else .error (.notDense numbers)

/-- The elements of block `b` in increasing order, none for an unknown block. -/
def members (p : Partition) (b : Nat) : List Nat :=
  p.numbers.zipIdx.filterMap fun e => if e.1 = b then some e.2 else none

/-- The first block number that is no block's. -/
def stray? (p : Partition) : Option Nat := p.numbers.find? fun b => p.count ≤ b

/-- Fails if some element is in an unknown block. -/
def checkNumbers (p : Partition) : Except Fault Unit :=
  match p.stray? with
  | none => .ok ()
  | some b => .error (.outOfBounds p.count b)

/-- The elements of every block in increasing order; the last element is put in first. -/
def blocks (p : Partition) : Except Fault (Array (List Nat)) := do
  p.checkNumbers
  return p.numbers.zipIdx.foldr (fun e blocks => blocks.modify e.1 (e.2 :: ·))
    (Array.replicate p.count [])

/-- New numbers for the blocks in the order in which they are met: for each the new number, none
while it has not been met, and how many have been met. -/
structure Renumbering where
  table : Array (Option Nat)
  met : Nat

namespace Renumbering

/-- No block of `n` has been met. -/
def begin (n : Nat) : Renumbering := ⟨Array.replicate n none, 0⟩

/-- Gives block `b` the next number, if it has none. -/
def meet : Renumbering → Nat → Renumbering
  | ⟨table, met⟩, b =>
    if table[b]? = some none then ⟨table.setIfInBounds b (some met), met + 1⟩ else ⟨table, met⟩

/-- The new number of a block, 0 while it has none. -/
def number (r : Renumbering) (b : Nat) : Nat := (r.table[b]?.getD none).getD 0

/-- The blocks of `l` have been met, in this order, among `n` blocks. -/
structure Follows (r : Renumbering) (n : Nat) (l : List Nat) : Prop where
  met_eq : r.met = l.eraseDups.length
  table_eq : ∀ c, r.table[c]? =
    if c < n then some (if c ∈ l then some (l.eraseDups.idxOf c) else none) else none

theorem follows_begin (n : Nat) : (begin n).Follows n [] where
  met_eq := rfl
  table_eq c := by simp [begin, Array.getElem?_replicate]

theorem Follows.append_singleton {r : Renumbering} {n b : Nat} {l : List Nat}
    (h : r.Follows n l) (hb : b < n) : (r.meet b).Follows n (l ++ [b]) := by
  obtain ⟨table, met⟩ := r
  obtain ⟨hm, ht⟩ := h
  simp only at hm ht
  have hsize : b < table.size := by
    refine Nat.lt_of_not_le fun hle => ?_
    have := ht b
    simp [Array.getElem?_eq_none hle, hb] at this
  by_cases hmem : b ∈ l
  · have hl : (l ++ [b]).eraseDups = l.eraseDups := by
      simp [List.eraseDups_append, List.removeAll, hmem]
    have hr : meet ⟨table, met⟩ b = ⟨table, met⟩ := by simp [Renumbering.meet, ht b, hb, hmem]
    rw [hr]
    refine ⟨hl ▸ hm, fun c => ?_⟩
    simp only [ht c, hl, List.mem_append, List.mem_singleton]
    by_cases hc : c = b <;> simp_all
  · have hl : (l ++ [b]).eraseDups = l.eraseDups ++ [b] := by
      simp [List.eraseDups_append, List.removeAll, hmem, List.eraseDups_cons]
    have hr : meet ⟨table, met⟩ b = ⟨table.setIfInBounds b (some met), met + 1⟩ := by
      simp [Renumbering.meet, ht b, hb, hmem]
    have hdup (c : Nat) : c ∈ l.eraseDups ↔ c ∈ l := List.mem_eraseDups
    rw [hr]
    refine ⟨by simp [hl, hm], fun c => ?_⟩
    simp only [Array.getElem?_setIfInBounds, hl, List.mem_append, List.mem_singleton,
      List.idxOf_append, hdup, ht c]
    by_cases hc : c = b
    · simp_all
    · by_cases hcl : c ∈ l <;> simp_all [Ne.symm hc]

theorem Follows.append {r : Renumbering} {n : Nat} {l : List Nat} (h : r.Follows n l)
    (rest : List Nat) (hrest : ∀ b ∈ rest, b < n) : (rest.foldl meet r).Follows n (l ++ rest) := by
  induction rest generalizing r l with
  | nil => simpa using h
  | cons b bs ih =>
    have := ih (h.append_singleton (hrest b (by simp))) fun c hc => hrest c (by simp [hc])
    simpa using this

end Renumbering

/-- The same partition, its blocks numbered in the order of their least elements. -/
def normalise (p : Partition) : Except Fault Partition := do
  p.checkNumbers
  let r := p.numbers.foldl Renumbering.meet (.begin p.count)
  return ⟨p.numbers.map r.number, r.met⟩

/-- **Blocks are renumbered in the order in which they are met.** -/
theorem normalise_eq {p : Partition} (h : ∀ b ∈ p.numbers, b < p.count) :
    p.normalise = .ok
      ⟨p.numbers.map p.numbers.eraseDups.idxOf, p.numbers.eraseDups.length⟩ := by
  have hs : p.stray? = none := by simpa [stray?] using h
  obtain ⟨hm, ht⟩ := (Renumbering.follows_begin p.count).append p.numbers h
  simp only [List.nil_append] at hm ht
  have hn : ∀ b ∈ p.numbers, (p.numbers.foldl Renumbering.meet (.begin p.count)).number b =
      p.numbers.eraseDups.idxOf b := by
    intro b hb
    simp [Renumbering.number, ht, h b hb, hb]
  simpa [normalise, checkNumbers, hs, bind, Except.bind, pure, Except.pure, hm] using hn

/-- The partition that merges the blocks of `p` that share a block of `q`. -/
def compose (p q : Partition) : Except Fault Partition :=
  if q.size = p.count then do
    p.checkNumbers
    let table := q.table
    return ⟨p.numbers.map table.number, q.count⟩
  else .error (.notComposable q.size p.count)

/-- The text of a list of sets of numbers. -/
def listing (blocks : Array (List Nat)) : String :=
  let block (b : List Nat) := "\x7b" ++ ", ".intercalate (b.map Nat.repr) ++ "\x7d"
  "\x7b" ++ ", ".intercalate (blocks.toList.map block) ++ "\x7d"

/-- The blocks written as sets, in order. -/
def describe (p : Partition) : Except Fault String := do
  return listing (← p.blocks)

end Partition

end ChainGrammar

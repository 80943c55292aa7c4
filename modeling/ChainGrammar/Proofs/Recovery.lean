import Mathlib.Data.Finset.Disjoint
import Mathlib.Data.List.Sort
import ChainGrammar.Proofs.ChainLanguage
import ChainGrammar.Proofs.Layers

/-!
# Recovery of a chain

Blocks of symbols and sequences that run through them in order: if the sequences show enough, their
chain expression has the blocks as its factors.

* `RunsThrough`: a sequence that takes a symbol of each block in turn and repeats it.
* `IsSample`: such sequences, with every pair of symbols from two blocks in a row.
* `layer`: the place of the block of a symbol.
* `IsSample.layered`: **the symbols are on the layers of their blocks**.
* `Automaton.chain_recovers`: **the chain expression of a sample has the blocks as its factors**.
-/

namespace ChainGrammar

variable {α : Type} {blocks : List (Finset α)} {ws : List (List α)} {B C : Finset α} {p : List α}
  {x y : α} {i : Nat}

/-! ## Samples -/

/-- The sequence takes a symbol of each block in turn, and repeats it any number of times. -/
inductive RunsThrough {α : Type} : List (Finset α) → List α → Prop where
  | nil : RunsThrough [] []
  | cons {B : Finset α} {bs : List (Finset α)} {x : α} {n : Nat} {w : List α} (mem : x ∈ B)
      (pos : 1 ≤ n) (rest : RunsThrough bs w) : RunsThrough (B :: bs) (List.replicate n x ++ w)

/-- The sequences run through the blocks, which are not empty and have no symbol in common. They
show every pair of symbols from two blocks in a row, and all symbols of a block that is alone. -/
structure IsSample (blocks : List (Finset α)) (ws : List (List α)) : Prop where
  nonempty : ∀ B ∈ blocks, B.Nonempty
  disjoint : blocks.Pairwise Disjoint
  runs : ∀ p ∈ ws, RunsThrough blocks p
  pairs : blocks.IsChain fun B C => ∀ x ∈ B, ∀ y ∈ C, Follows ws x y
  alone : ∀ B, blocks = [B] → ∀ x ∈ B, x ∈ ws.flatten

/-- The block of the second symbol comes right after that of the first. -/
def Adjacent (blocks : List (Finset α)) (x y : α) : Prop :=
  ∃ B C, [B, C] <:+: blocks ∧ x ∈ B ∧ y ∈ C

theorem Adjacent.cons (h : Adjacent blocks x y) : Adjacent (B :: blocks) x y := by
  obtain ⟨C, D, hCD, hx, hy⟩ := h
  exact ⟨C, D, List.infix_cons hCD, hx, hy⟩

namespace RunsThrough

theorem exists_block (h : RunsThrough blocks p) (hx : x ∈ p) : ∃ B ∈ blocks, x ∈ B := by
  induction h with
  | nil => simp at hx
  | cons mem _ _ ih =>
    rcases List.mem_append.1 hx with hx | hx
    · exact ⟨_, List.mem_cons_self, (List.mem_replicate.1 hx).2 ▸ mem⟩
    · obtain ⟨B, hB, hxB⟩ := ih hx
      exact ⟨B, List.mem_cons_of_mem _ hB, hxB⟩

/-- The first symbol is one of the first block. -/
theorem head_mem (h : RunsThrough blocks p) (hx : p.head? = some x) :
    ∃ B, blocks.head? = some B ∧ x ∈ B := by
  cases h with
  | nil => simp at hx
  | @cons B bs y n w mem pos rest =>
    obtain ⟨n, rfl⟩ := Nat.exists_eq_add_of_le' pos
    rw [List.replicate_succ, List.cons_append, List.head?_cons, Option.some_inj] at hx
    exact ⟨B, rfl, hx ▸ mem⟩

/-- **Each symbol is repeated or followed by one of the next block.** -/
theorem isChain (h : RunsThrough blocks p) : p.IsChain fun x y => x = y ∨ Adjacent blocks x y := by
  induction h with
  | nil => exact .nil
  | @cons B bs x n w mem pos rest ih =>
    refine List.isChain_append.2 ⟨List.isChain_replicate_of_rel n (.inl rfl), ?_, ?_⟩
    · exact ih.imp fun y z hyz => hyz.imp_right Adjacent.cons
    · -- from the end of the first run to the start of the next
      intro y hy z hz
      obtain rfl : y = x := List.eq_of_mem_replicate (List.mem_of_getLast? hy)
      obtain ⟨C, hC, hzC⟩ := rest.head_mem hz
      obtain ⟨bs, rfl⟩ := List.head?_eq_some_iff.1 hC
      exact .inr ⟨B, C, ⟨[], bs, rfl⟩, mem, hzC⟩

end RunsThrough

/-! ## Layers of symbols -/

section Layers

variable [DecidableEq α]

/-- The place of the block of a symbol. -/
def layer (blocks : List (Finset α)) (x : α) : Nat := blocks.findIdx fun B => x ∈ B

theorem layer_eq (hd : blocks.Pairwise Disjoint) (hB : blocks[i]? = some B) (hx : x ∈ B) :
    layer blocks x = i := by
  obtain ⟨hi, rfl⟩ := List.getElem?_eq_some_iff.1 hB
  refine (List.findIdx_eq hi).2 ⟨by simpa using hx, fun j hj => ?_⟩
  have hdisjoint := List.pairwise_iff_getElem.1 hd j i (by omega) hi hj
  have hxj : x ∉ blocks[j] := fun hxj => Finset.disjoint_left.1 hdisjoint hxj hx
  simpa using hxj

theorem getElem?_layer (hd : blocks.Pairwise Disjoint) (hB : B ∈ blocks) (hx : x ∈ B) :
    blocks[layer blocks x]? = some B := by
  obtain ⟨i, hi⟩ := List.mem_iff_getElem?.1 hB
  rw [layer_eq hd hi hx, hi]

/-- **Symbols are on the same layer** if they are in the same block. -/
theorem layer_eq_iff (hd : blocks.Pairwise Disjoint) (hB : B ∈ blocks) (hx : x ∈ B)
    (hC : C ∈ blocks) (hy : y ∈ C) : layer blocks y = layer blocks x ↔ y ∈ B := by
  have hgetx := getElem?_layer hd hB hx
  have hgety := getElem?_layer hd hC hy
  constructor
  · intro heq
    rw [heq, hgetx, Option.some_inj] at hgety
    exact hgety ▸ hy
  · intro hyB
    exact layer_eq hd hgetx hyB

theorem Adjacent.layer_eq (hd : blocks.Pairwise Disjoint) (h : Adjacent blocks x y) :
    layer blocks y = layer blocks x + 1 := by
  obtain ⟨B, C, ⟨s, t, rfl⟩, hx, hy⟩ := h
  rw [ChainGrammar.layer_eq (i := s.length) hd (by simp) hx,
    ChainGrammar.layer_eq (i := s.length + 1) hd (by simp) hy]

end Layers

namespace IsSample

variable (h : IsSample blocks ws)
include h

theorem exists_block (hx : x ∈ ws.flatten) : ∃ B ∈ blocks, x ∈ B := by
  obtain ⟨p, hp, hxp⟩ := List.mem_flatten.1 hx
  exact (h.runs p hp).exists_block hxp

theorem follows (hBC : [B, C] <:+: blocks) (hx : x ∈ B) (hy : y ∈ C) : Follows ws x y := by
  have hpairs := List.IsChain.infix h.pairs hBC
  rw [List.isChain_pair] at hpairs
  exact hpairs x hx y hy

/-- **All symbols of the blocks occur**, in a pair with one of the next block or of the one before,
if the block is not alone. -/
theorem mem_flatten (hB : B ∈ blocks) (hx : x ∈ B) : x ∈ ws.flatten := by
  obtain ⟨s, t, rfl⟩ := List.append_of_mem hB
  cases t with
  | cons C t =>
    obtain ⟨y, hy⟩ := h.nonempty C (by simp)
    exact (h.follows ⟨s, t, by simp⟩ hx hy).mem_flatten.1
  | nil =>
    rcases s.eq_nil_or_concat with rfl | ⟨s, A, rfl⟩
    · exact h.alone B rfl x hx
    · obtain ⟨y, hy⟩ := h.nonempty A (by simp)
      exact (h.follows ⟨s, [], by simp⟩ hy hx).mem_flatten.2

/-- **The symbols are on the layers of their blocks**: each is followed by itself or by the symbols
of the next block. -/
theorem layered [DecidableEq α] : Layered (Follows ws) (· ∈ ws.flatten) (layer blocks) where
  ends _ _ hxy := hxy.mem_flatten
  step x y hxy := by
    obtain ⟨p, hp, hpair⟩ := hxy
    have hstep := List.IsChain.infix (h.runs p hp).isChain hpair
    rw [List.isChain_pair] at hstep
    exact hstep.imp_right fun hadj => hadj.layer_eq h.disjoint
  full x y hx hy hlayer := by
    obtain ⟨B, hB, hxB⟩ := h.exists_block hx
    obtain ⟨C, hC, hyC⟩ := h.exists_block hy
    have hgetx := getElem?_layer h.disjoint hB hxB
    have hgety := getElem?_layer h.disjoint hC hyC
    rw [hlayer] at hgety
    obtain ⟨hi, rfl⟩ := List.getElem?_eq_some_iff.1 hgetx
    obtain ⟨hj, rfl⟩ := List.getElem?_eq_some_iff.1 hgety
    exact List.isChain_iff_getElem.1 h.pairs _ hj x hxB y hyC
  below y hy hpos := by
    obtain ⟨C, hC, hyC⟩ := h.exists_block hy
    obtain ⟨hj, -⟩ := List.getElem?_eq_some_iff.1 (getElem?_layer h.disjoint hC hyC)
    have hi : layer blocks y - 1 < blocks.length := by omega
    obtain ⟨x, hx⟩ := h.nonempty _ (List.getElem_mem hi)
    have hlayer : layer blocks x = layer blocks y - 1 :=
      layer_eq h.disjoint (List.getElem?_eq_getElem hi) hx
    exact ⟨x, h.mem_flatten (List.getElem_mem hi) hx, by omega⟩

end IsSample

/-! ## Slots of a sample -/

namespace Automaton

variable [DecidableEq α] {g q h : Graph} {c s : Partition} {m : Array (List Nat)} {o : List Nat}
  {fs : List (Expr α)}

/-- The symbols of a block that occur, in the order in which they occur first. -/
def metIn (ws : List (List α)) (B : Finset α) : List α := ws.flatten.eraseDups.filter (· ∈ B)

/-- There is a first symbol, and all of them are on lower layers than those of the second list. -/
def Below (blocks : List (Finset α)) (ts us : List α) : Prop :=
  ts ≠ [] ∧ ∀ t ∈ ts, ∀ u ∈ us, layer blocks t < layer blocks u

instance : Std.Irrefl (Below blocks) where
  irrefl ts := by
    rintro ⟨hne, hlt⟩
    obtain ⟨t, ht⟩ := List.exists_mem_of_ne_nil ts hne
    exact Nat.lt_irrefl _ (hlt t ht t ht)

instance : Std.Antisymm (Below blocks) where
  antisymm ts us := by
    rintro ⟨hts, htu⟩ ⟨hus, hut⟩
    obtain ⟨t, ht⟩ := List.exists_mem_of_ne_nil ts hts
    obtain ⟨u, hu⟩ := List.exists_mem_of_ne_nil us hus
    exact absurd (htu t ht u hu) (Nat.lt_asymm (hut u hu t ht))

section Sample

variable (hb : IsSample blocks ws) (hc : (ofSequences ws).ChainSteps g c q s h m o fs)
include hb

theorem mem_metIn (hB : B ∈ blocks) : x ∈ metIn ws B ↔ x ∈ B := by
  rw [metIn, List.mem_filter, List.mem_eraseDups, decide_eq_true_iff]
  exact and_iff_right_of_imp (hb.mem_flatten hB)

theorem pairwise_metIn : (blocks.map (metIn ws)).Pairwise (Below blocks) := by
  refine List.pairwise_map.2 (List.pairwise_iff_getElem.2 fun i j hi hj hij => ⟨?_, ?_⟩)
  · obtain ⟨x, hx⟩ := hb.nonempty _ (List.getElem_mem hi)
    exact List.ne_nil_of_mem ((mem_metIn hb (List.getElem_mem hi)).2 hx)
  · intro x hx y hy
    rw [mem_metIn hb (List.getElem_mem hi)] at hx
    rw [mem_metIn hb (List.getElem_mem hj)] at hy
    rw [layer_eq hb.disjoint (List.getElem?_eq_getElem hi) hx,
      layer_eq hb.disjoint (List.getElem?_eq_getElem hj) hy]
    exact hij

include hc

/-- **Symbols share a slot** if they are on the same layer. -/
theorem ChainSteps.number_eq_iff_layer (hx : x ∈ ws.flatten) (hy : y ∈ ws.flatten) :
    s.number (rank ws.flatten x) = s.number (rank ws.flatten y) ↔
      layer blocks x = layer blocks y := by
  rw [number_rank_eq_iff hc.isGraph hc.isComponents hc.isQuotient hc.isSlots hx hy,
    hb.layered.interchangeable_iff hx hy]

/-- **The slot of a symbol** has the symbols of its block. -/
theorem ChainSteps.slotSymbols_eq (hB : B ∈ blocks) (hx : x ∈ B) :
    slotSymbols ws.flatten s (s.number (rank ws.flatten x)) = metIn ws B := by
  refine List.filter_congr fun t ht => ?_
  have ht' : t ∈ ws.flatten := List.mem_eraseDups.1 ht
  obtain ⟨C, hC, htC⟩ := hb.exists_block ht'
  rw [decide_eq_decide, hc.number_eq_iff_layer hb ht' (hb.mem_flatten hB hx),
    layer_eq_iff hb.disjoint hB hx hC htC]

/-- An earlier place is a lower layer. -/
theorem ChainSteps.layer_lt (hx : x ∈ ws.flatten) (hy : y ∈ ws.flatten)
    (hlt : placeOf ws.flatten s o x < placeOf ws.flatten s o y) :
    layer blocks x < layer blocks y := by
  have hr := records_ofSequences ws
  by_contra hle
  -- then a path from `y` to `x` gives `y` the earlier place, or one slot holds both
  rcases Nat.lt_or_eq_of_le (Nat.le_of_not_lt hle) with hback | heq
  · have hyx : g.Reaches (rank ws.flatten y) (rank ws.flatten x) :=
      (hc.isGraph.reaches_rank_iff hy hx).2 (hb.layered.transGen_of_lt hy hx hback)
    have hxy : ¬g.Reaches (rank ws.flatten x) (rank ws.flatten y) := by
      intro hxy
      rcases hb.layered.eq_or_lt ((hc.isGraph.reaches_rank_iff hx hy).1 hxy) with rfl | hlayer
      · exact Nat.lt_irrefl _ hlt
      · exact hle hlayer
    exact Nat.lt_asymm hlt (hc.placeOf_lt hyx hxy)
  · have hplace := (hc.placeOf_eq_iff hr hy).2 ((hc.number_eq_iff_layer hb hy hx).2 heq)
    omega

theorem ChainSteps.pairwise_slotSymbols :
    (o.map (slotSymbols ws.flatten s)).Pairwise (Below blocks) := by
  have hr := records_ofSequences ws
  refine List.pairwise_map.2 (List.pairwise_iff_getElem.2 fun i j hi hj hij => ⟨?_, ?_⟩)
  · exact hc.slotSymbols_ne_nil hr (hc.mem_order.1 (List.getElem_mem hi))
  · intro x hx y hy
    obtain ⟨hx, hxi⟩ := mem_slotSymbols.1 hx
    obtain ⟨hy, hyj⟩ := mem_slotSymbols.1 hy
    have hnodup := hc.isForward.nodup
    refine hc.layer_lt hb hx hy ?_
    rw [placeOf, placeOf, hxi, hyj, hnodup.idxOf_getElem i hi, hnodup.idxOf_getElem j hj]
    exact hij

/-- **The slots in their order** have the symbols of the blocks. -/
theorem ChainSteps.map_slotSymbols : o.map (slotSymbols ws.flatten s) = blocks.map (metIn ws) := by
  have hr := records_ofSequences ws
  have hslots := hc.pairwise_slotSymbols hb
  -- both lists rise through the layers, so only their members have to be compared
  refine hslots.eq_of_mem_iff (pairwise_metIn hb) fun ts => ?_
  simp only [List.mem_map]
  constructor
  · rintro ⟨b, hbo, rfl⟩
    obtain ⟨x, hx⟩ := List.exists_mem_of_ne_nil _ (hc.slotSymbols_ne_nil hr (hc.mem_order.1 hbo))
    obtain ⟨hmem, rfl⟩ := mem_slotSymbols.1 hx
    obtain ⟨B, hB, hxB⟩ := hb.exists_block hmem
    exact ⟨B, hB, (hc.slotSymbols_eq hb hB hxB).symm⟩
  · rintro ⟨B, hB, rfl⟩
    obtain ⟨x, hx⟩ := hb.nonempty B hB
    exact ⟨_, hc.number_mem hr (hb.mem_flatten hB hx), hc.slotSymbols_eq hb hB hx⟩

end Sample

/-- **The chain expression of a sample has the blocks as its factors**, in their order, each with
the symbols of its block in the order in which they occur first. -/
theorem chain_recovers (blocks : List (Finset α)) (ws : List (List α)) (hb : IsSample blocks ws)
    (hws : ws.flatten.length < 2 ^ 63) :
    (ofSequences ws).chain = .ok (.sequence (blocks.map fun B => factorOf (metIn ws B))) ∧
      ∀ B ∈ blocks, (metIn ws B).Nodup ∧ (metIn ws B).toFinset = B := by
  obtain ⟨g, c, q, s, h, m, o, fs, hc⟩ := chainSteps_of_length hws
  have hfactors : fs = blocks.map fun B => factorOf (metIn ws B) :=
    calc fs = o.map (factorOf ∘ slotSymbols ws.flatten s) :=
          hc.factors_eq_map (records_ofSequences ws)
      _ = (o.map (slotSymbols ws.flatten s)).map factorOf := List.map_map.symm
      _ = (blocks.map (metIn ws)).map factorOf := by rw [hc.map_slotSymbols hb]
      _ = blocks.map fun B => factorOf (metIn ws B) := List.map_map
  refine ⟨hfactors ▸ hc.chain_eq, fun B hB => ⟨(nodup_eraseDups _).filter _, ?_⟩⟩
  ext x
  rw [List.mem_toFinset, mem_metIn hb hB]

/-- The sample has a repeated symbol and two symbols in the first block. -/
theorem chain_recovers_pair :
    IsSample [{1, 2}, {3}] [[2, 2, 3], [1, 3]] ∧ [[2, 2, 3], [1, 3]].flatten.length < 2 ^ 63 ∧
      (ofSequences [[2, 2, 3], [1, 3]]).chain =
        .ok (.sequence [.repeated (.choice [.symbol 2, .symbol 1]), .repeated (.symbol 3)]) := by
  have hlast : RunsThrough [{3}] [3] := .cons (n := 1) (by decide) le_rfl .nil
  have hsample : IsSample [{1, 2}, {3}] [[2, 2, 3], [1, 3]] :=
    { nonempty := by decide
      disjoint := by decide
      runs := by
        intro p hp
        simp only [List.mem_cons, List.not_mem_nil, or_false] at hp
        rcases hp with rfl | rfl
        · exact .cons (x := 2) (n := 2) (by decide) (by decide) hlast
        · exact .cons (x := 1) (n := 1) (by decide) le_rfl hlast
      pairs := by decide
      alone := by
        intro B hB
        exact nomatch hB }
  have hlen : [[2, 2, 3], [1, 3]].flatten.length < 2 ^ 63 := by decide
  obtain ⟨hchain, -⟩ := chain_recovers _ _ hsample hlen
  exact ⟨hsample, hlen, hchain⟩

end Automaton

end ChainGrammar

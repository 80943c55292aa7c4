import Mathlib.Algebra.Group.Nat.Defs
import ChainGrammar.Proofs.Condensation
import ChainGrammar.Proofs.SlotPlacement

/-!
# Slots and the graph of the slots

Here `c` is the partition of the nodes of `g` into components, `q` the graph of the components,
`s` the partition into slots and `h` the graph of the slots.

* `Graph.IsComponents.signature_eq_iff_adj`: components have the same neighbours if they have the
  same edges.
* `Graph.slotsOf`: components with the same neighbours, numbered as they are first met.
* `Graph.IsSlots`: nodes share a slot if their components have the same neighbours.
* `Graph.slots_ok`: **the slots are found** in every graph whose nodes a 64-bit number can count.
* `Graph.IsSlots.acyclic`: **the graph of the slots has no cycle**.
* `Graph.IsSlots.reaches_iff`: slots reach each other as their members do.
* `Graph.shares_slot_iff`: **the exact meaning of slots**.
-/

namespace ChainGrammar.Graph

variable {g q h : Graph} {c s : Partition} {a b x y : Nat}

/-! ## Neighbours of components -/

/-- Sets of components are equal if they have the components of the same nodes. -/
theorem IsComponents.set_eq_iff {A B : SortedSet Nat} (hc : g.IsComponents c)
    (hA : ∀ a ∈ A, a < c.count) (hB : ∀ b ∈ B, b < c.count) :
    A = B ↔ ∀ z < g.size, (c.number z ∈ A ↔ c.number z ∈ B) := by
  have hnode : ∀ a < c.count, ∃ z < g.size, c.number z = a := by
    intro a ha
    obtain ⟨z, hz, hza⟩ := hc.dense.exists_number ha
    exact ⟨z, hc.size_eq ▸ hz, hza⟩
  constructor
  · rintro rfl z -
    exact Iff.rfl
  · refine fun h => SortedSet.ext_mem fun a => ⟨fun ha => ?_, fun ha => ?_⟩
    · obtain ⟨z, hz, rfl⟩ := hnode a (hA a ha)
      exact (h z hz).1 ha
    · obtain ⟨z, hz, rfl⟩ := hnode a (hB a ha)
      exact (h z hz).2 ha

/-- Components have the same neighbours if the edges between them and every other component are the
same. -/
theorem IsComponents.signature_eq_iff_adj (hc : g.IsComponents c) (hq : g.IsQuotient c q) :
    q.signature a = q.signature b ↔
      (∀ z < g.size, (q.Adj (c.number z) a ↔ q.Adj (c.number z) b)) ∧
        ∀ z < g.size, (q.Adj a (c.number z) ↔ q.Adj b (c.number z)) := by
  have hprev : ∀ b, ∀ a ∈ q.prev b, a < c.count :=
    fun b a hab => hq.size_eq ▸ (adj_iff_mem_prev.2 hab).lt.1
  have hnext : ∀ a, ∀ b ∈ q.next a, b < c.count :=
    fun a b hab => hq.size_eq ▸ (adj_iff_mem_next.2 hab).lt.2
  rw [signature, signature, Prod.mk.injEq, hc.set_eq_iff (hprev _) (hprev _),
    hc.set_eq_iff (hnext _) (hnext _)]
  simp only [adj_iff_mem_prev (g := q) (x := c.number _), ← adj_iff_mem_next]

/-! ## Finding the slots -/

/-- The partition of the nodes into those with the same neighbours, numbered as these are first
met. -/
def slotsOf (q : Graph) : Partition := Partition.ofRanks (q.nodes.map q.signature)

theorem size_slotsOf (q : Graph) : q.slotsOf.size = q.size := by simp [slotsOf, nodes]

theorem number_slotsOf_iff (ha : a < q.size) (hb : b < q.size) :
    q.slotsOf.number a = q.slotsOf.number b ↔ q.signature a = q.signature b := by
  rw [slotsOf, Partition.number_ofRanks_eq_iff (by simpa [nodes] using ha)
    (by simpa [nodes] using hb)]
  simp [nodes]

theorem dense_slotsOf (q : Graph) : q.slotsOf.Dense := Partition.dense_ofRanks _

theorem ofNumbers_slotsOf (hq : q.size ≤ Partition.lastNumber) :
    Partition.ofNumbers q.slotsOf.numbers = .ok q.slotsOf := by
  refine Partition.ofNumbers_ok (dense_slotsOf q) (Nat.le_trans ?_ hq)
  exact size_slotsOf q ▸ (dense_slotsOf q).count_le_size

/-- Nodes share a slot if their components have the same neighbours. The slots are numbered in the
order of their least nodes. -/
structure IsSlots (g : Graph) (c : Partition) (q : Graph) (s : Partition) : Prop where
  size_eq : s.size = g.size
  dense : s.Dense
  ordered : s.Ordered
  number_iff : ∀ x y, x < g.size → y < g.size →
    (s.number x = s.number y ↔ q.signature (c.number x) = q.signature (c.number y))

section Merging

variable (hc : g.IsComponents c) (hq : g.IsQuotient c q)
include hc hq

/-- Components with the same neighbours are merged into slots. -/
theorem compose_slotsOf : ∃ s, c.compose q.slotsOf = .ok s ∧ g.IsSlots c q s := by
  have hcount : q.slotsOf.size = c.count := (size_slotsOf q).trans hq.size_eq
  obtain ⟨s, hs, hsize, hcnt, hnumber⟩ := Partition.compose_ok hc.dense hcount
  refine ⟨s, hs, hsize.trans hc.size_eq, ?_, ?_, fun x y hx hy => ?_⟩
  · exact hc.dense.of_compose (dense_slotsOf q) hcount hsize hcnt hnumber
  · exact hc.ordered.of_compose (Partition.ordered_ofRanks _) hc.dense hcount hsize hnumber
  · have hx' := hc.number_lt hx
    have hy' := hc.number_lt hy
    rw [← hq.size_eq] at hx' hy'
    rw [hnumber x (hc.size_eq ▸ hx), hnumber y (hc.size_eq ▸ hy), number_slotsOf_iff hx' hy']

theorem placeAll_slotsOf :
    ∃ slots, Slot.placeAll q q.reachability q.nodes [] = .ok (slots, q.slotsOf.numbers) := by
  obtain ⟨slots, hall, -⟩ := Slot.placeAll_begin (hc.acyclic hq) fun a ha => mem_nodes.1 ha
  exact ⟨slots, hall⟩

end Merging

/-- **The slots are found**, each step on the way with its result. -/
theorem slots_ok (hg : g.size ≤ Partition.lastNumber) :
    ∃ c q s, g.components = .ok c ∧ g.IsComponents c ∧ g.quotient c = .ok q ∧ g.IsQuotient c q ∧
      Partition.ofNumbers q.slotsOf.numbers = .ok q.slotsOf ∧ c.compose q.slotsOf = .ok s ∧
      g.slots = .ok s ∧ g.IsSlots c q s := by
  obtain ⟨c, hcomponents, hc⟩ := components_ok hg
  obtain ⟨q, hquotient, hq⟩ := hc.quotient_ok
  obtain ⟨s, hcompose, hs⟩ := compose_slotsOf hc hq
  obtain ⟨slots, hplace⟩ := placeAll_slotsOf hc hq
  have hnumbers : Partition.ofNumbers q.slotsOf.numbers = .ok q.slotsOf :=
    ofNumbers_slotsOf (Nat.le_trans (hq.size_eq ▸ hc.count_le) hg)
  refine ⟨c, q, s, hcomponents, hc, hquotient, hq, hnumbers, hcompose, ?_, hs⟩
  rw [Graph.slots, hcomponents, ok_bind, hquotient, ok_bind, hplace, ok_bind]
  simp only [hnumbers, ok_bind, hcompose]

theorem IsSlots.number_lt (hs : g.IsSlots c q s) (hx : x < g.size) : s.number x < s.count :=
  hs.dense.number_lt (hs.size_eq ▸ hx)

theorem IsSlots.quotient_ok (hs : g.IsSlots c q s) :
    ∃ h, g.quotient s = .ok h ∧ g.IsQuotient s h :=
  Graph.quotient_ok hs.size_eq fun _ hx => hs.number_lt hx

/-! ## The graph of the slots -/

section SlotGraph

variable (hc : g.IsComponents c) (hq : g.IsQuotient c q) (hs : g.IsSlots c q s)
include hc hq hs

/-- **Nodes that share a slot** are joined, or neither reaches the other. -/
theorem IsSlots.joined_or_not_reaches (hx : x < g.size) (hy : y < g.size)
    (hxy : s.number x = s.number y) : g.Joined x y ∨ ¬g.Reaches x y ∧ ¬g.Reaches y x := by
  have hsig := (hs.number_iff x y hx hy).1 hxy
  by_cases hne : c.number x = c.number y
  · exact .inl ((hc.number_iff x y hx hy).1 hne)
  · refine .inr ⟨?_, ?_⟩
    · rw [← hc.reaches_iff hq hx hy hne]
      exact not_reaches_of_signature_eq (hc.acyclic hq) hsig
    · rw [← hc.reaches_iff hq hy hx (Ne.symm hne)]
      exact not_reaches_of_signature_eq (hc.acyclic hq) hsig.symm

/-- Nodes of which one reaches the other, but not the other way round, are in different slots. -/
theorem IsSlots.number_ne (hxy : g.Reaches x y) (hyx : ¬g.Reaches y x) :
    s.number x ≠ s.number y := by
  intro he
  rcases hs.joined_or_not_reaches hc hq hxy.lt.1 hxy.lt.2 he with (rfl | hj) | hn
  · exact hyx hxy
  · exact hyx hj.2
  · exact hn.1 hxy

omit hq in
/-- Joined nodes share a slot. -/
theorem IsSlots.number_eq_of_joined (hx : x < g.size) (hy : y < g.size) (hxy : g.Joined x y) :
    s.number x = s.number y := by
  rw [hs.number_iff x y hx hy, (hc.number_iff x y hx hy).2 hxy]

variable (hh : g.IsQuotient s h)
include hh

/-- **An edge between slots** is one between all of their components. -/
theorem IsSlots.adj_of_adj (hab : h.Adj a b) (hx : x < g.size) (hy : y < g.size)
    (hxa : s.number x = a) (hyb : s.number y = b) : q.Adj (c.number x) (c.number y) := by
  obtain ⟨hne, v, w, hvw, hva, hwb⟩ := (hh.adj_iff a b).1 hab
  obtain ⟨hv, hw⟩ := hvw.lt
  have hcvw : c.number v ≠ c.number w := fun he =>
    hne (hva ▸ hwb ▸ hs.number_eq_of_joined hc hv hw ((hc.number_iff v w hv hw).1 he))
  have hadj : q.Adj (c.number v) (c.number w) := (hq.adj_iff _ _).2 ⟨hcvw, v, w, hvw, rfl, rfl⟩
  -- first the target is exchanged for another member of its slot, then the source
  have hxv := (hs.number_iff x v hx hv).1 (hxa.trans hva.symm)
  have hyw := (hs.number_iff y w hy hw).1 (hyb.trans hwb.symm)
  have hprev : q.prev (c.number y) = q.prev (c.number w) := congrArg Prod.fst hyw
  have hnext : q.next (c.number x) = q.next (c.number v) := congrArg Prod.snd hxv
  rw [adj_iff_mem_prev, ← hprev, ← adj_iff_mem_prev, adj_iff_mem_next, ← hnext] at hadj
  exact hadj

/-- A path between slots is one between all of their components. -/
theorem IsSlots.reaches_of_reaches (hab : h.Reaches a b) (hx : x < g.size) (hy : y < g.size)
    (hxa : s.number x = a) (hyb : s.number y = b) : q.Reaches (c.number x) (c.number y) := by
  induction hab generalizing y with
  | single hab => exact (hs.adj_of_adj hc hq hh hab hx hy hxa hyb).reaches
  | @tail d b _ hdb ih =>
    obtain ⟨-, v, w, hvw, hvd, -⟩ := (hh.adj_iff d b).1 hdb
    have hlast := hs.adj_of_adj hc hq hh hdb hvw.lt.1 hy hvd hyb
    exact (ih hvw.lt.1 hvd).trans hlast.reaches

/-- **The graph of the slots has no cycle**: one would lead from a component back to it. -/
theorem IsSlots.acyclic : h.Acyclic := by
  intro a ha
  obtain ⟨b, hab, -⟩ := reaches_iff_head.1 ha
  obtain ⟨-, x, y, hxy, hxa, -⟩ := (hh.adj_iff a b).1 hab
  exact hc.acyclic hq _ (hs.reaches_of_reaches hc hq hh ha hxy.lt.1 hxy.lt.1 hxa hxa)

/-- **Different slots** reach each other as their members do. -/
theorem IsSlots.reaches_iff (hx : x < g.size) (hy : y < g.size) (hne : s.number x ≠ s.number y) :
    h.Reaches (s.number x) (s.number y) ↔ g.Reaches x y := by
  have hcne : c.number x ≠ c.number y := fun he =>
    hne (hs.number_eq_of_joined hc hx hy ((hc.number_iff x y hx hy).1 he))
  constructor
  · intro hr
    rw [← hc.reaches_iff hq hx hy hcne]
    exact hs.reaches_of_reaches hc hq hh hr hx hy rfl rfl
  · intro hr
    exact (hh.leads hr.leads).reaches_of_ne hne

end SlotGraph

/-! ## The meaning of slots -/

/-- Sharing a slot, said through the components of the nodes. -/
theorem IsSlots.number_eq_iff (hc : g.IsComponents c) (hq : g.IsQuotient c q) (hs : g.IsSlots c q s)
    (hx : x < g.size) (hy : y < g.size) :
    s.number x = s.number y ↔ x = y ∨ (g.Reaches x y ∧ g.Reaches y x) ∨
      (c.number x ≠ c.number y ∧ ¬q.Reaches (c.number x) (c.number y) ∧
        ¬q.Reaches (c.number y) (c.number x) ∧ q.prev (c.number x) = q.prev (c.number y) ∧
        q.next (c.number x) = q.next (c.number y)) := by
  have hjoined := hc.number_iff x y hx hy
  constructor
  · intro h
    by_cases hne : c.number x = c.number y
    · exact (hjoined.1 hne).imp id .inl
    · have hsig := (hs.number_iff x y hx hy).1 h
      exact .inr (.inr ⟨hne, not_reaches_of_signature_eq (hc.acyclic hq) hsig,
        not_reaches_of_signature_eq (hc.acyclic hq) hsig.symm, congrArg Prod.fst hsig,
        congrArg Prod.snd hsig⟩)
  · rintro (rfl | h | ⟨-, -, -, hprev, hnext⟩)
    · rfl
    · exact hs.number_eq_of_joined hc hx hy (.inr h)
    · exact (hs.number_iff x y hx hy).2 (Prod.ext hprev hnext)

/-- **The exact meaning of slots.** Two nodes share a slot if they are the same, if they reach each
other, or if they are in different components of which neither reaches the other and which have
the same components before them and the same ones after them. No slot is empty, and the slots are
numbered in the order of their least nodes. -/
theorem shares_slot_iff (hg : g.size < 2 ^ 63) :
    ∃ c q s, g.components = .ok c ∧ g.quotient c = .ok q ∧ g.slots = .ok s ∧ s.size = g.size ∧
      (∀ x y, x < g.size → y < g.size → (s.number x = s.number y ↔
        x = y ∨ (g.Reaches x y ∧ g.Reaches y x) ∨
          (c.number x ≠ c.number y ∧ ¬q.Reaches (c.number x) (c.number y) ∧
            ¬q.Reaches (c.number y) (c.number x) ∧ q.prev (c.number x) = q.prev (c.number y) ∧
            q.next (c.number x) = q.next (c.number y)))) ∧
      s.normalise = .ok s ∧ (∀ b < s.count, s.members b ≠ []) ∧
      ∀ a b, a < b → b < s.count → ∃ x ∈ s.members a, ∀ y ∈ s.members b, x < y := by
  have hlast : g.size ≤ Partition.lastNumber := by
    unfold Partition.lastNumber
    omega
  obtain ⟨c, q, s, hcomponents, hc, hquotient, hq, -, -, hslots, hs⟩ := slots_ok hlast
  refine ⟨c, q, s, hcomponents, hquotient, hslots, hs.size_eq, ?_, ?_, ?_, ?_⟩
  · exact fun x y hx hy => hs.number_eq_iff hc hq hx hy
  · exact hs.ordered.normalise_eq_self hs.dense
  · exact fun b hb => hs.dense.members_ne_nil hb
  · exact fun a b hab hb => hs.ordered.exists_lt_members hs.dense hab hb

/-- On the graph with the edges `0 → 1`, `1 → 0` and `1 → 2`, the nodes `0` and `1` share a slot. -/
theorem shares_slot_iff_cycle :
    ∃ g s, ofEdges 3 [(0, 1), (1, 0), (1, 2)] = .ok g ∧ g.size < 2 ^ 63 ∧ g.slots = .ok s ∧
      s.number 0 = s.number 1 ∧ s.normalise = .ok s := by
  have hends : ∀ e ∈ [(0, 1), (1, 0), (1, 2)], e.1 < 3 ∧ e.2 < 3 := by decide
  obtain ⟨g, hg, hsize, hadj⟩ := ofEdges_ok hends
  have hlt : g.size < 2 ^ 63 := by omega
  obtain ⟨c, q, s, -, -, hs, -, hiff, hnormal, -⟩ := shares_slot_iff hlt
  have h01 : g.Reaches 0 1 := Adj.reaches ((hadj 0 1).2 (by decide))
  have h10 : g.Reaches 1 0 := Adj.reaches ((hadj 1 0).2 (by decide))
  exact ⟨g, s, hg, hlt, hs, (hiff 0 1 (by omega) (by omega)).2 (.inr (.inl ⟨h01, h10⟩)), hnormal⟩

end ChainGrammar.Graph

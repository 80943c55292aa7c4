import ChainGrammar.Proofs.Slots

/-!
# What the graph of the slots keeps

Here `c` is the partition of the nodes of `g` into components, `q` the graph of the components,
`s` the partition into slots and `h` the graph of the slots.

* `Partition.Within`: a block of one partition is part of a block of another one.
* `Graph.IsSlots.adj_iff`: **slots have the edges of their components**.
* `Graph.slot_graph_reaches`: the graph of the slots reaches what the graph reaches.
* `Graph.IsSlots.signature_inj`: different slots have different neighbours.
* `Graph.slots_of_slot_graph`: **a second pass merges nothing**.
-/

namespace ChainGrammar

namespace Partition

/-- Block `i` of `p` is one of those that make up block `a` of `s`. -/
def Within (p s : Partition) (i a : Nat) : Prop :=
  i < p.count ∧ ∀ x ∈ p.members i, s.number x = a

end Partition

namespace Graph

variable {g q h : Graph} {c s : Partition} {a b i j x y : Nat}

/-! ## Edges and paths between slots -/

section SlotGraph

variable (hc : g.IsComponents c) (hq : g.IsQuotient c q) (hs : g.IsSlots c q s)
include hc hq hs

omit hq in
/-- Every component lies in the slot of its members. -/
theorem IsSlots.within (hx : x < g.size) : c.Within s (c.number x) (s.number x) := by
  refine ⟨hc.number_lt hx, fun y hy => ?_⟩
  obtain ⟨hy, hyx⟩ := Partition.mem_members.1 hy
  rw [hc.size_eq] at hy
  exact hs.number_eq_of_joined hc hy hx ((hc.number_iff y x hy hx).1 hyx)

variable (hh : g.IsQuotient s h)
include hh

/-- **Slots have the edges of their components**, whichever these are. -/
theorem IsSlots.adj_iff (hx : x < g.size) (hy : y < g.size) :
    h.Adj (s.number x) (s.number y) ↔ q.Adj (c.number x) (c.number y) := by
  constructor
  · exact fun hxy => hs.adj_of_adj hc hq hh hxy hx hy rfl rfl
  · intro hxy
    obtain ⟨hne, v, w, hvw, hvx, hwy⟩ := (hq.adj_iff _ _).1 hxy
    obtain ⟨hv, hw⟩ := hvw.lt
    -- `w` does not reach `v`, since they would be in one component
    have hback : ¬g.Reaches w v := fun hwv =>
      hne (hvx ▸ hwy ▸ (hc.number_iff v w hv hw).2 (.inr ⟨hvw.reaches, hwv⟩))
    have hslots := hs.number_ne hc hq hvw.reaches hback
    have hsv := hs.number_eq_of_joined hc hv hx ((hc.number_iff v x hv hx).1 hvx)
    have hsw := hs.number_eq_of_joined hc hw hy ((hc.number_iff w y hw hy).1 hwy)
    rw [hsv, hsw] at hslots
    exact (hh.adj_iff _ _).2 ⟨hslots, v, w, hvw, hsv, hsw⟩

/-- An edge between slots is one from every component of the first to every one of the second. -/
theorem IsSlots.adj_of_within (hab : h.Adj a b) (hi : c.Within s i a) (hj : c.Within s j b) :
    q.Adj i j := by
  obtain ⟨x, hx, rfl⟩ := hc.dense.exists_number hi.1
  obtain ⟨y, hy, rfl⟩ := hc.dense.exists_number hj.1
  have hxa := hi.2 x (Partition.mem_members.2 ⟨hx, rfl⟩)
  have hyb := hj.2 y (Partition.mem_members.2 ⟨hy, rfl⟩)
  rw [hc.size_eq] at hx hy
  exact hs.adj_of_adj hc hq hh hab hx hy hxa hyb

/-! ## Merging is complete -/

/-- **Different slots have different neighbours**: slots with the same ones have components with
the same ones. -/
theorem IsSlots.signature_inj (ha : a < h.size) (hb : b < h.size)
    (hab : h.signature a = h.signature b) : a = b := by
  rw [hh.size_eq] at ha hb
  obtain ⟨x, hx, rfl⟩ := hs.dense.exists_number ha
  obtain ⟨y, hy, rfl⟩ := hs.dense.exists_number hb
  rw [hs.size_eq] at hx hy
  have hprev : h.prev (s.number x) = h.prev (s.number y) := congrArg Prod.fst hab
  have hnext : h.next (s.number x) = h.next (s.number y) := congrArg Prod.snd hab
  rw [hs.number_iff x y hx hy, hc.signature_eq_iff_adj hq]
  refine ⟨fun z hz => ?_, fun z hz => ?_⟩
  · rw [← hs.adj_iff hc hq hh hz hx, ← hs.adj_iff hc hq hh hz hy, adj_iff_mem_prev, hprev,
      ← adj_iff_mem_prev]
  · rw [← hs.adj_iff hc hq hh hx hz, ← hs.adj_iff hc hq hh hy hz, adj_iff_mem_next, hnext,
      ← adj_iff_mem_next]

end SlotGraph

/-- If every node is a block and none has an edge to itself, the quotient is the graph. -/
theorem IsQuotient.eq_self (hq : g.IsQuotient (.discrete g.size) q) (hg : g.Acyclic) : q = g := by
  refine ext_adj hq.size_eq fun a b => ?_
  rw [hq.adj_iff]
  constructor
  · rintro ⟨-, x, y, hxy, rfl, rfl⟩
    rwa [Partition.number_discrete hxy.lt.1, Partition.number_discrete hxy.lt.2]
  · intro hab
    refine ⟨?_, a, b, hab, Partition.number_discrete hab.lt.1, Partition.number_discrete hab.lt.2⟩
    rintro rfl
    exact hg a hab.reaches

/-- The slots of a graph without a cycle whose nodes have different neighbours are its nodes. -/
theorem IsSlots.eq_discrete (hs : g.IsSlots (.discrete g.size) g s)
    (hinj : ∀ a b, a < g.size → b < g.size → g.signature a = g.signature b → a = b) :
    s = .discrete g.size := by
  rw [← hs.size_eq]
  refine hs.ordered.eq_discrete hs.dense fun x y hx hy hxy => ?_
  rw [hs.size_eq] at hx hy
  have hsig := (hs.number_iff x y hx hy).1 hxy
  rw [Partition.number_discrete hx, Partition.number_discrete hy] at hsig
  exact hinj x y hx hy hsig

/-! ## Every graph -/

/-- The slots of a graph and the graph of its slots, with the components in between. -/
theorem slotGraph_ok (hg : g.size < 2 ^ 63) :
    ∃ c q s h, g.components = .ok c ∧ g.quotient c = .ok q ∧ g.slots = .ok s ∧
      g.quotient s = .ok h ∧ g.IsComponents c ∧ g.IsQuotient c q ∧ g.IsSlots c q s ∧
      g.IsQuotient s h := by
  obtain ⟨c, q, s, hcomponents, hc, hquotient, hq, -, -, hslots, hs⟩ :=
    slots_ok (size_le_lastNumber hg)
  obtain ⟨h, hquotient', hh⟩ := hs.quotient_ok
  exact ⟨c, q, s, h, hcomponents, hquotient, hslots, hquotient', hc, hq, hs, hh⟩

/-- **The graph of the slots reaches what the graph reaches.** Every component lies in one slot. An
edge between two slots is one from every component of the first to every component of the second.
Nodes in different slots reach each other as their slots do, and no slot reaches itself. -/
theorem slot_graph_reaches (hg : g.size < 2 ^ 63) :
    ∃ c q s h, g.components = .ok c ∧ g.quotient c = .ok q ∧ g.slots = .ok s ∧
      g.quotient s = .ok h ∧ (∀ x < g.size, c.Within s (c.number x) (s.number x)) ∧
      (∀ a b, h.Adj a b → ∀ i j, c.Within s i a → c.Within s j b → q.Adj i j) ∧
      (∀ x y, x < g.size → y < g.size → s.number x ≠ s.number y →
        (g.Reaches x y ↔ h.Reaches (s.number x) (s.number y))) ∧
      ∀ a, ¬h.Reaches a a := by
  obtain ⟨c, q, s, h, hcomponents, hquotient, hslots, hquotient', hc, hq, hs, hh⟩ :=
    slotGraph_ok hg
  refine ⟨c, q, s, h, hcomponents, hquotient, hslots, hquotient', ?_, ?_, ?_, ?_⟩
  · exact fun x hx => hs.within hc hx
  · exact fun a b hab i j hi hj => hs.adj_of_within hc hq hh hab hi hj
  · exact fun x y hx hy hne => (hs.reaches_iff hc hq hh hx hy hne).symm
  · exact hs.acyclic hc hq hh

/-- In a graph with two ways from `0` to `3` the nodes `1` and `2` on them share a slot. -/
theorem exists_diamond :
    ∃ g, ofEdges 4 [(0, 1), (0, 2), (1, 3), (2, 3)] = .ok g ∧ g.size = 4 ∧ g.Reaches 0 3 ∧
      g.slots = .ok ⟨[0, 1, 1, 2], 3⟩ := by
  have hends : ∀ e ∈ [(0, 1), (0, 2), (1, 3), (2, 3)], e.1 < 4 ∧ e.2 < 4 := by decide
  obtain ⟨g, hg, hsize, hadj⟩ := ofEdges_ok hends
  have hslots : (ofEdges 4 [(0, 1), (0, 2), (1, 3), (2, 3)] >>= fun g => g.slots) =
      .ok ⟨[0, 1, 1, 2], 3⟩ := rfl
  rw [hg, ok_bind] at hslots
  have h01 : g.Reaches 0 1 := Adj.reaches ((hadj 0 1).2 (by decide))
  have h13 : g.Reaches 1 3 := Adj.reaches ((hadj 1 3).2 (by decide))
  exact ⟨g, hg, hsize, h01.trans h13, hslots⟩

/-- With two ways from `0` to `3` the first of three slots reaches the last. -/
theorem slot_graph_reaches_diamond :
    ∃ g h, ofEdges 4 [(0, 1), (0, 2), (1, 3), (2, 3)] = .ok g ∧ g.size < 2 ^ 63 ∧
      g.slots = .ok ⟨[0, 1, 1, 2], 3⟩ ∧ g.quotient ⟨[0, 1, 1, 2], 3⟩ = .ok h ∧
      h.Reaches 0 2 := by
  obtain ⟨g, hg, hsize, h03, hnumbers⟩ := exists_diamond
  have hlt : g.size < 2 ^ 63 := by omega
  obtain ⟨c, q, s, h, -, -, hslots, hquotient, -, -, hreaches, -⟩ := slot_graph_reaches hlt
  obtain rfl := Except.ok.inj (hslots.symm.trans hnumbers)
  exact ⟨g, h, hg, hlt, hslots, hquotient,
    (hreaches 0 3 (by omega) (by omega) (by decide)).1 h03⟩

/-- **A second pass merges nothing.** The slots of the graph of the slots are its nodes, each with
its own number, and merging them gives the same graph again. -/
theorem slots_of_slot_graph (hg : g.size < 2 ^ 63) :
    ∃ s h, g.slots = .ok s ∧ g.quotient s = .ok h ∧ h.slots = .ok (.discrete h.size) ∧
      h.quotient (.discrete h.size) = .ok h := by
  obtain ⟨c, q, s, h, -, -, hslots, hquotient, hc, hq, hs, hh⟩ := slotGraph_ok hg
  have hacyclic : h.Acyclic := hs.acyclic hc hq hh
  have hsize : h.size < 2 ^ 63 := by
    have := hs.dense.count_le_size
    rw [hs.size_eq, ← hh.size_eq] at this
    omega
  obtain ⟨d, p, u, -, -, hp, hu, -, hd, hpq, hus, -⟩ := slotGraph_ok hsize
  -- the components are the nodes, and so are the slots, as their neighbours are all different
  obtain rfl := hd.eq_discrete hacyclic
  obtain rfl := hpq.eq_self hacyclic
  obtain rfl := hus.eq_discrete fun a b ha hb hab => hs.signature_inj hc hq hh ha hb hab
  exact ⟨s, p, hslots, hquotient, hu, hp⟩

/-- With two ways from `0` to `3` the first pass merges `1` and `2`, and the second one leaves the
three slots as they are. -/
theorem slots_of_slot_graph_diamond :
    ∃ g h, ofEdges 4 [(0, 1), (0, 2), (1, 3), (2, 3)] = .ok g ∧ g.size < 2 ^ 63 ∧
      g.slots = .ok ⟨[0, 1, 1, 2], 3⟩ ∧ g.quotient ⟨[0, 1, 1, 2], 3⟩ = .ok h ∧
      h.slots = .ok (.discrete h.size) := by
  obtain ⟨g, hg, hsize, -, hnumbers⟩ := exists_diamond
  have hlt : g.size < 2 ^ 63 := by omega
  obtain ⟨s, h, hslots, hquotient, hagain, -⟩ := slots_of_slot_graph hlt
  obtain rfl := Except.ok.inj (hslots.symm.trans hnumbers)
  exact ⟨g, h, hg, hlt, hslots, hquotient, hagain⟩

end Graph

end ChainGrammar

import ChainGrammar.Proofs.BuiltPartitions
import ChainGrammar.Proofs.SlotGraph

/-!
# Quotients of quotients

Merging the nodes of a graph along one partition and then the blocks along another one gives the
same graph as merging the nodes at once along both. The edges that are dropped at first are within
a block, and a block stays whole when blocks are merged. Here `h` is the quotient of `g` by `p`, and
`r` merges the blocks of `p` along `q`.

* `Graph.IsQuotient.unique`: a graph has one quotient by a partition.
* `Graph.IsQuotient.merge`: **a quotient of a quotient** is one by the merged partition.
* `Graph.quotient_quotient`: **both ways give the same graph**, for all partitions that are built.
* `Graph.slotGraph_eq_quotient`: the graph of the slots is a quotient of that of the components.
-/

namespace ChainGrammar.Graph

variable {g h k : Graph} {p q r : Partition}

/-- A graph has one quotient by a partition. -/
theorem IsQuotient.unique (hh : g.IsQuotient p h) (hk : g.IsQuotient p k) : h = k :=
  ext_adj (hh.size_eq.trans hk.size_eq.symm) fun a b => (hh.adj_iff a b).trans (hk.adj_iff a b).symm

/-- **A quotient of a quotient** is a quotient by the merged partition. -/
theorem IsQuotient.merge (hh : g.IsQuotient p h) (hk : h.IsQuotient q k)
    (hcount : r.count = q.count) (hr : ∀ x < g.size, r.number x = q.number (p.number x)) :
    g.IsQuotient r k := by
  refine ⟨hk.size_eq.trans hcount.symm, fun a b => ?_⟩
  rw [hk.adj_iff]
  refine and_congr_right fun hab => ⟨?_, ?_⟩
  · rintro ⟨c, d, hcd, hca, hdb⟩
    obtain ⟨-, x, y, hxy, rfl, rfl⟩ := (hh.adj_iff c d).1 hcd
    exact ⟨x, y, hxy, (hr x hxy.lt.1).trans hca, (hr y hxy.lt.2).trans hdb⟩
  · rintro ⟨x, y, hxy, hxa, hyb⟩
    rw [hr x hxy.lt.1] at hxa
    rw [hr y hxy.lt.2] at hyb
    -- the ends are in different blocks of `p`, as these are parts of different blocks of `r`
    have hne : p.number x ≠ p.number y := fun he => hab (by rw [← hxa, ← hyb, he])
    exact ⟨_, _, (hh.adj_iff _ _).2 ⟨hne, x, y, hxy, rfl, rfl⟩, hxa, hyb⟩

/-- Merging the nodes of a quotient succeeds, and gives the quotient by the merged partition. -/
theorem IsQuotient.quotient_ok (hh : g.IsQuotient p h) (hp : p.Dense) (hq : q.Dense)
    (hsize : p.size = g.size) (hr : p.compose q = .ok r) :
    ∃ k, h.quotient q = .ok k ∧ g.quotient r = .ok k := by
  obtain ⟨hcount, hrs, hrc, hnumber⟩ := hp.of_compose_eq_ok hr
  have hqh : q.size = h.size := hcount.trans hh.size_eq.symm
  have hrg : r.size = g.size := hrs.trans hsize
  obtain ⟨k, hk, hhk⟩ := Graph.quotient_ok hqh fun a ha => hq.number_lt (hqh ▸ ha)
  obtain ⟨k', hk', hgk⟩ := Graph.quotient_ok hrg fun x hx => (hp.compose hq hr).number_lt (hrg ▸ hx)
  obtain rfl : k' = k := hgk.unique (hh.merge hhk hrc fun x hx => hnumber x (hsize ▸ hx))
  exact ⟨k', hk, hk'⟩

/-- **Both ways to the quotient give the same graph.** If one partition has the nodes of a graph as
its elements and another one the blocks of the first, then all steps succeed, and merging the nodes
and then the blocks gives what merging the nodes along the merged partition gives. -/
theorem quotient_quotient (hp : p.Built) (hq : q.Built) (hsize : p.size = g.size)
    (hcount : q.size = p.count) :
    ∃ r h k, p.compose q = .ok r ∧ g.quotient p = .ok h ∧ h.quotient q = .ok k ∧
      g.quotient r = .ok k := by
  obtain ⟨r, hr, -⟩ := Partition.compose_ok hp.dense hcount
  obtain ⟨h, hquotient, hh⟩ := quotient_ok hsize fun x hx => hp.dense.number_lt (hsize ▸ hx)
  obtain ⟨k, hk, hgk⟩ := hh.quotient_ok hp.dense hq.dense hsize hr
  exact ⟨r, h, k, hr, hquotient, hk, hgk⟩

/-- A ring of four nodes, of which two are merged first and another one joins them later. The edges
between the three are dropped one by one or at once. -/
theorem quotient_quotient_ring :
    ∃ g h k, ofEdges 4 [(0, 1), (1, 2), (2, 3), (3, 0)] = .ok g ∧
      g.quotient ⟨[0, 0, 1, 2], 3⟩ = .ok h ∧ h.quotient ⟨[0, 1, 0], 2⟩ = .ok k ∧
      g.quotient ⟨[0, 0, 1, 0], 2⟩ = .ok k := by
  have hends : ∀ e ∈ [(0, 1), (1, 2), (2, 3), (3, 0)], e.1 < 4 ∧ e.2 < 4 := by decide
  obtain ⟨g, hg, hsize, -⟩ := ofEdges_ok hends
  have hp : Partition.Built ⟨[0, 0, 1, 2], 3⟩ := .ofNumbers (l := [0, 0, 1, 2]) rfl
  have hq : Partition.Built ⟨[0, 1, 0], 2⟩ := .ofNumbers (l := [0, 1, 0]) rfl
  obtain ⟨r, h, k, hr, hh, hk, hgk⟩ := quotient_quotient hp hq hsize.symm rfl
  obtain rfl := Except.ok.inj (hr.symm.trans rfl)
  exact ⟨g, h, k, hg, hh, hk, hgk⟩

/-- **The graph of the slots** is the quotient of the graph of the components by the groups of
components with the same neighbours. -/
theorem slotGraph_eq_quotient (hg : g.size < 2 ^ 63) :
    ∃ c q s h, g.components = .ok c ∧ g.quotient c = .ok q ∧ g.slots = .ok s ∧
      g.quotient s = .ok h ∧ q.quotient q.slotsOf = .ok h := by
  obtain ⟨c, q, s, hcomponents, hc, hquotient, hq, -, hcompose, hslots, -⟩ :=
    slots_ok (size_le_lastNumber hg)
  obtain ⟨h, hh, hgh⟩ := hq.quotient_ok hc.dense (dense_slotsOf q) hc.size_eq hcompose
  exact ⟨c, q, s, h, hcomponents, hquotient, hslots, hgh, hh⟩

end ChainGrammar.Graph

import Mathlib.Algebra.Group.Nat.Defs
import ChainGrammar.Proofs.LowLinks

/-!
# Strongly connected components

* `Graph.IsComponents`: a partition of the nodes whose blocks are the classes of joined nodes, in
  the order of their least nodes.
* `Graph.components_ok`: **the search finds the components** of every graph whose nodes a 64-bit
  number can count.
* `Graph.components_classes`: the components are the classes of nodes that reach each other.
-/

namespace ChainGrammar.Graph

variable {g : Graph} {c : Partition} {x y : Nat}

/-- The blocks of the partition are the classes of joined nodes, numbered in the order of their
least nodes. -/
structure IsComponents (g : Graph) (c : Partition) : Prop where
  size_eq : c.size = g.size
  dense : c.Dense
  ordered : c.Ordered
  number_iff : ∀ x y, x < g.size → y < g.size → (c.number x = c.number y ↔ g.Joined x y)

theorem IsComponents.number_lt (h : g.IsComponents c) (hx : x < g.size) : c.number x < c.count :=
  h.dense.number_lt (h.size_eq ▸ hx)

theorem IsComponents.count_le (h : g.IsComponents c) : c.count ≤ g.size :=
  h.size_eq ▸ h.dense.count_le_size

/-- The numbers that the search gives are the components in the order in which they were closed. -/
theorem ofNumbers_search (hg : g.size ≤ Partition.lastNumber) :
    ∃ p, Partition.ofNumbers
        (((Search.begin g).run g g.searchSteps).standing.toList.map Standing.component) = .ok p ∧
      p.size = g.size ∧ p.Dense ∧
      ∀ x y, x < g.size → y < g.size → (p.number x = p.number y ↔ g.Joined x y) := by
  obtain ⟨hc, hall⟩ := Search.run_begin g
  set t := ((Search.begin g).run g g.searchSteps).standing
  set n := ((Search.begin g).run g g.searchSteps).found
  set p : Partition := ⟨t.toList.map Standing.component, n⟩ with hp
  have hsize : p.size = g.size := by simpa [hp, Partition.size] using hc.size_eq
  have hnumber : ∀ x < g.size, ∀ b, p.number x = b ↔ t[x]? = some (.closed b) := by
    intro x hx b
    obtain ⟨d, hd⟩ := hall x hx
    have hxd : p.number x = d :=
      Partition.number_eq_of_getElem? (by simp [hp, hd, Standing.component])
    rw [hxd, hd]
    simp
  have hdense : p.Dense := by
    rw [Partition.dense_iff]
    intro b
    rw [hc.found b, hsize]
    constructor
    · rintro ⟨x, hx, hb⟩
      exact ⟨x, (hnumber x hx b).1 hb⟩
    · rintro ⟨x, hb⟩
      have hx : x < g.size := hc.size_eq ▸ (Array.getElem?_eq_some_iff.1 hb).1
      exact ⟨x, hx, (hnumber x hx b).2 hb⟩
  -- the search has closed the classes of joined nodes
  refine ⟨p, Partition.ofNumbers_ok hdense ?_, hsize, hdense, fun x y hx hy => ?_⟩
  · exact Nat.le_trans hdense.count_le_size (hsize ▸ hg)
  · have hx' := (hnumber x hx _).1 rfl
    rw [eq_comm, hnumber y hy]
    exact hc.joined x y _ hx'

/-- A 64-bit number can count the nodes. -/
theorem size_le_lastNumber (hg : g.size < 2 ^ 63) : g.size ≤ Partition.lastNumber := by
  unfold Partition.lastNumber
  omega

/-- **The search finds the components.** -/
theorem components_ok (hg : g.size ≤ Partition.lastNumber) :
    ∃ c, g.components = .ok c ∧ g.IsComponents c := by
  obtain ⟨t, ht, -, hT⟩ := LowLinks.run_begin g
  obtain ⟨p, hp, hps, hpd, hpk⟩ := ofNumbers_search hg
  obtain ⟨c, hc, hcs, hcd, hco, hck⟩ := Partition.normalise_ok fun b hb => (hpd b).1 hb
  refine ⟨c, ?_, hcs.trans hps, hcd, hco, fun x y hx hy => ?_⟩
  · rw [components]
    simp only [ht, ok_bind, ← hT.standing_eq, hp, hc]
  · rw [hck x y (hps ▸ hx) (hps ▸ hy), hpk x y hx hy]

/-- **The components are the classes of nodes that reach each other.** No step of the search fails.
After the counted steps it has nothing left to do and has met every node once. No component is
empty, and the components are numbered in the order of their least nodes. -/
theorem components_classes (hg : g.size < 2 ^ 63) :
    ∃ c s, g.components = .ok c ∧ (LowLinks.begin g).run g g.searchSteps = .ok s ∧
      (s.roots = [] ∧ s.path = []) ∧ s.met = g.size ∧ s.found ≤ g.size ∧
      c.size = g.size ∧ (∀ x < g.size, c.number x < c.count) ∧
      (∀ x y, x < g.size → y < g.size →
        (c.number x = c.number y ↔ x = y ∨ g.Reaches x y ∧ g.Reaches y x)) ∧
      (∀ b < c.count, c.members b ≠ []) ∧
      ∀ a b, a < b → b < c.count → ∃ x ∈ c.members a, ∀ y ∈ c.members b, x < y := by
  obtain ⟨c, hcomponents, hc⟩ := components_ok (size_le_lastNumber hg)
  obtain ⟨s, hrun, hdone, hs⟩ := LowLinks.run_begin g
  refine ⟨c, s, hcomponents, hrun, hdone, hs.met_eq hdone, hs.found_le, hc.size_eq,
    fun x hx => hc.number_lt hx, hc.number_iff, ?_, ?_⟩
  · exact fun b hb => hc.dense.members_ne_nil hb
  · exact fun a b hab hb => hc.ordered.exists_lt_members hc.dense hab hb

/-- On the graph with the edges `0 → 1`, `1 → 2`, `2 → 0`, `2 → 3` and `3 → 3`, the nodes `0` and
`2` share a component. -/
theorem components_classes_cycle :
    ∃ g c, ofEdges 5 [(0, 1), (1, 2), (2, 0), (2, 3), (3, 3)] = .ok g ∧ g.size < 2 ^ 63 ∧
      g.components = .ok c ∧ c.number 0 = c.number 2 := by
  have hends : ∀ e ∈ [(0, 1), (1, 2), (2, 0), (2, 3), (3, 3)], e.1 < 5 ∧ e.2 < 5 := by decide
  obtain ⟨g, hg, hsize, hadj⟩ := ofEdges_ok hends
  have hlt : g.size < 2 ^ 63 := by omega
  obtain ⟨c, -, hc, -, -, -, -, -, -, hiff, -⟩ := components_classes hlt
  have h01 : g.Reaches 0 1 := Adj.reaches ((hadj 0 1).2 (by decide))
  have h12 : g.Reaches 1 2 := Adj.reaches ((hadj 1 2).2 (by decide))
  have h20 : g.Reaches 2 0 := Adj.reaches ((hadj 2 0).2 (by decide))
  exact ⟨g, c, hg, hlt, hc, (hiff 0 2 (by omega) (by omega)).2 (.inr ⟨h01.trans h12, h20⟩)⟩

end ChainGrammar.Graph

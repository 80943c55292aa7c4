import ChainGrammar.Proofs.Components

/-!
# The graph of the components

Here `q` is the quotient of `g` by its components `c`.

* `Graph.IsQuotient.leads`: a path leads to a path in every quotient.
* `Graph.IsComponents.leads_iff`: **paths between components are paths between their members**.
* `Graph.IsComponents.acyclic`: **the graph of the components has no cycle**.
* `Graph.IsComponents.eq_discrete`: the components of a graph without a cycle are its nodes.
* `Graph.condensation_reaches`: all this of the components that the search finds.
-/

namespace ChainGrammar.Graph

variable {g q h : Graph} {c p : Partition} {a b x y : Nat}

theorem IsQuotient.leads_of_adj (hq : g.IsQuotient p h) (hxy : g.Adj x y) :
    h.Leads (p.number x) (p.number y) := by
  by_cases hne : p.number x = p.number y
  · rw [hne]
    exact .refl h _
  · exact Adj.leads ((hq.adj_iff _ _).2 ⟨hne, x, y, hxy, rfl, rfl⟩)

/-- A path leads to a path in every quotient. -/
theorem IsQuotient.leads (hq : g.IsQuotient p h) (hxy : g.Leads x y) :
    h.Leads (p.number x) (p.number y) := by
  induction hxy with
  | refl => exact .refl h _
  | tail _ hyz ih => exact ih.trans (hq.leads_of_adj hyz)

section Condensation

variable (hc : g.IsComponents c) (hq : g.IsQuotient c q)
include hc hq

/-- A path between components is one between their members. -/
theorem IsComponents.leads_of_leads (hab : q.Leads a b) (hx : x < g.size) (hy : y < g.size)
    (hxa : c.number x = a) (hyb : c.number y = b) : g.Leads x y := by
  induction hab generalizing y with
  | refl => exact (joined_iff.1 ((hc.number_iff x y hx hy).1 (hxa.trans hyb.symm))).1
  | @tail d b _ hdb ih =>
    obtain ⟨-, v, w, hvw, hv, hw⟩ := (hq.adj_iff d b).1 hdb
    have hwy : g.Joined w y := (hc.number_iff w y hvw.lt.2 hy).1 (hw.trans hyb.symm)
    exact ((ih hvw.lt.1 hv).trans hvw.leads).trans (joined_iff.1 hwy).1

/-- **Paths between components** are paths between their members. -/
theorem IsComponents.leads_iff (hx : x < g.size) (hy : y < g.size) :
    q.Leads (c.number x) (c.number y) ↔ g.Leads x y :=
  ⟨fun h => hc.leads_of_leads hq h hx hy rfl rfl, hq.leads⟩

/-- Different components reach each other as their members do. -/
theorem IsComponents.reaches_iff (hx : x < g.size) (hy : y < g.size)
    (hne : c.number x ≠ c.number y) :
    q.Reaches (c.number x) (c.number y) ↔ g.Reaches x y := by
  have hxy : x ≠ y := fun e => hne (e ▸ rfl)
  have hiff := hc.leads_iff hq hx hy
  rw [Graph.leads_iff, Graph.leads_iff] at hiff
  simpa [hne, hxy] using hiff

/-- **The graph of the components has no cycle.** -/
theorem IsComponents.acyclic : q.Acyclic := by
  intro a ha
  -- the way back from `b` to `a` joins the members of the two components
  obtain ⟨b, hab, hba⟩ := reaches_iff_head.1 ha
  obtain ⟨hne, x, y, hxy, rfl, rfl⟩ := (hq.adj_iff a b).1 hab
  have hyx : g.Leads y x := hc.leads_of_leads hq hba hxy.lt.2 hxy.lt.1 rfl rfl
  exact hne ((hc.number_iff x y hxy.lt.1 hxy.lt.2).2 (joined_iff.2 ⟨hxy.leads, hyx⟩))

end Condensation

theorem IsComponents.quotient_ok (hc : g.IsComponents c) :
    ∃ q, g.quotient c = .ok q ∧ g.IsQuotient c q :=
  Graph.quotient_ok hc.size_eq fun _ hx => hc.number_lt hx

/-- In a graph without a cycle every node is a component. -/
theorem IsComponents.eq_discrete (hc : g.IsComponents c) (hg : g.Acyclic) :
    c = .discrete g.size := by
  rw [← hc.size_eq]
  refine hc.ordered.eq_discrete hc.dense fun x y hx hy hxy => ?_
  rw [hc.size_eq] at hx hy
  exact ((hc.number_iff x y hx hy).1 hxy).resolve_right fun hr => hg x (hr.1.trans hr.2)

/-- **The graph of the components is faithful and has no cycle.** Nodes in different components
reach each other as their components do, no component reaches itself, and every node of the graph of
the components is a component of its own, with its own number. -/
theorem condensation_reaches (hg : g.size < 2 ^ 63) :
    ∃ c q, g.components = .ok c ∧ g.quotient c = .ok q ∧ (∀ a, ¬q.Reaches a a) ∧
      (∀ x y, x < g.size → y < g.size → c.number x ≠ c.number y →
        (g.Reaches x y ↔ q.Reaches (c.number x) (c.number y))) ∧
      q.components = .ok (.discrete q.size) ∧
      ∀ i < q.size, (Partition.discrete q.size).number i = i := by
  obtain ⟨c, hcomponents, hc⟩ := components_ok (size_le_lastNumber hg)
  obtain ⟨q, hquotient, hq⟩ := hc.quotient_ok
  have hacyclic : q.Acyclic := hc.acyclic hq
  have hsize : q.size ≤ Partition.lastNumber :=
    Nat.le_trans (hq.size_eq ▸ hc.count_le) (size_le_lastNumber hg)
  obtain ⟨d, hd, hqd⟩ := components_ok hsize
  obtain rfl := hqd.eq_discrete hacyclic
  refine ⟨c, q, hcomponents, hquotient, hacyclic, fun x y hx hy hne => ?_, hd,
    fun i hi => Partition.number_discrete hi⟩
  exact (hc.reaches_iff hq hx hy hne).symm

/-- A cycle of three nodes, left by an edge to a node with an edge to itself: the three are one
component, which reaches that of the fourth. -/
theorem condensation_reaches_cycle :
    ∃ g q, ofEdges 5 [(0, 1), (1, 2), (2, 0), (2, 3), (3, 3)] = .ok g ∧ g.size < 2 ^ 63 ∧
      g.components = .ok ⟨[0, 0, 0, 1, 2], 3⟩ ∧ g.quotient ⟨[0, 0, 0, 1, 2], 3⟩ = .ok q ∧
      q.Reaches 0 1 ∧ q.components = .ok (.discrete q.size) := by
  have hends : ∀ e ∈ [(0, 1), (1, 2), (2, 0), (2, 3), (3, 3)], e.1 < 5 ∧ e.2 < 5 := by decide
  obtain ⟨g, hg, hsize, hadj⟩ := ofEdges_ok hends
  have hlt : g.size < 2 ^ 63 := by omega
  have hnumbers : (ofEdges 5 [(0, 1), (1, 2), (2, 0), (2, 3), (3, 3)] >>= components) =
      .ok ⟨[0, 0, 0, 1, 2], 3⟩ := rfl
  rw [hg, ok_bind] at hnumbers
  obtain ⟨c, q, hcomponents, hquotient, -, hreaches, hself, -⟩ := condensation_reaches hlt
  obtain rfl := Except.ok.inj (hcomponents.symm.trans hnumbers)
  have h23 : g.Reaches 2 3 := Adj.reaches ((hadj 2 3).2 (by decide))
  exact ⟨g, q, hg, hlt, hcomponents, hquotient,
    (hreaches 2 3 (by omega) (by omega) (by decide)).1 h23, hself⟩

end ChainGrammar.Graph

import ChainGrammar.Proofs.Leftover

/-!
# The node that is reported

When the nodes of a graph have no topological order, the fault says that there is a cycle through
the node it names. It names the least of the nodes that were never placed, which are those on a
cycle and those after one. So there is a cycle before the node, but the node need not lie on it.

* `Placing.Valid.blocked?_eq_some_iff`: the least node on or after a cycle waits in vain.
* `Graph.topologicalOrder_eq_cycle_iff`: **the node that is reported** is that node.
* `Graph.reports_onCycle_iff`: the node is on a cycle if and only if no node that comes after the
  cycles is smaller than all nodes on them.
* `Graph.reports_downstream`: **a node off the cycles is reported** in a graph of two nodes.
-/

namespace ChainGrammar

variable {κ : Type} [Ord κ] [Std.TransOrd κ] {g : Graph} {priority : Nat → κ} {s : Placing κ}
  {n x : Nat}

/-- **The first node that still waits** is the least on or after a cycle. -/
theorem Placing.Valid.blocked?_eq_some_iff (h : Valid g priority s [])
    (hready : s.ready.isEmpty = true) :
    s.blocked? g = some n ↔ g.AfterCycle n ∧ ∀ x, g.AfterCycle x → n ≤ x := by
  refine ⟨fun hblocked => ?_, fun hn => h.blocked?_eq_some hready hn.1 hn.2⟩
  rw [blocked?, Graph.nodes, List.find?_range_eq_some] at hblocked
  obtain ⟨hwaits, hlt, hbefore⟩ := hblocked
  refine ⟨(h.waiting_ne_zero_iff hready (List.mem_range.1 hlt)).1 (of_decide_eq_true hwaits), ?_⟩
  intro x hx
  by_contra hxn
  -- `x` would have been found before `n`
  have hxwaits := (h.waiting_ne_zero_iff hready hx.lt).2 hx
  simpa [hxwaits] using hbefore x (Nat.lt_of_not_le hxn)

namespace Graph

theorem Reaches.afterCycle (hx : g.Reaches x x) : g.AfterCycle x :=
  ⟨x, onCycle_iff.2 hx, .inl rfl⟩

/-- An edge leads to every node on or after a cycle. -/
theorem AfterCycle.exists_adj (hx : g.AfterCycle x) : ∃ y, g.Adj y x := by
  obtain ⟨y, hy, hyx⟩ := afterCycle_iff.1 hx
  have hr : g.Reaches y x := by
    rcases leads_iff.1 hyx with rfl | hr
    · exact hy
    · exact hr
  obtain ⟨z, -, hz⟩ := reaches_iff_tail.1 hr
  exact ⟨z, hz⟩

theorem AfterCycle.exists_least (hx : g.AfterCycle x) :
    ∃ n, g.AfterCycle n ∧ ∀ y, g.AfterCycle y → n ≤ y := by
  classical
  have hsome : ∃ x, g.AfterCycle x := ⟨x, hx⟩
  exact ⟨Nat.find hsome, Nat.find_spec hsome, fun y hy => Nat.find_min' hsome hy⟩

variable [Std.LawfulEqOrd κ]

/-- **The node that is reported** is the least on or after a cycle, whatever the priorities are. -/
theorem topologicalOrder_eq_cycle_iff : g.topologicalOrder priority = .error (.cycle n) ↔
    g.AfterCycle n ∧ ∀ x, g.AfterCycle x → n ≤ x := by
  obtain ⟨s, hs, hvalid, hready⟩ := Placing.run_begin g priority
  rw [← hvalid.blocked?_eq_some_iff hready]
  cases hblocked : s.blocked? g with
  | none =>
    -- nothing is left over, so an order is found
    have hg : g.Acyclic := (hvalid.blocked?_eq_none_iff hready).1 hblocked
    obtain ⟨o, ho, -⟩ := topologicalOrder_ok hg priority
    simp [ho]
  | some x =>
    have hfault : g.topologicalOrder priority = .error (.cycle x) := by
      rw [topologicalOrder, hs, ok_bind, hblocked]
      rfl
    simp [hfault]

/-- **When the reported node is on a cycle.** There is always a cycle before it, through a node that
is not smaller. It lies on a cycle itself if and only if every node on or after a cycle is at least
as large as some node on one. -/
theorem reports_onCycle_iff (g : Graph) (priority : Nat → κ) :
    (∀ n, g.topologicalOrder priority = .error (.cycle n) →
      ∃ y, n ≤ y ∧ g.Reaches y y ∧ g.Leads y n) ∧
    ((∀ n, g.topologicalOrder priority = .error (.cycle n) → g.Reaches n n) ↔
      ∀ x, g.AfterCycle x → ∃ y ≤ x, g.Reaches y y) := by
  refine ⟨fun n hfault => ?_, fun hon x hx => ?_, fun hbelow n hfault => ?_⟩
  · obtain ⟨hn, hleast⟩ := topologicalOrder_eq_cycle_iff.1 hfault
    obtain ⟨y, hy, hyn⟩ := afterCycle_iff.1 hn
    exact ⟨y, hleast y hy.afterCycle, hy, hyn⟩
  · -- the node that is reported is on a cycle and not larger than `x`
    obtain ⟨n, hn, hleast⟩ := hx.exists_least
    exact ⟨n, hleast x hx, hon n (topologicalOrder_eq_cycle_iff.2 ⟨hn, hleast⟩)⟩
  · obtain ⟨hn, hleast⟩ := topologicalOrder_eq_cycle_iff.1 hfault
    obtain ⟨y, hyn, hy⟩ := hbelow n hn
    obtain rfl : y = n := Nat.le_antisymm hyn (hleast y hy.afterCycle)
    exact hy

/-- With a cycle through `1` and `2` and no edge to `0`, the node `1` is reported, which is on the
cycle. -/
theorem reports_onCycle_iff_upstream :
    ∃ g, ofEdges 3 [(0, 1), (1, 2), (2, 1)] = .ok g ∧ g.topologicalOrder id = .error (.cycle 1) ∧
      g.Reaches 1 1 := by
  have hends : ∀ e ∈ [(0, 1), (1, 2), (2, 1)], e.1 < 3 ∧ e.2 < 3 := by decide
  obtain ⟨g, hg, -, hadj⟩ := ofEdges_ok hends
  have h12 : g.Adj 1 2 := (hadj 1 2).2 (by decide)
  have h21 : g.Adj 2 1 := (hadj 2 1).2 (by decide)
  have h11 : g.Reaches 1 1 := h12.reaches.trans h21.reaches
  have hleast : ∀ x, g.AfterCycle x → 1 ≤ x := by
    intro x hx
    -- no edge enters `0`
    obtain ⟨y, hy⟩ := hx.exists_adj
    have hmem := (hadj y x).1 hy
    rw [Nat.one_le_iff_ne_zero]
    rintro rfl
    simp at hmem
  have hfault : g.topologicalOrder id = .error (.cycle 1) :=
    topologicalOrder_eq_cycle_iff.2 ⟨h11.afterCycle, hleast⟩
  exact ⟨g, hg, hfault, (reports_onCycle_iff g id).2.2 (fun x hx => ⟨1, hleast x hx, h11⟩) 1 hfault⟩

/-- **A node off the cycles is reported.** The only cycle goes round `1`. The node `0` comes after
it, and no path leads from `0` back to it. -/
theorem reports_downstream :
    ∃ g, ofEdges 2 [(1, 1), (1, 0)] = .ok g ∧ g.topologicalOrder id = .error (.cycle 0) ∧
      (Fault.cycle 0).message = "The graph contains a cycle through node 0" ∧
      ¬g.Reaches 0 0 ∧ g.Reaches 1 1 := by
  have hends : ∀ e ∈ [(1, 1), (1, 0)], e.1 < 2 ∧ e.2 < 2 := by decide
  obtain ⟨g, hg, -, hadj⟩ := ofEdges_ok hends
  have h11 : g.Adj 1 1 := (hadj 1 1).2 (by decide)
  have h10 : g.Adj 1 0 := (hadj 1 0).2 (by decide)
  have hfault : g.topologicalOrder id = .error (.cycle 0) :=
    topologicalOrder_eq_cycle_iff.2
      ⟨h11.reaches.afterCycle.of_adj h10, fun x _ => Nat.zero_le x⟩
  refine ⟨g, hg, hfault, by decide, fun h00 => ?_, h11.reaches⟩
  -- no edge leaves `0`
  obtain ⟨y, hy, -⟩ := reaches_iff_head.1 h00
  simpa using (hadj 0 y).1 hy

end Graph

end ChainGrammar

import Mathlib.Data.Nat.Find
import ChainGrammar.Proofs.TopologicalOrder

/-!
# Nodes that are never placed

A node on a cycle waits for its predecessor on the cycle, which waits in turn, and so
does every node after it. Going back from any other node comes to an end, where nodes
are placed. Which nodes are left over thus depends on the graph alone, whatever the
priorities are.

* `Graph.AfterCycle`: a node lies on a cycle, or is reached from one.
* `Placing.Valid.notMem_iff`: **the nodes left over** are those on or after a cycle.
* `Placing.Valid.blocked?_eq_none_iff`: none is reported if and only if there is no cycle.
* `Placing.Valid.blocked?_eq_some`: the least of them is reported.
* `Graph.topologicalOrder_leftover`: both for all priorities at once.
-/

namespace ChainGrammar

variable {g : Graph} {x y n : Nat}

namespace Graph

/-- The node lies on a cycle, or is reached from a node on one. -/
def AfterCycle (g : Graph) (x : Nat) : Prop := ∃ y, g.OnCycle y ∧ (x = y ∨ g.Reaches y x)

theorem afterCycle_iff : g.AfterCycle x ↔ ∃ y, g.Reaches y y ∧ g.Leads y x := by
  simp only [AfterCycle, onCycle_iff, leads_iff, eq_comm]

theorem AfterCycle.lt (h : g.AfterCycle x) : x < g.size := by
  obtain ⟨y, hy, rfl | hyx⟩ := h
  · exact (onCycle_iff.1 hy).lt.1
  · exact hyx.lt.2

/-- What is reached from a node after a cycle is after the cycle too. -/
theorem AfterCycle.of_adj (h : g.AfterCycle x) (hxy : g.Adj x y) : g.AfterCycle y := by
  rw [afterCycle_iff] at h ⊢
  obtain ⟨z, hz, hzx⟩ := h
  exact ⟨z, hz, hzx.trans hxy.leads⟩

end Graph

namespace Placing

variable {κ : Type} [Ord κ] {priority : Nat → κ} {s : Placing κ}

/-- **A path to a node that is placed** comes from one that was placed before. -/
theorem Valid.idxOf_lt_of_reaches (h : Valid g priority s []) (hxy : g.Reaches x y)
    (hy : y ∈ s.order.toList) :
    x ∈ s.order.toList ∧ s.order.toList.idxOf x < s.order.toList.idxOf y := by
  induction hxy with
  | single hxz => exact ⟨h.mem_of_adj hxz hy, h.before _ _ hxz hy⟩
  | tail _ hzy ih =>
    obtain ⟨hx, hlt⟩ := ih (h.mem_of_adj hzy hy)
    exact ⟨hx, Nat.lt_trans hlt (h.before _ _ hzy hy)⟩

/-- No node on or after a cycle is placed. -/
theorem Valid.notMem_of_afterCycle (h : Valid g priority s []) (hx : g.AfterCycle x) :
    x ∉ s.order.toList := by
  obtain ⟨y, hy, hyx⟩ := Graph.afterCycle_iff.1 hx
  intro hmem
  have hymem : y ∈ s.order.toList := by
    rcases Graph.leads_iff.1 hyx with rfl | hyx
    · exact hmem
    · exact (h.idxOf_lt_of_reaches hyx hmem).1
  exact Nat.lt_irrefl _ (h.idxOf_lt_of_reaches hy hymem).2

variable [Std.TransOrd κ]

/-- **The nodes left over** when none is ready are those on or after a cycle. -/
theorem Valid.notMem_iff (h : Valid g priority s []) (hready : s.ready.isEmpty = true) :
    x < g.size ∧ x ∉ s.order.toList ↔ g.AfterCycle x := by
  constructor
  · -- every node left over has a predecessor left over
    intro hx
    exact Graph.afterCycle_iff.2
      (Graph.exists_cycle_before (fun _ => Graph.exists_pred_notMem h hready) hx)
  · exact fun hx => ⟨hx.lt, h.notMem_of_afterCycle hx⟩

/-- A node still waits for a predecessor if it is on or after a cycle. -/
theorem Valid.waiting_ne_zero_iff (h : Valid g priority s []) (hready : s.ready.isEmpty = true)
    (hx : x < g.size) : s.waiting[x]?.getD 0 ≠ 0 ↔ g.AfterCycle x := by
  rw [h.waiting_eq x hx, List.count_nil, Nat.add_zero, Option.getD_some, Ne,
    Graph.unplaced_eq_zero_iff]
  constructor
  · intro hne
    obtain ⟨y, hy⟩ := not_forall.1 hne
    obtain ⟨hyx, hout⟩ := Classical.not_imp.1 hy
    exact ((h.notMem_iff hready).1 ⟨hyx.lt.1, hout⟩).of_adj hyx
  · intro hcycle hall
    obtain ⟨y, ⟨-, hout⟩, hyx⟩ :=
      Graph.exists_pred_notMem h hready ((h.notMem_iff hready).2 hcycle)
    exact hout (hall y hyx)

/-- No node is reported if and only if there is no cycle. -/
theorem Valid.blocked?_eq_none_iff (h : Valid g priority s []) (hready : s.ready.isEmpty = true) :
    s.blocked? g = none ↔ g.Acyclic := by
  rw [blocked?, List.find?_eq_none]
  constructor
  · intro hnone x hx
    have hcycle : g.AfterCycle x := ⟨x, Graph.onCycle_iff.2 hx, .inl rfl⟩
    have hwaits := (h.waiting_ne_zero_iff hready hcycle.lt).2 hcycle
    exact hnone x (Graph.mem_nodes.2 hcycle.lt) (decide_eq_true hwaits)
  · intro hg x hx hwaits
    obtain ⟨y, hy, -⟩ :=
      (h.waiting_ne_zero_iff hready (Graph.mem_nodes.1 hx)).1 (of_decide_eq_true hwaits)
    exact hg y (Graph.onCycle_iff.1 hy)

/-- **The node that is reported** is the least on or after a cycle. -/
theorem Valid.blocked?_eq_some (h : Valid g priority s []) (hready : s.ready.isEmpty = true)
    (hn : g.AfterCycle n) (hleast : ∀ x, g.AfterCycle x → n ≤ x) : s.blocked? g = some n := by
  rw [blocked?, Graph.nodes, List.find?_range_eq_some]
  refine ⟨?_, List.mem_range.2 hn.lt, fun x hxn => ?_⟩
  · exact decide_eq_true ((h.waiting_ne_zero_iff hready hn.lt).2 hn)
  · have hx : ¬g.AfterCycle x := fun hx => Nat.not_lt.2 (hleast x hx) hxn
    have hzero := mt (h.waiting_ne_zero_iff hready (Nat.lt_trans hxn hn.lt)).1 hx
    simpa using hzero

end Placing

namespace Graph

/-- **The nodes that are never placed** are those on a cycle and those reached from one. If there
are any, the least of them is reported, and no priorities change that. -/
theorem topologicalOrder_leftover (g : Graph) :
    (∀ (κ : Type) [Ord κ] [Std.TransOrd κ] [Std.LawfulEqOrd κ] (priority : Nat → κ),
      ∃ s, (Placing.begin g priority).run g priority g.size = .ok s ∧ s.ready.isEmpty = true ∧
        ∀ x, x < g.size ∧ x ∉ s.order.toList ↔ g.AfterCycle x) ∧
      ((∃ x, g.AfterCycle x) → ∃ n, g.AfterCycle n ∧ (∀ x, g.AfterCycle x → n ≤ x) ∧
        ∀ (κ : Type) [Ord κ] [Std.TransOrd κ] [Std.LawfulEqOrd κ] (priority : Nat → κ),
          g.topologicalOrder priority = .error (.cycle n)) := by
  refine ⟨fun κ _ _ _ priority => ?_, fun hcycle => ?_⟩
  · obtain ⟨s, hs, hvalid, hready⟩ := Placing.run_begin g priority
    exact ⟨s, hs, hready, fun x => hvalid.notMem_iff hready⟩
  · classical
    refine ⟨Nat.find hcycle, Nat.find_spec hcycle, fun x hx => Nat.find_min' hcycle hx,
      fun κ _ _ _ priority => ?_⟩
    obtain ⟨s, hs, hvalid, hready⟩ := Placing.run_begin g priority
    have hblocked := hvalid.blocked?_eq_some hready (Nat.find_spec hcycle) fun x hx =>
      Nat.find_min' hcycle hx
    rw [topologicalOrder, hs, ok_bind, hblocked]
    rfl

/-- The node `1` is reached from the cycle through `2` and `3`. It is reported, whether smaller
nodes come first or larger ones. -/
theorem topologicalOrder_leftover_downstream :
    ∃ g, ofEdges 4 [(2, 3), (3, 2), (3, 1)] = .ok g ∧ (∃ x, g.AfterCycle x) ∧
      g.topologicalOrder id = .error (.cycle 1) ∧
      g.topologicalOrder Descending.mk = .error (.cycle 1) := by
  have hends : ∀ e ∈ [(2, 3), (3, 2), (3, 1)], e.1 < 4 ∧ e.2 < 4 := by decide
  obtain ⟨g, hg, hsize, hadj⟩ := ofEdges_ok hends
  have h23 : g.Adj 2 3 := (hadj 2 3).2 (by decide)
  have h32 : g.Adj 3 2 := (hadj 3 2).2 (by decide)
  have h31 : g.Adj 3 1 := (hadj 3 1).2 (by decide)
  have h1 : g.AfterCycle 1 :=
    ⟨3, onCycle_iff.2 (h32.reaches.trans h23.reaches), .inr h31.reaches⟩
  have h0 : ¬g.AfterCycle 0 := fun h => by
    -- no edge enters `0`
    obtain ⟨y, hy, hy0⟩ := afterCycle_iff.1 h
    have hr : g.Reaches y 0 := by
      rcases leads_iff.1 hy0 with rfl | hr
      · exact hy
      · exact hr
    obtain ⟨z, -, hz⟩ := reaches_iff_tail.1 hr
    simpa using (hadj z 0).1 hz
  obtain ⟨n, hn, hleast, hfault⟩ := (topologicalOrder_leftover g).2 ⟨1, h1⟩
  obtain rfl : n = 1 := by
    have hne : n ≠ 0 := fun e => h0 (e ▸ hn)
    have hle := hleast 1 h1
    omega
  exact ⟨g, hg, ⟨1, h1⟩, hfault Nat id, hfault (Descending Nat) Descending.mk⟩

end Graph

end ChainGrammar

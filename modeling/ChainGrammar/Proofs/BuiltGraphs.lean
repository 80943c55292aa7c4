import ChainGrammar.Proofs.BuiltPartitions
import ChainGrammar.Proofs.Edges

/-!
# Graphs that are built

A graph is built edge by edge, and every edge goes into two tables: with the node that it leaves
and with the node that it enters. In whatever order the edges come and however often one of them
is given, both tables hold the same edges in the same form. So the edges can be listed from one of
the tables, and the list builds the same graph again.

* `Graph.successorsOf_ok`, `Graph.predecessorsOf_ok`: the look-ups in the two tables.
* `Graph.length_edges`: the edges are counted without being listed.
* `Graph.ofEdges_eq`: **the edges determine the graph** that is built from them.
* `Graph.Represents`: both tables, the listing and the count hold the edges of a list.
* `Graph.ofEdges_represents`: **a graph represents the edges it is built from**, and its quotients
  represent the edges between blocks.
-/

namespace ChainGrammar.Graph

variable {g : Graph} {n x : Nat} {es : List (Nat × Nat)}

/-! ## Looking up and listing -/

theorem successorsOf_ok (hx : x < g.size) : g.successorsOf x = .ok (g.next x) := by
  have hx' : x < g.successors.size := hx
  rw [successorsOf, entry_eq_ok (Array.getElem?_eq_getElem hx'), next, Neighbours.of,
    Array.getElem?_eq_getElem hx', Option.getD_some]

theorem predecessorsOf_ok (hx : x < g.size) : g.predecessorsOf x = .ok (g.prev x) := by
  have hx' : x < g.predecessors.size := by
    rw [g.sizes_eq]
    exact hx
  rw [predecessorsOf, entry_eq_ok (Array.getElem?_eq_getElem hx'), prev, Neighbours.of,
    Array.getElem?_eq_getElem hx', Option.getD_some]

/-- The edges are listed in increasing order, by the node they leave and then by the one they
enter. -/
theorem pairwise_edges (g : Graph) :
    g.edges.Pairwise fun e f => e.1 < f.1 ∨ e.1 = f.1 ∧ e.2 < f.2 :=
  pairwise_rows g.size g.next

/-- **The number of edges** is that of the listed ones. -/
theorem length_edges (g : Graph) : g.edges.length = g.edgeCount := by
  unfold edges edgeCount
  induction g.nodes with
  | nil => rfl
  | cons x xs ih =>
    rw [List.flatMap_cons, List.length_append, List.length_map, ih, List.foldr_cons]
    rfl

/-! ## Building -/

/-- **The edges determine the graph** that is built from them: neither their order nor repeated ones
matter. -/
theorem ofEdges_eq (hs : g.size = n) (h : ∀ x y, (x, y) ∈ es ↔ g.Adj x y) :
    ofEdges n es = .ok g := by
  have hends : ∀ e ∈ es, e.1 < n ∧ e.2 < n := by
    intro e he
    have hadj : g.Adj e.1 e.2 := (h e.1 e.2).1 he
    rw [← hs]
    exact hadj.lt
  obtain ⟨k, hk, hks, hadj⟩ := ofEdges_ok hends
  have hkg : k = g := ext_adj (hks.trans hs.symm) fun x y => (hadj x y).trans (h x y)
  rw [hk, hkg]

/-- The graph has the nodes below `n` and the edges of the list, in both tables, in the listing and
in the count. -/
structure Represents (g : Graph) (n : Nat) (es : List (Nat × Nat)) : Prop where
  size_eq : g.size = n
  /-- The successors of a node are those of the edges that leave it. -/
  successors_ok : ∀ x < n, ∃ s, g.successorsOf x = .ok s ∧ ∀ y, y ∈ s ↔ (x, y) ∈ es
  /-- The predecessors of a node are those of the edges that enter it. -/
  predecessors_ok : ∀ y < n, ∃ s, g.predecessorsOf y = .ok s ∧ ∀ x, x ∈ s ↔ (x, y) ∈ es
  mem_edges_iff : ∀ e, e ∈ g.edges ↔ e ∈ es
  increasing : g.edges.Pairwise fun e f => e.1 < f.1 ∨ e.1 = f.1 ∧ e.2 < f.2
  edgeCount_eq : g.edgeCount = g.edges.length

theorem represents_of_adj (hs : g.size = n) (h : ∀ x y, g.Adj x y ↔ (x, y) ∈ es) :
    g.Represents n es where
  size_eq := hs
  successors_ok x hx := ⟨g.next x, successorsOf_ok (hs ▸ hx), h x⟩
  predecessors_ok y hy :=
    ⟨g.prev y, predecessorsOf_ok (hs ▸ hy), fun x => adj_iff_mem_prev.symm.trans (h x y)⟩
  mem_edges_iff := fun (x, y) => mem_edges.trans (h x y)
  increasing := g.pairwise_edges
  edgeCount_eq := g.length_edges.symm

/-- **A graph represents the edges it is built from.** Edges between nodes are accepted in any order
and with repetitions. The graph holds just these edges in both tables, lists them in increasing
order, and is the same for all lists of the same edges, its own listing among them. A partition of
the nodes that was built gives a quotient, which represents the edges between different blocks. -/
theorem ofEdges_represents (h : ∀ e ∈ es, e.1 < n ∧ e.2 < n) :
    ∃ g, ofEdges n es = .ok g ∧ g.Represents n es ∧ ofEdges n g.edges = .ok g ∧
      (∀ fs : List (Nat × Nat), (∀ e, e ∈ fs ↔ e ∈ es) → ofEdges n fs = .ok g) ∧
      ∀ p : Partition, p.Built → p.size = n → ∃ q, g.quotient p = .ok q ∧
        q.Represents p.count q.edges ∧ ∀ a b, (a, b) ∈ q.edges ↔
          a ≠ b ∧ ∃ x ∈ p.members a, ∃ y ∈ p.members b, (x, y) ∈ es := by
  obtain ⟨g, hg, hs, hadj⟩ := ofEdges_ok h
  refine ⟨g, hg, represents_of_adj hs hadj, ?_, fun fs hfs => ?_, fun p hp hps => ?_⟩
  · exact ofEdges_eq hs fun x y => mem_edges
  · exact ofEdges_eq hs fun x y => (hfs (x, y)).trans (hadj x y).symm
  · have hpg : p.size = g.size := hps.trans hs.symm
    obtain ⟨q, hq, hquotient⟩ := quotient_ok hpg fun x hx => hp.dense.number_lt (hpg ▸ hx)
    refine ⟨q, hq, represents_of_adj hquotient.size_eq fun a b => mem_edges.symm, fun a b => ?_⟩
    rw [mem_edges, hquotient.adj_iff]
    refine and_congr_right fun _ => ⟨?_, ?_⟩
    · rintro ⟨x, y, hxy, hxa, hyb⟩
      obtain ⟨hx, hy⟩ := hxy.lt
      exact ⟨x, Partition.mem_members.2 ⟨hpg ▸ hx, hxa⟩, y,
        Partition.mem_members.2 ⟨hpg ▸ hy, hyb⟩, (hadj x y).1 hxy⟩
    · rintro ⟨x, hxa, y, hyb, hxy⟩
      exact ⟨x, y, (hadj x y).2 hxy, (Partition.mem_members.1 hxa).2,
        (Partition.mem_members.1 hyb).2⟩

/-- One edge is given twice, and the order of the others does not matter. Merging the first two
nodes drops the edges between them. -/
theorem ofEdges_represents_repeated :
    ∃ g q, (∀ e ∈ [(2, 0), (0, 1), (2, 0), (1, 1)], e.1 < 3 ∧ e.2 < 3) ∧
      ofEdges 3 [(2, 0), (0, 1), (2, 0), (1, 1)] = .ok g ∧
      g.Represents 3 [(2, 0), (0, 1), (2, 0), (1, 1)] ∧
      ofEdges 3 [(0, 1), (1, 1), (2, 0)] = .ok g ∧
      g.quotient ⟨[0, 0, 1], 2⟩ = .ok q ∧ (1, 0) ∈ q.edges ∧ (0, 0) ∉ q.edges := by
  have hends : ∀ e ∈ [(2, 0), (0, 1), (2, 0), (1, 1)], e.1 < 3 ∧ e.2 < 3 := by decide
  have hp : Partition.Built ⟨[0, 0, 1], 2⟩ := .ofNumbers (l := [0, 0, 1]) rfl
  obtain ⟨g, hg, hrepresents, -, hsame, hquotient⟩ := ofEdges_represents hends
  obtain ⟨q, hq, -, hedges⟩ := hquotient _ hp rfl
  refine ⟨g, q, hends, hg, hrepresents, hsame _ fun e => ?_, hq, ?_, ?_⟩
  · simp only [List.mem_cons, List.not_mem_nil, or_false]
    tauto
  · exact (hedges 1 0).2 (by decide)
  · exact fun h => ((hedges 0 0).1 h).1 rfl

end ChainGrammar.Graph

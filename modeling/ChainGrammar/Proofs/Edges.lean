import ChainGrammar.Graph.Quotient

/-!
# The edges of built graphs

* `Graph.ofEdges_ok`: **a list of edges between nodes gives a graph** with just these edges.
* `pairwise_rows`: pairs listed row by row are in increasing order.
* `Graph.mem_edges`: the listed edges are those of the edge relation.
* `Graph.weightOf`: the sum of the weights of some nodes, for counting what is left to do.
* `Graph.IsQuotient`: a graph of the blocks of a partition, with an edge between two different
  blocks where there is one between members of them.
* `Graph.quotient_ok`: the quotient by a partition of the nodes is such a graph.
-/

namespace ChainGrammar

/-- **Pairs listed row by row** are in increasing order, by the row and then by the place in it. -/
theorem pairwise_rows (n : Nat) (row : Nat → SortedSet Nat) :
    ((List.range n).flatMap fun x => (row x).toList.map fun y => (x, y)).Pairwise
      fun e f => e.1 < f.1 ∨ e.1 = f.1 ∧ e.2 < f.2 := by
  refine List.pairwise_flatMap.2 ⟨fun x _ => ?_, ?_⟩
  · refine List.pairwise_map.2 ((row x).sorted.imp fun hyz => ?_)
    exact .inr ⟨rfl, Nat.compare_eq_lt.1 hyz⟩
  · refine List.pairwise_lt_range.imp fun hxy e he f hf => ?_
    obtain ⟨v, -, rfl⟩ := List.mem_map.1 he
    obtain ⟨w, -, rfl⟩ := List.mem_map.1 hf
    exact .inl hxy

namespace Graph

variable {g : Graph} {x y : Nat}

@[simp] theorem mem_nodes : x ∈ g.nodes ↔ x < g.size := by simp [nodes]

theorem mem_edges : (x, y) ∈ g.edges ↔ g.Adj x y := by
  simp only [edges, List.mem_flatMap, List.mem_map, Prod.mk.injEq]
  constructor
  · rintro ⟨v, -, w, hw, rfl, rfl⟩
    exact hw
  · intro h
    exact ⟨x, mem_nodes.2 h.lt.1, y, h, rfl, rfl⟩

/-! ## Weights of nodes -/

section Weights

variable (weight : Nat → Nat) {P Q : Nat → Prop} [DecidablePred P] [DecidablePred Q] {l : List Nat}

/-- The sum of the weights of those elements of a list that satisfy `P`. -/
def weightOf (weight : Nat → Nat) (P : Nat → Prop) [DecidablePred P] (l : List Nat) : Nat :=
  l.foldr (fun x n => (if P x then weight x else 0) + n) 0

theorem weightOf_cons : weightOf weight P (x :: l) =
    (if P x then weight x else 0) + weightOf weight P l := rfl

theorem weightOf_congr (h : ∀ x ∈ l, P x ↔ Q x) : weightOf weight P l = weightOf weight Q l := by
  induction l with
  | nil => rfl
  | cons x l ih =>
    rw [weightOf_cons, weightOf_cons, ih fun y hy => h y (List.mem_cons_of_mem x hy)]
    simp only [h x List.mem_cons_self]

theorem weightOf_of_forall (h : ∀ x ∈ l, P x) :
    weightOf weight P l = l.foldr (fun x n => weight x + n) 0 := by
  induction l with
  | nil => rfl
  | cons x l ih =>
    rw [weightOf_cons, if_pos (h x List.mem_cons_self), List.foldr_cons,
      ih fun y hy => h y (List.mem_cons_of_mem x hy)]

/-- If one element stops to satisfy the condition, its weight is lost. -/
theorem weightOf_erase (hl : l.Nodup) (hy : y ∈ l) (hP : P y) (hQ : ∀ x, Q x ↔ x ≠ y ∧ P x) :
    weightOf weight Q l + weight y = weightOf weight P l := by
  induction l with
  | nil => simp at hy
  | cons x l ih =>
    obtain ⟨hxl, hl⟩ := List.nodup_cons.1 hl
    rw [weightOf_cons, weightOf_cons]
    by_cases hxy : x = y
    · subst hxy
      -- `x` does not come again in the rest of the list
      have hrest : weightOf weight Q l = weightOf weight P l := by
        refine weightOf_congr weight fun z hz => ?_
        have hzx : z ≠ x := fun e => hxl (e ▸ hz)
        simp [hQ, hzx]
      rw [hrest, if_neg (by simp [hQ]), if_pos hP]
      omega
    · have hrest := ih hl ((List.mem_cons.1 hy).resolve_left (Ne.symm hxy))
      simp only [hQ x, ne_eq, hxy, not_false_eq_true, true_and]
      omega

end Weights

/-! ## Adding edges -/

theorem addEdge?_ok {e : Nat × Nat} (hx : e.1 < g.size) (hy : e.2 < g.size) :
    g.addEdge? e = .ok (g.addEdge e.1 e.2 hx hy) := by
  rw [addEdge?, dif_pos hx, dif_pos hy]

/-- Adding edges between nodes succeeds, and adds just these edges. -/
theorem foldlM_addEdge?_ok {es : List (Nat × Nat)} (h : ∀ e ∈ es, e.1 < g.size ∧ e.2 < g.size) :
    ∃ k, es.foldlM addEdge? g = .ok k ∧ k.size = g.size ∧
      ∀ x y, k.Adj x y ↔ g.Adj x y ∨ (x, y) ∈ es := by
  induction es generalizing g with
  | nil => exact ⟨g, rfl, rfl, by simp⟩
  | cons e es ih =>
    obtain ⟨hx, hy⟩ := h e List.mem_cons_self
    have hs : (g.addEdge e.1 e.2 hx hy).size = g.size := size_addEdge hx hy
    obtain ⟨k, hk, hks, hadj⟩ := ih (g := g.addEdge e.1 e.2 hx hy) fun f hf => by
      rw [hs]
      exact h f (List.mem_cons_of_mem e hf)
    refine ⟨k, ?_, hks.trans hs, fun x y => ?_⟩
    · rw [List.foldlM_cons, addEdge?_ok hx hy, ok_bind, hk]
    · rw [hadj, adj_addEdge, List.mem_cons, Prod.ext_iff, or_assoc]

/-- **A list of edges between nodes** gives a graph with just these edges. -/
theorem ofEdges_ok {n : Nat} {es : List (Nat × Nat)} (h : ∀ e ∈ es, e.1 < n ∧ e.2 < n) :
    ∃ k, ofEdges n es = .ok k ∧ k.size = n ∧ ∀ x y, k.Adj x y ↔ (x, y) ∈ es := by
  have h' : ∀ e ∈ es, e.1 < (edgeless n).size ∧ e.2 < (edgeless n).size := by simpa using h
  obtain ⟨k, hk, hs, hadj⟩ := foldlM_addEdge?_ok h'
  exact ⟨k, hk, by simpa using hs, by simpa using hadj⟩

/-! ## Quotients -/

theorem blockEdge?_eq_some {number : Nat → Nat} {e f : Nat × Nat} :
    blockEdge? number e = some f ↔ number e.1 ≠ number e.2 ∧ (number e.1, number e.2) = f := by
  by_cases h : number e.1 = number e.2 <;> simp [blockEdge?, h]

/-- The graph has the blocks of a partition of the nodes as its nodes, and an edge between two
different blocks where there is one between members of them. -/
structure IsQuotient (g : Graph) (p : Partition) (h : Graph) : Prop where
  size_eq : h.size = p.count
  adj_iff : ∀ a b, h.Adj a b ↔ a ≠ b ∧ ∃ x y, g.Adj x y ∧ p.number x = a ∧ p.number y = b

/-- **The quotient** by a partition of the nodes. -/
theorem quotient_ok {p : Partition} (hs : p.size = g.size)
    (hp : ∀ x < g.size, p.number x < p.count) :
    ∃ h, g.quotient p = .ok h ∧ g.IsQuotient p h := by
  have hmem (a b : Nat) : (a, b) ∈ g.edges.filterMap (blockEdge? p.table.number) ↔
      a ≠ b ∧ ∃ x y, g.Adj x y ∧ p.number x = a ∧ p.number y = b := by
    simp only [List.mem_filterMap, Prod.exists, mem_edges, blockEdge?_eq_some,
      Partition.number_table, Prod.mk.injEq]
    constructor
    · rintro ⟨x, y, hxy, hne, rfl, rfl⟩
      exact ⟨hne, x, y, hxy, rfl, rfl⟩
    · rintro ⟨hne, x, y, hxy, rfl, rfl⟩
      exact ⟨x, y, hxy, hne, rfl, rfl⟩
  -- both ends are blocks of nodes, so that no edge is turned away
  have hends : ∀ e ∈ g.edges.filterMap (blockEdge? p.table.number),
      e.1 < p.count ∧ e.2 < p.count := by
    intro e he
    obtain ⟨-, x, y, hxy, hx, hy⟩ := (hmem e.1 e.2).1 he
    rw [← hx, ← hy]
    exact ⟨hp x hxy.lt.1, hp y hxy.lt.2⟩
  obtain ⟨h, hh, hsize, hadj⟩ := ofEdges_ok hends
  refine ⟨h, ?_, hsize, fun a b => (hadj a b).trans (hmem a b)⟩
  rw [quotient, if_pos hs]
  exact hh

end Graph

end ChainGrammar

import ChainGrammar.Proofs.LeastOrder

/-!
# Recognising topological orders

The places of the nodes are written into a table that starts with a place beyond the order for
every node, and a later place of a node replaces an earlier one. As there are as many places as
nodes, a node that comes twice leaves another one without a place, and this one is found out. So a
list that is accepted has every node once, and the places are those of an order.

* `Graph.getElem?_places_of_notMem`: **a node that is not in the list has no place**.
* `Graph.perm_nodes`: a list as long as the graph that has every node has each of them once.
* `Graph.isForward_of_isTopologicalOrder`: **what is recognised goes forward**.
* `Graph.isTopologicalOrder_total`: every list of nodes gets an answer.
* `Graph.isTopologicalOrder_exact`: **the test is exact**, and the order that is found passes it.
-/

namespace ChainGrammar.Graph

variable {g : Graph} {o : List Nat} {x : Nat}

/-! ## Places -/

/-- Writing places leaves the entries of other nodes as they are. -/
theorem getElem?_foldl_of_notMem (hx : x ∉ o) (t : Array Nat) (k : Nat) :
    ((o.zipIdx k).foldl (fun t e => t.setIfInBounds e.1 e.2) t)[x]? = t[x]? := by
  induction o generalizing t k with
  | nil => rfl
  | cons y o ih =>
    obtain ⟨hxy, hx⟩ := not_or.1 (mt List.mem_cons.2 hx)
    rw [List.zipIdx_cons, List.foldl_cons, ih hx, Array.getElem?_setIfInBounds_ne (Ne.symm hxy)]

/-- Only lists of nodes have places. -/
theorem lt_of_places_eq_ok {t : Array Nat} (h : g.places o = .ok t) : ∀ x ∈ o, x < g.size := by
  unfold places at h
  split at h
  · cases h
  · next hnone =>
    intro x hx
    have hle := List.find?_eq_none.1 hnone x hx
    simpa using hle

/-- **A node that is not in the list has no place.** -/
theorem getElem?_places_of_notMem {t : Array Nat} (h : g.places o = .ok t) (hx : x < g.size)
    (hout : x ∉ o) : t[x]?.getD g.size = g.size := by
  rw [places_eq (lt_of_places_eq_ok h)] at h
  obtain rfl := Except.ok.inj h
  rw [getElem?_foldl_of_notMem hout, Array.getElem?_replicate, if_pos hx, Option.getD_some]

/-- A list as long as the graph that has every node has each of them once. -/
theorem perm_nodes (hlen : o.length = g.size) (hall : ∀ x < g.size, x ∈ o) : o.Perm g.nodes := by
  have hsub : g.nodes ⊆ o := fun x hx => hall x (mem_nodes.1 hx)
  have hnodup : g.nodes.Nodup := List.nodup_range
  have hle : o.length ≤ g.nodes.length := by
    rw [hlen, nodes, List.length_range]
  exact ((hnodup.subperm hsub).perm_of_length_le hle).symm

/-- The list has every node once. -/
theorem perm_nodes_iff_count (hlt : ∀ x ∈ o, x < g.size) :
    o.Perm g.nodes ↔ ∀ x < g.size, o.count x = 1 := by
  have hnodup : g.nodes.Nodup := List.nodup_range
  constructor
  · intro hperm x hx
    rw [hperm.count_eq]
    exact List.count_eq_one_of_mem hnodup (mem_nodes.2 hx)
  · intro hone
    refine List.perm_iff_count.2 fun x => ?_
    by_cases hx : x < g.size
    · rw [hone x hx, List.count_eq_one_of_mem hnodup (mem_nodes.2 hx)]
    · rw [List.count_eq_zero.2 fun h => hx (hlt x h),
        List.count_eq_zero.2 fun h => hx (mem_nodes.1 h)]

/-! ## The test -/

/-- **What is recognised goes forward.** -/
theorem isForward_of_isTopologicalOrder (h : g.isTopologicalOrder o = .ok true) :
    g.IsForward o := by
  unfold isTopologicalOrder at h
  split at h
  · simp at h
  next hlen =>
    have hlen : o.length = g.size := not_not.1 hlen
    obtain ⟨t, ht, hb⟩ := bind_eq_ok.1 h
    obtain ⟨hperm, hedges⟩ := (Bool.and_eq_true ..).mp (Except.ok.inj hb)
    -- every node has a place in the order, and thus is in the list
    have hall : ∀ x < g.size, x ∈ o := by
      intro x hx
      by_contra hout
      have hplace := (isPermutation_iff.1 hperm).1 x hx
      rw [getElem?_places_of_notMem ht hx hout] at hplace
      omega
    have hnodes := perm_nodes hlen hall
    obtain ⟨u, hu, hidx⟩ := places_ok (hnodes.nodup_iff.2 List.nodup_range) (lt_of_places_eq_ok ht)
    obtain rfl : u = t := Except.ok.inj (hu.symm.trans ht)
    refine ⟨hnodes, fun x y hxy => ?_⟩
    have hlt := List.all_eq_true.1 hedges (x, y) (mem_edges.2 hxy)
    simpa [hidx x (hall x hxy.lt.1), hidx y (hall y hxy.lt.2)] using hlt

/-- Every list of nodes gets an answer. -/
theorem isTopologicalOrder_total (hlt : ∀ x ∈ o, x < g.size) :
    ∃ b, g.isTopologicalOrder o = .ok b := by
  unfold isTopologicalOrder
  split
  · exact ⟨false, rfl⟩
  · rw [places_eq hlt]
    exact ⟨_, rfl⟩

theorem isTopologicalOrder_eq_true_iff : g.isTopologicalOrder o = .ok true ↔ g.IsForward o :=
  ⟨isForward_of_isTopologicalOrder, isTopologicalOrder_ok⟩

/-- **The test is exact.** A list of nodes is accepted if and only if it has every node once, before
all its successors. If a node has an edge to itself, nothing is accepted. The order that is found
for any priorities passes the test, which is never the reason why none is found. -/
theorem isTopologicalOrder_exact (g : Graph) :
    (∀ o : List Nat, (∀ x ∈ o, x < g.size) → ∃ b, g.isTopologicalOrder o = .ok b ∧
      (b = true ↔ (∀ x < g.size, o.count x = 1) ∧
        ∀ x y, g.Adj x y → o.idxOf x < o.idxOf y)) ∧
      (∀ x, g.Adj x x → ∀ o, g.isTopologicalOrder o ≠ .ok true) ∧
      ∀ (κ : Type) [Ord κ] [Std.TransOrd κ] [Std.LawfulEqOrd κ] (priority : Nat → κ) (o : List Nat),
        (g.topologicalOrder priority = .ok o → g.isTopologicalOrder o = .ok true) ∧
          ∀ text, g.topologicalOrder priority ≠ .error (.notSorted o text) := by
  refine ⟨fun o hlt => ?_, fun x hx o ho => ?_, fun κ _ _ _ priority o => ?_⟩
  · obtain ⟨b, hb⟩ := isTopologicalOrder_total hlt
    refine ⟨b, hb, ?_⟩
    have hiff : b = true ↔ g.IsForward o := by
      rw [← isTopologicalOrder_eq_true_iff, hb, Except.ok.injEq]
    rw [hiff, ← perm_nodes_iff_count hlt]
    exact ⟨fun h => ⟨h.perm, h.idxOf_lt⟩, fun h => ⟨h.1, h.2⟩⟩
  · exact Nat.lt_irrefl _ ((isForward_of_isTopologicalOrder ho).idxOf_lt x x hx)
  · obtain ⟨s, -, hcases⟩ := topologicalOrder_cases g priority
    rcases hcases with ⟨hforward, hok⟩ | ⟨-, x, hfault⟩
    · rw [hok]
      refine ⟨fun ho => ?_, fun text ho => nomatch ho⟩
      rw [← Except.ok.inj ho]
      exact isTopologicalOrder_ok hforward
    · rw [hfault]
      exact ⟨fun ho => (nomatch ho), fun text ho => nomatch ho⟩

/-- The edges `0 → 2` and `1 → 2` leave the order of the first two nodes open. A list with a node
twice is turned away, and so is an order that goes against an edge. -/
theorem isTopologicalOrder_exact_join :
    ∃ g, ofEdges 3 [(0, 2), (1, 2)] = .ok g ∧ (∀ o ∈ [[1, 0, 2], [1, 1, 2], [0, 2, 1]],
        ∀ x ∈ o, x < g.size) ∧
      g.isTopologicalOrder [1, 0, 2] = .ok true ∧ g.isTopologicalOrder [1, 1, 2] = .ok false ∧
      g.isTopologicalOrder [0, 2, 1] = .ok false ∧ g.topologicalOrder id = .ok [0, 1, 2] ∧
      g.isTopologicalOrder [0, 1, 2] = .ok true := by
  have hends : ∀ e ∈ [(0, 2), (1, 2)], e.1 < 3 ∧ e.2 < 3 := by decide
  obtain ⟨g, hg, hsize, hadj⟩ := ofEdges_ok hends
  have hfound : (ofEdges 3 [(0, 2), (1, 2)] >>= fun g => g.topologicalOrder id) =
      .ok [0, 1, 2] := by cbv
  rw [hg, ok_bind] at hfound
  have hlt : ∀ o ∈ [[1, 0, 2], [1, 1, 2], [0, 2, 1]], ∀ x ∈ o, x < g.size := by
    rw [hsize]
    decide
  obtain ⟨hexact, -, hpasses⟩ := isTopologicalOrder_exact g
  obtain ⟨b, hb, hbiff⟩ := hexact [1, 0, 2] (hlt _ (by decide))
  obtain ⟨c, hc, hciff⟩ := hexact [1, 1, 2] (hlt _ (by decide))
  obtain ⟨d, hd, hdiff⟩ := hexact [0, 2, 1] (hlt _ (by decide))
  have haccepted : b = true := by
    refine hbiff.2 ⟨by rw [hsize]; decide, fun x y hxy => ?_⟩
    have hmem := (hadj x y).1 hxy
    simp only [List.mem_cons, Prod.mk.injEq, List.not_mem_nil, or_false] at hmem
    rcases hmem with ⟨rfl, rfl⟩ | ⟨rfl, rfl⟩ <;> decide
  have htwice : c = false := by
    refine Bool.eq_false_iff.2 fun h => ?_
    have hzero := (hciff.1 h).1 0 (by omega)
    exact absurd hzero (by decide)
  have hagainst : d = false := by
    refine Bool.eq_false_iff.2 fun h => ?_
    have h12 := (hdiff.1 h).2 1 2 ((hadj 1 2).2 (by decide))
    exact absurd h12 (by decide)
  rw [haccepted] at hb
  rw [htwice] at hc
  rw [hagainst] at hd
  exact ⟨g, hg, hlt, hb, hc, hd, hfound, (hpasses Nat id [0, 1, 2]).1 hfound⟩

end ChainGrammar.Graph

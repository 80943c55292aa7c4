import Mathlib.Data.Fintype.EquivFin
import ChainGrammar.Proofs.Paths
import ChainGrammar.Proofs.Permutations
import ChainGrammar.Proofs.Placing

/-!
# Topological orders

* `Graph.exists_cycle_before`: nodes that all have predecessors among them come after a cycle.
* `Graph.IsForward`: an order of all nodes in which every node comes before its successors.
* `Graph.isTopologicalOrder_ok`: such an order is recognised.
* `Graph.topologicalOrder_ok`: **a graph without a cycle has one**, which is found.
-/

namespace ChainGrammar.Graph

variable {g : Graph} {o : List Nat} {x y : Nat}

/-- **Nodes that all have predecessors among them** come after a cycle: going back from one of them
never ends. -/
theorem exists_cycle_before {P : Nat → Prop} (hP : ∀ x, P x → ∃ y, P y ∧ g.Adj y x) (hx : P x) :
    ∃ y, g.Reaches y y ∧ g.Leads y x := by
  by_contra hno
  -- the nodes that lead to `x` are well-founded, as there are finitely many
  let before (a b : Fin g.size) : Prop := g.Reaches a b ∧ g.Leads b x
  have htrans : IsTrans (Fin g.size) before :=
    ⟨fun a b c hab hbc => ⟨hab.1.trans hbc.1, hbc.2⟩⟩
  have hirrefl : Std.Irrefl before := ⟨fun a haa => hno ⟨a, haa.1, haa.2⟩⟩
  have hwf : WellFounded before := Finite.wellFounded_of_trans_of_irrefl before
  have hnone : ∀ a : Fin g.size, g.Leads a x → ¬P a := by
    intro a
    induction a using hwf.induction with
    | _ a ih =>
      intro hax ha
      obtain ⟨b, hb, hba⟩ := hP a ha
      exact ih ⟨b, hba.lt.1⟩ ⟨hba.reaches, hax⟩ (hba.leads.trans hax) hb
  obtain ⟨y, hy, hyx⟩ := hP x hx
  exact hnone ⟨x, hyx.lt.2⟩ (Leads.refl g x) hx

/-! ## Recognising an order -/

/-- The order has every node once, before all its successors. -/
structure IsForward (g : Graph) (o : List Nat) : Prop where
  perm : o.Perm g.nodes
  idxOf_lt : ∀ x y, g.Adj x y → o.idxOf x < o.idxOf y

theorem IsForward.mem_iff (h : g.IsForward o) : x ∈ o ↔ x < g.size := by
  rw [h.perm.mem_iff, mem_nodes]

theorem IsForward.nodup (h : g.IsForward o) : o.Nodup := h.perm.nodup_iff.2 List.nodup_range

theorem IsForward.length_eq (h : g.IsForward o) : o.length = g.size := by
  rw [h.perm.length_eq, nodes, List.length_range]

theorem IsForward.idxOf_lt_size (h : g.IsForward o) (hx : x < g.size) : o.idxOf x < g.size := by
  rw [← h.length_eq]
  exact List.idxOf_lt_length_iff.2 (h.mem_iff.2 hx)

/-- A path goes forward in the order. -/
theorem IsForward.idxOf_lt_of_reaches (h : g.IsForward o) (hxy : g.Reaches x y) :
    o.idxOf x < o.idxOf y := by
  induction hxy with
  | single hxy => exact h.idxOf_lt _ _ hxy
  | tail _ hyz ih => exact Nat.lt_trans ih (h.idxOf_lt _ _ hyz)

/-- Writing the places of different nodes into a table. -/
theorem getElem?_foldl_setIfInBounds (ho : o.Nodup) (t : Array Nat) (k : Nat) :
    ((o.zipIdx k).foldl (fun t e => t.setIfInBounds e.1 e.2) t)[x]? =
      if x ∈ o ∧ x < t.size then some (k + o.idxOf x) else t[x]? := by
  induction o generalizing t k with
  | nil => simp
  | cons y o ih =>
    obtain ⟨hy, ho⟩ := List.nodup_cons.1 ho
    rw [List.zipIdx_cons, List.foldl_cons, ih ho, Array.size_setIfInBounds,
      Array.getElem?_setIfInBounds]
    by_cases hyx : y = x
    · subst hyx
      by_cases hys : y < t.size <;> simp [hy, hys]
    · have hxy : x ≠ y := Ne.symm hyx
      simp only [List.mem_cons, hxy, false_or, if_neg hyx, List.idxOf_cons_ne _ hyx]
      split
      · congr 1
        omega
      · rfl

/-- A list of nodes has places. -/
theorem places_eq (hlt : ∀ x ∈ o, x < g.size) : g.places o =
    .ok (o.zipIdx.foldl (fun t e => t.setIfInBounds e.1 e.2) (Array.replicate g.size g.size)) := by
  have hfind : (o.find? fun x => g.size ≤ x) = none := by
    rw [List.find?_eq_none]
    intro x hx
    have := hlt x hx
    simpa using this
  rw [places, hfind]
  rfl

/-- The places of different nodes in an order of them. -/
theorem places_ok (ho : o.Nodup) (hlt : ∀ x ∈ o, x < g.size) :
    ∃ t, g.places o = .ok t ∧ ∀ x ∈ o, t[x]? = some (o.idxOf x) := by
  refine ⟨_, places_eq hlt, fun x hx => ?_⟩
  rw [getElem?_foldl_setIfInBounds ho, Array.size_replicate, if_pos ⟨hx, hlt x hx⟩, Nat.zero_add]

/-- **Every order that goes forward is recognised.** -/
theorem isTopologicalOrder_ok (h : g.IsForward o) : g.isTopologicalOrder o = .ok true := by
  obtain ⟨t, ht, hplace⟩ := places_ok h.nodup fun x hx => h.mem_iff.1 hx
  have hidx : ∀ x < g.size, t[x]?.getD g.size = o.idxOf x := by
    intro x hx
    rw [hplace x (h.mem_iff.2 hx), Option.getD_some]
  have hperm : isPermutation (fun x => t[x]?.getD g.size) g.size = true := by
    refine isPermutation_iff.2 ⟨fun x hx => ?_, fun x y hxy hy => ?_⟩
    · rw [hidx x hx]
      exact h.idxOf_lt_size hx
    · rw [hidx x (Nat.lt_trans hxy hy), hidx y hy, Ne,
        List.idxOf_inj (h.mem_iff.2 (Nat.lt_trans hxy hy))]
      exact Nat.ne_of_lt hxy
  have hedges : (g.edges.all fun e => t[e.1]?.getD g.size < t[e.2]?.getD g.size) = true := by
    rw [List.all_eq_true]
    rintro ⟨x, y⟩ hxy
    have hadj := mem_edges.1 hxy
    simpa [hidx x hadj.lt.1, hidx y hadj.lt.2] using h.idxOf_lt x y hadj
  rw [isTopologicalOrder, if_neg (not_not.2 h.length_eq), ht, ok_bind]
  simp only [hperm, hedges, Bool.and_self, pure_eq_ok]

/-! ## Finding an order -/

section Finding

variable {κ : Type} [Ord κ] [Std.TransOrd κ] [Std.LawfulEqOrd κ] {priority : Nat → κ}
  {s : Placing κ}

omit [Std.LawfulEqOrd κ] in
/-- When no node is ready, the nodes left wait for each other. -/
theorem exists_pred_notMem (h : Placing.Valid g priority s []) (hready : s.ready.isEmpty = true)
    (hx : x < g.size ∧ x ∉ s.order.toList) :
    ∃ y, (y < g.size ∧ y ∉ s.order.toList) ∧ g.Adj y x := by
  have hwait : g.unplaced s.order.toList x ≠ 0 := fun hzero =>
    Std.TreeSet.isEmpty_iff_forall_not_mem.1 hready ⟨priority x, x⟩
      ((h.mem_ready _).2 ⟨rfl, hx.1, hx.2, hzero⟩)
  rw [Ne, unplaced_eq_zero_iff, not_forall] at hwait
  obtain ⟨y, hy⟩ := hwait
  obtain ⟨hadj, hout⟩ := Classical.not_imp.1 hy
  exact ⟨y, ⟨hadj.lt.1, hout⟩, hadj⟩

omit [Std.LawfulEqOrd κ] [Std.TransOrd κ] in
/-- If all nodes are placed, their order goes forward. -/
theorem isForward_of_forall_mem (h : Placing.Valid g priority s [])
    (hall : ∀ x < g.size, x ∈ s.order.toList) : g.IsForward s.order.toList := by
  have hsub : g.nodes ⊆ s.order.toList := fun x hx => hall x (mem_nodes.1 hx)
  have hlen : g.size ≤ s.order.size := by
    have hnodup : g.nodes.Nodup := List.nodup_range
    simpa [nodes] using (hnodup.subperm hsub).length_le
  exact ⟨h.perm_nodes hlen, fun x y hxy => h.before x y hxy (hall y hxy.lt.2)⟩

omit [Std.LawfulEqOrd κ] in
/-- In a graph without a cycle all nodes are placed. -/
theorem Acyclic.isForward (hg : g.Acyclic) (h : Placing.Valid g priority s [])
    (hready : s.ready.isEmpty = true) : g.IsForward s.order.toList := by
  -- the nodes that are left would come after a cycle
  refine isForward_of_forall_mem h fun x hx => ?_
  by_contra hout
  obtain ⟨y, hy, -⟩ := exists_cycle_before (fun _ => exists_pred_notMem h hready) ⟨hx, hout⟩
  exact hg y hy

/-- **A graph without a cycle has a topological order**, which is found. -/
theorem topologicalOrder_ok (hg : g.Acyclic) (priority : Nat → κ) :
    ∃ o, g.topologicalOrder priority = .ok o ∧ g.IsForward o := by
  obtain ⟨s, hs, hvalid, hready⟩ := Placing.run_begin g priority
  have ho := hg.isForward hvalid hready
  -- as all nodes are placed, none waits for another
  have hblocked : s.blocked? g = none := by
    rw [Placing.blocked?, List.find?_eq_none]
    intro x hx
    have hzero : g.unplaced s.order.toList x = 0 :=
      unplaced_eq_zero_iff.2 fun y hyx => ho.mem_iff.2 hyx.lt.1
    simp [hvalid.waiting_eq x (mem_nodes.1 hx), hzero]
  refine ⟨s.order.toList, ?_, ho⟩
  rw [topologicalOrder, hs, ok_bind, hblocked]
  simp only [isTopologicalOrder_ok ho, ok_bind, if_true, pure_eq_ok]

end Finding

end ChainGrammar.Graph

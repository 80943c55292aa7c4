import Mathlib.Data.List.Lex
import Mathlib.Data.List.Permutation
import ChainGrammar.Proofs.Leftover

/-!
# The least topological order

Of all orders in which every node comes before its successors, the one that is found is the least:
where it first differs from another one it has the node with the smaller priority, and of two with
equal priorities the smaller node.

* `Graph.ComesFirst`: a node is chosen before another one.
* `Placing.Valid.run_least`: **what is placed is least** among the orders that start like it.
* `Graph.topologicalOrder_cases`: an order is found, or a node that is left over.
* `Graph.topologicalOrder_least`: **the order that is found**, if and only if there is no cycle.
-/

namespace ChainGrammar

variable {κ : Type} [Ord κ] {g : Graph} {priority : Nat → κ} {s t : Placing κ} {o : List Nat}
  {x y n : Nat}

/-- Of two nodes that are ready, `x` is chosen before `y`: by its priority, or by its number if the
priorities are equal. -/
def Graph.ComesFirst (priority : Nat → κ) (x y : Nat) : Prop :=
  compare (priority x) (priority y) = .lt ∨ compare (priority x) (priority y) = .eq ∧ x < y

/-- The nodes that are ready are kept in the order in which they are chosen. -/
theorem Graph.comesFirst_iff :
    Graph.ComesFirst priority x y ↔ compare (⟨priority x, x⟩ : Keyed κ) ⟨priority y, y⟩ = .lt := by
  rw [Graph.ComesFirst, Keyed.compare_def, Ordering.then_eq_lt, Nat.compare_eq_lt]

/-- A graph with an order that goes forward has no cycle. -/
theorem Graph.IsForward.acyclic (h : g.IsForward o) : g.Acyclic := fun _ hx =>
  Nat.lt_irrefl _ (h.idxOf_lt_of_reaches hx)

namespace Placing

variable [Std.TransOrd κ] [Std.LawfulEqOrd κ]

/-- **Nodes that are placed stay placed.** -/
theorem Valid.prefix_run (h : Valid g priority s []) (ht : Placing.run g priority n s = .ok t) :
    s.order.toList <+: t.order.toList := by
  induction n generalizing s with
  | zero =>
    obtain rfl : s = t := Except.ok.inj ht
    exact List.prefix_rfl
  | succ n ih =>
    cases hmin : s.ready.min? with
    | none =>
      rw [run_of_isEmpty (Std.TreeSet.min?_eq_none_iff.1 hmin)] at ht
      obtain rfl : s = t := Except.ok.inj ht
      exact List.prefix_rfl
    | some k =>
      obtain ⟨u, hu, hvalid, horder⟩ := h.step_of_min? hmin
      rw [Placing.run, hu, ok_bind] at ht
      exact List.IsPrefix.trans (horder ▸ List.prefix_append ..) (ih hvalid ht)

omit [Std.TransOrd κ] [Std.LawfulEqOrd κ] in
/-- In an order that goes forward, the first node that is not placed is ready. -/
theorem Valid.mem_ready_of_forward (h : Valid g priority s []) {rest : List Nat}
    (ho : g.IsForward (s.order.toList ++ y :: rest)) : ⟨priority y, y⟩ ∈ s.ready := by
  have hy : y ∉ s.order.toList := fun hy =>
    List.disjoint_of_nodup_append ho.nodup hy List.mem_cons_self
  refine (h.mem_ready _).2 ⟨rfl, ho.mem_iff.1 (by simp), hy, ?_⟩
  rw [List.count_nil, Nat.add_zero, Graph.unplaced_eq_zero_iff]
  intro x hxy
  -- a predecessor stands before `y`, where only nodes that are placed stand
  have hlt := ho.idxOf_lt x y hxy
  rw [List.idxOf_append_of_notMem hy, List.idxOf_cons_self, Nat.add_zero] at hlt
  by_contra hx
  rw [List.idxOf_append_of_notMem hx] at hlt
  omega

/-- The node that is placed next comes before every other node that is ready. -/
theorem Valid.comesFirst_of_min? (h : Valid g priority s []) {k : Keyed κ}
    (hmin : s.ready.min? = some k) (hy : ⟨priority y, y⟩ ∈ s.ready) :
    k.node = y ∨ Graph.ComesFirst priority k.node y := by
  obtain ⟨hk, hleast⟩ := Std.TreeSet.min?_eq_some_iff_mem_and_forall.1 hmin
  obtain ⟨hprio, -⟩ := (h.mem_ready k).1 hk
  have hky := hleast _ hy
  obtain ⟨p, x⟩ := k
  obtain rfl : p = priority x := hprio
  rw [Graph.comesFirst_iff]
  cases hc : compare (⟨priority x, x⟩ : Keyed κ) ⟨priority y, y⟩ with
  | lt => exact .inr rfl
  | eq => exact .inl (congrArg Keyed.node (Std.LawfulEqOrd.eq_of_compare hc))
  | gt => simp [hc] at hky

/-- **What is placed is least** among the orders that go forward and start with the nodes placed
before. -/
theorem Valid.run_least (h : Valid g priority s []) (ht : Placing.run g priority n s = .ok t)
    (hfull : g.IsForward t.order.toList) (ho : g.IsForward o) (hs : s.order.toList <+: o) :
    t.order.toList = o ∨ List.Lex (Graph.ComesFirst priority) t.order.toList o := by
  have hdone : t.order.toList <+: o → t.order.toList = o := fun hp =>
    hp.eq_of_length (hfull.length_eq.trans ho.length_eq.symm)
  induction n generalizing s with
  | zero =>
    obtain rfl : s = t := Except.ok.inj ht
    exact .inl (hdone hs)
  | succ n ih =>
    cases hmin : s.ready.min? with
    | none =>
      rw [run_of_isEmpty (Std.TreeSet.min?_eq_none_iff.1 hmin)] at ht
      obtain rfl : s = t := Except.ok.inj ht
      exact .inl (hdone hs)
    | some k =>
      obtain ⟨u, hu, hvalid, horder⟩ := h.step_of_min? hmin
      rw [Placing.run, hu, ok_bind] at ht
      obtain ⟨rest, rfl⟩ := hs
      cases rest with
      | nil =>
        -- the other order has no place for the node that is ready
        have hk := (Std.TreeSet.min?_eq_some_iff_mem_and_forall.1 hmin).1
        obtain ⟨-, hlt, hout, -⟩ := (h.mem_ready k).1 hk
        have hmem := ho.mem_iff.2 hlt
        rw [List.append_nil] at hmem
        exact absurd hmem hout
      | cons y rest =>
        rcases h.comesFirst_of_min? hmin (h.mem_ready_of_forward ho) with hy | hy
        · -- both orders go on with the same node
          refine ih hvalid ht ⟨rest, ?_⟩
          rw [horder, hy, List.append_assoc]
          rfl
        · -- they part here, and the other order goes on with a node that was ready as well
          obtain ⟨later, hlater⟩ := hvalid.prefix_run ht
          rw [← hlater, horder, List.append_assoc]
          exact .inr (List.Lex.append_left _ (List.Lex.rel hy) _)

end Placing

namespace Graph

section Result

variable [Std.TransOrd κ] [Std.LawfulEqOrd κ]

/-- **An order is found, or a node that is left waiting.** -/
theorem topologicalOrder_cases (g : Graph) (priority : Nat → κ) :
    ∃ s, (Placing.begin g priority).run g priority g.size = .ok s ∧
      (g.IsForward s.order.toList ∧ g.topologicalOrder priority = .ok s.order.toList ∨
        ¬g.Acyclic ∧ ∃ x, g.topologicalOrder priority = .error (.cycle x)) := by
  obtain ⟨s, hs, hvalid, hready⟩ := Placing.run_begin g priority
  refine ⟨s, hs, ?_⟩
  have hnone := hvalid.blocked?_eq_none_iff hready
  cases hblocked : s.blocked? g with
  | none =>
    have ho := (hnone.1 hblocked).isForward hvalid hready
    refine .inl ⟨ho, ?_⟩
    rw [topologicalOrder, hs, ok_bind, hblocked]
    simp only [isTopologicalOrder_ok ho, ok_bind, if_true, pure_eq_ok]
  | some x =>
    refine .inr ⟨fun hg => ?_, x, ?_⟩
    · rw [hnone.2 hg] at hblocked
      cases hblocked
    · rw [topologicalOrder, hs, ok_bind, hblocked]
      rfl

/-- **The order that is found.** An order is found if and only if no node reaches itself, and
otherwise a node is reported. It has every node once, before all its successors, and of all orders
like that it is the least when they are compared place by place. No step fails on the way: a node
is never released more often than it has predecessors. -/
theorem topologicalOrder_least (g : Graph) (priority : Nat → κ) :
    ((∃ o, g.topologicalOrder priority = .ok o) ↔ ∀ x, ¬g.Reaches x x) ∧
      (∀ o, g.topologicalOrder priority = .ok o → g.IsForward o ∧
        ∀ o', g.IsForward o' → o = o' ∨ List.Lex (ComesFirst priority) o o') ∧
      ((∃ x, g.Reaches x x) → ∃ x, g.topologicalOrder priority = .error (.cycle x)) ∧
      ∀ n, ∃ s, (Placing.begin g priority).run g priority n = .ok s := by
  have hbegin := Placing.valid_begin g priority
  obtain ⟨s, hs, hcases⟩ := topologicalOrder_cases g priority
  refine ⟨⟨?_, fun hg => ?_⟩, ?_, ?_, fun n => ?_⟩
  · rintro ⟨o, ho⟩
    rcases hcases with ⟨hforward, -⟩ | ⟨-, x, hx⟩
    · exact hforward.acyclic
    · rw [hx] at ho
      cases ho
  · obtain ⟨o, ho, -⟩ := topologicalOrder_ok hg priority
    exact ⟨o, ho⟩
  · intro o ho
    rcases hcases with ⟨hforward, hok⟩ | ⟨-, x, hx⟩
    · obtain rfl : s.order.toList = o := Except.ok.inj (hok.symm.trans ho)
      exact ⟨hforward, fun o' ho' => hbegin.run_least hs hforward ho' List.nil_prefix⟩
    · rw [hx] at ho
      cases ho
  · rintro ⟨x, hx⟩
    rcases hcases with ⟨hforward, -⟩ | ⟨-, hfault⟩
    · exact absurd hx (hforward.acyclic x)
    · exact hfault
  · obtain ⟨t, ht, -⟩ := hbegin.run n
    exact ⟨t, ht⟩

end Result

/-- With the edges `0 → 3` and `1 → 2` and larger nodes first, the chain from `1` is placed before
the one from `0`. -/
theorem topologicalOrder_least_descending :
    ∃ g, ofEdges 4 [(0, 3), (1, 2)] = .ok g ∧ g.IsForward [1, 2, 0, 3] ∧
      g.IsForward [0, 1, 2, 3] ∧ List.Lex (ComesFirst Descending.mk) [1, 2, 0, 3] [0, 1, 2, 3] := by
  have hends : ∀ e ∈ [(0, 3), (1, 2)], e.1 < 4 ∧ e.2 < 4 := by decide
  obtain ⟨g, hg, hsize, hadj⟩ := ofEdges_ok hends
  have horder : (ofEdges 4 [(0, 3), (1, 2)] >>= fun g => g.topologicalOrder Descending.mk) =
      .ok [1, 2, 0, 3] := by cbv
  rw [hg, ok_bind] at horder
  obtain ⟨hforward, hleast⟩ := (topologicalOrder_least g Descending.mk).2.1 _ horder
  have hother : g.IsForward [0, 1, 2, 3] := by
    refine ⟨by rw [nodes, hsize]; decide, fun x y hxy => ?_⟩
    have hmem := (hadj x y).1 hxy
    simp only [List.mem_cons, Prod.mk.injEq, List.not_mem_nil, or_false] at hmem
    rcases hmem with ⟨rfl, rfl⟩ | ⟨rfl, rfl⟩ <;> decide
  exact ⟨g, hg, hforward, hother, (hleast _ hother).resolve_left (by decide)⟩

end Graph

end ChainGrammar

import Mathlib.Data.List.Nodup
import Mathlib.Data.List.Perm.Subperm
import Mathlib.Tactic.Common
import Std.Data.TreeSet.Lemmas
import ChainGrammar.Graph.TopologicalOrder
import ChainGrammar.Proofs.Edges

/-!
# Placing nodes

One node after the other is placed. What holds all along is that every node waits
for its predecessors that are not placed, and that those that wait for none are
ready.

* `Graph.unplaced`: the number of predecessors that are not in an order.
* `Placing.Valid`: the invariant, with the successors of the last node placed that have not
  been released.
* `Placing.Valid.release`: **releasing a node never underflows**.
* `Placing.Valid.step`, `Placing.Valid.run`: a step and a run keep the invariant, and place a node
  in every step up to the end.
-/

namespace ChainGrammar

/-! ## Predecessors still to be placed -/

namespace Graph

variable {g : Graph} {o l : List Nat} {v x y : Nat}

/-- The number of predecessors of `y` that are not in the order. -/
def unplaced (g : Graph) (o : List Nat) (y : Nat) : Nat := (g.prev y).toList.countP (· ∉ o)

theorem unplaced_eq_zero_iff : g.unplaced o y = 0 ↔ ∀ x, g.Adj x y → x ∈ o := by
  rw [unplaced, List.countP_eq_zero]
  simp [SortedSet.mem_toList, adj_iff_mem_prev]

theorem unplaced_nil : g.unplaced [] y = (g.prev y).size := by
  simp [unplaced, SortedSet.size]

theorem countP_notMem_concat (hv : v ∉ o) :
    l.countP (· ∉ o ++ [v]) + l.count v = l.countP (· ∉ o) := by
  induction l with
  | nil => rfl
  | cons x l ih =>
    rw [List.countP_cons, List.countP_cons, List.count_cons, ← ih]
    by_cases hxv : x = v
    · subst hxv
      simp [hv]
      omega
    · simp [hxv]
      omega

theorem nodup_toList (s : SortedSet Nat) : s.toList.Nodup := by
  refine s.sorted.imp fun hab => ?_
  rintro rfl
  simp at hab

theorem count_prev (x y : Nat) : (g.prev y).toList.count x = (g.next x).toList.count y := by
  have hiff : x ∈ (g.prev y).toList ↔ y ∈ (g.next x).toList := adj_iff_mem_prev.symm
  by_cases hx : x ∈ (g.prev y).toList
  · rw [List.count_eq_one_of_mem (nodup_toList _) hx,
      List.count_eq_one_of_mem (nodup_toList _) (hiff.1 hx)]
  · rw [List.count_eq_zero_of_not_mem hx, List.count_eq_zero_of_not_mem fun h => hx (hiff.2 h)]

/-- **Placing a node** leaves one predecessor less to each of its successors. -/
theorem unplaced_concat (hv : v ∉ o) :
    g.unplaced (o ++ [v]) y + (g.next v).toList.count y = g.unplaced o y := by
  rw [← count_prev]
  exact countP_notMem_concat hv

end Graph

namespace Placing

/-! ## The invariant -/

variable {κ : Type} [Ord κ] {g : Graph} {priority : Nat → κ} {s : Placing κ} {rest : List Nat}
  {x y : Nat}

/-- The nodes placed are different, each after all its predecessors. Every node waits for its
predecessors that are not placed, and once more for each time it is among the `rest`, whose nodes
are to be released. Those that wait for none are ready. -/
structure Valid (g : Graph) (priority : Nat → κ) (s : Placing κ) (rest : List Nat) : Prop where
  nodup : s.order.toList.Nodup
  lt : ∀ x ∈ s.order.toList, x < g.size
  before : ∀ x y, g.Adj x y → y ∈ s.order.toList →
    s.order.toList.idxOf x < s.order.toList.idxOf y
  size_eq : s.waiting.size = g.size
  waiting_eq : ∀ y < g.size, s.waiting[y]? = some (g.unplaced s.order.toList y + rest.count y)
  mem_ready : ∀ k, k ∈ s.ready ↔ k.priority = priority k.node ∧ k.node < g.size ∧
    k.node ∉ s.order.toList ∧ g.unplaced s.order.toList k.node + rest.count k.node = 0
  rest_lt : ∀ y ∈ rest, y < g.size
  rest_notMem : ∀ y ∈ rest, y ∉ s.order.toList

/-- All predecessors of a node that is placed are placed. -/
theorem Valid.mem_of_adj (h : Valid g priority s rest) (hxy : g.Adj x y)
    (hy : y ∈ s.order.toList) : x ∈ s.order.toList := by
  have hlt := h.before x y hxy hy
  exact List.idxOf_lt_length_iff.1 (Nat.lt_of_lt_of_le hlt List.idxOf_le_length)

/-- No edge out of a ready node enters a node that is placed, or the node itself. -/
theorem Valid.next_notMem (h : Valid g priority s []) {v : Nat} (hv : v ∉ s.order.toList)
    (hready : g.unplaced s.order.toList v = 0) (hy : g.Adj v y) : y ∉ s.order.toList ++ [v] := by
  rw [List.mem_append, List.mem_singleton]
  rintro (hmem | rfl)
  · exact hv (h.mem_of_adj hy hmem)
  · exact hv (Graph.unplaced_eq_zero_iff.1 hready y hy)

/-- A ready node is placed after all its predecessors. -/
theorem Valid.before_concat (h : Valid g priority s []) {v : Nat} (hv : v ∉ s.order.toList)
    (hready : g.unplaced s.order.toList v = 0) (hxy : g.Adj x y)
    (hy : y ∈ s.order.toList ++ [v]) :
    (s.order.toList ++ [v]).idxOf x < (s.order.toList ++ [v]).idxOf y := by
  rcases List.mem_append.1 hy with hy | hy
  · rw [List.idxOf_append_of_mem (h.mem_of_adj hxy hy), List.idxOf_append_of_mem hy]
    exact h.before x y hxy hy
  · obtain rfl := List.mem_singleton.1 hy
    have hx : x ∈ s.order.toList := Graph.unplaced_eq_zero_iff.1 hready x hxy
    rw [List.idxOf_append_of_mem hx, List.idxOf_append_of_notMem hv, List.idxOf_cons_self]
    exact List.idxOf_lt_length_iff.2 hx

/-- If as many nodes are placed as there are, all of them are. -/
theorem Valid.perm_nodes (h : Valid g priority s rest) (hsize : g.size ≤ s.order.size) :
    s.order.toList.Perm g.nodes := by
  have hsub : s.order.toList ⊆ g.nodes := fun x hx => Graph.mem_nodes.2 (h.lt x hx)
  exact (h.nodup.subperm hsub).perm_of_length_le (by simpa [Graph.nodes] using hsize)

variable [Std.TransOrd κ] [Std.LawfulEqOrd κ]

theorem mem_insert {t : Std.TreeSet (Keyed κ)} {e k : Keyed κ} :
    e ∈ t.insert k ↔ k = e ∨ e ∈ t := by
  rw [Std.TreeSet.mem_insert, Std.LawfulEqCmp.compare_eq_iff_eq]

theorem mem_erase {t : Std.TreeSet (Keyed κ)} {e k : Keyed κ} :
    e ∈ t.erase k ↔ k ≠ e ∧ e ∈ t := by
  rw [Std.TreeSet.mem_erase, Ne, Std.LawfulEqCmp.compare_eq_iff_eq]

theorem mem_foldl_insert {t : Std.TreeSet (Keyed κ)} {e : Keyed κ} {xs : List Nat} :
    e ∈ xs.foldl (fun t x => t.insert ⟨priority x, x⟩) t ↔
      e ∈ t ∨ e.node ∈ xs ∧ e.priority = priority e.node := by
  induction xs generalizing t with
  | nil => simp
  | cons x xs ih =>
    have hx : (⟨priority x, x⟩ : Keyed κ) = e ↔ e.node = x ∧ e.priority = priority e.node := by
      cases e
      simp only [Keyed.mk.injEq]
      constructor
      · rintro ⟨rfl, rfl⟩
        exact ⟨rfl, rfl⟩
      · rintro ⟨rfl, rfl⟩
        exact ⟨rfl, rfl⟩
    rw [List.foldl_cons, ih, mem_insert, hx, List.mem_cons]
    tauto

/-- At the beginning no node is placed. -/
theorem valid_begin (g : Graph) (priority : Nat → κ) : Valid g priority (begin g priority) [] where
  nodup := List.nodup_nil
  lt _ hx := absurd hx List.not_mem_nil
  before _ _ _ hy := absurd hy List.not_mem_nil
  size_eq := by simp [begin, Graph.nodes]
  waiting_eq y hy := by simp [begin, Graph.nodes, hy, Graph.unplaced_nil]
  mem_ready e := by
    have hempty : (g.prev e.node).isEmpty = true ↔ g.unplaced [] e.node = 0 := by
      rw [Graph.unplaced_nil, SortedSet.isEmpty, SortedSet.size, List.isEmpty_iff_length_eq_zero]
    simp only [begin, mem_foldl_insert, List.mem_filter, Graph.mem_nodes, hempty]
    simp [and_comm]
  rest_lt _ hy := absurd hy List.not_mem_nil
  rest_notMem _ hy := absurd hy List.not_mem_nil

/-! ## Releasing -/

/-- **Releasing a node never underflows**: it waits for the node that was placed. -/
theorem Valid.release (h : Valid g priority s (y :: rest)) :
    ∃ t, s.release priority y = .ok t ∧ Valid g priority t rest ∧ t.order = s.order := by
  have hy : y < g.size := h.rest_lt y List.mem_cons_self
  have hys : y < s.waiting.size := h.size_eq ▸ hy
  obtain ⟨k, hk⟩ : ∃ k, g.unplaced s.order.toList y + rest.count y = k := ⟨_, rfl⟩
  have hw : s.waiting[y]? = some (k + 1) := by
    rw [h.waiting_eq y hy, List.count_cons_self, ← hk, Nat.add_assoc]
  refine ⟨{ s with
    waiting := s.waiting.setIfInBounds y k
    ready := if k = 0 then s.ready.insert ⟨priority y, y⟩ else s.ready }, ?_, ?_, rfl⟩
  · rw [Placing.release, entry_eq_ok hw]
    rfl
  · refine ⟨h.nodup, h.lt, h.before, by simpa using h.size_eq, fun z hz => ?_, fun e => ?_,
      fun z hz => h.rest_lt z (List.mem_cons_of_mem y hz),
      fun z hz => h.rest_notMem z (List.mem_cons_of_mem y hz)⟩
    · rw [Array.getElem?_setIfInBounds]
      by_cases hzy : y = z
      · subst hzy
        simp [hys, hk]
      · rw [if_neg hzy, h.waiting_eq z hz, List.count_cons_of_ne hzy]
    · have hold := h.mem_ready e
      have hnew : e ∈ (if k = 0 then s.ready.insert ⟨priority y, y⟩ else s.ready) ↔
          (k = 0 ∧ ⟨priority y, y⟩ = e) ∨ e ∈ s.ready := by
        by_cases hk0 : k = 0 <;> simp [hk0]
      -- `y` was not ready, as it waited for the node that was placed
      by_cases hey : y = e.node
      · obtain ⟨p, z⟩ := e
        obtain rfl : y = z := hey
        have hnot : (⟨p, y⟩ : Keyed κ) ∉ s.ready := by
          simp [hold]
        have hout : y ∉ s.order.toList := h.rest_notMem y List.mem_cons_self
        simp only [hnew, hnot, or_false, hk, Keyed.mk.injEq, and_true]
        tauto
      · have hne : (⟨priority y, y⟩ : Keyed κ) ≠ e := by
          rintro rfl
          exact hey rfl
        rw [List.count_cons_of_ne hey] at hold
        simp only [hnew, hne, and_false, false_or, hold]

theorem Valid.releaseAll (h : Valid g priority s rest) :
    ∃ t, rest.foldlM (Placing.release priority) s = .ok t ∧ Valid g priority t [] ∧
      t.order = s.order := by
  induction rest generalizing s with
  | nil => exact ⟨s, rfl, h, rfl⟩
  | cons y rest ih =>
    obtain ⟨u, hu, hvalid, horder⟩ := h.release
    obtain ⟨t, ht, hvalid', horder'⟩ := ih hvalid
    refine ⟨t, ?_, hvalid', horder'.trans horder⟩
    rw [List.foldlM_cons, hu, ok_bind, ht]

/-! ## Placing -/

/-- **Placing a ready node** leaves its successors to be released. -/
theorem Valid.place (h : Valid g priority s []) {k : Keyed κ} (hk : k ∈ s.ready) :
    Valid g priority { s with order := s.order.push k.node, ready := s.ready.erase k }
      (g.next k.node).toList := by
  obtain ⟨hprio, hlt, hout, hready⟩ := (h.mem_ready k).1 hk
  have hsum : ∀ z, g.unplaced (s.order.toList ++ [k.node]) z + (g.next k.node).toList.count z =
      g.unplaced s.order.toList z := fun z => Graph.unplaced_concat hout
  refine ⟨?_, ?_, ?_, h.size_eq, ?_, ?_, fun y hy => (Graph.Adj.lt hy).2, ?_⟩
  all_goals simp only [Array.toList_push]
  · exact h.nodup.append (List.nodup_singleton _) (by simpa using hout)
  · intro x hx
    rcases List.mem_append.1 hx with hx | hx
    · exact h.lt x hx
    · rwa [List.mem_singleton.1 hx]
  · exact fun x y hxy hy => h.before_concat hout hready hxy hy
  · intro y hy
    rw [h.waiting_eq y hy, hsum, List.count_nil, Nat.add_zero]
  · intro e
    have hold := h.mem_ready e
    -- the nodes that wait for none are the same as before, but for the one that is placed
    have hne : k ≠ e ∧ e.priority = priority e.node ↔
        e.node ≠ k.node ∧ e.priority = priority e.node := by
      obtain ⟨p, v⟩ := k
      obtain ⟨r, z⟩ := e
      simp only [Ne, Keyed.mk.injEq]
      constructor
      · rintro ⟨hpr, hr⟩
        refine ⟨?_, hr⟩
        rintro rfl
        exact hpr ⟨hprio.trans hr.symm, rfl⟩
      · rintro ⟨hvz, hr⟩
        exact ⟨fun hpr => hvz hpr.2.symm, hr⟩
    rw [mem_erase, hold, hsum, List.count_nil, List.mem_append, List.mem_singleton]
    tauto
  · exact fun y hy => h.next_notMem hout hready hy

omit [Std.LawfulEqOrd κ] in
theorem step_of_isEmpty (h : s.ready.isEmpty = true) : Placing.step g priority s = .ok s := by
  rw [Placing.step, Std.TreeSet.min?_eq_none_iff.2 h]
  rfl

omit [Std.LawfulEqOrd κ] in
theorem run_of_isEmpty (h : s.ready.isEmpty = true) (n : Nat) :
    Placing.run g priority n s = .ok s := by
  induction n with
  | zero => rfl
  | succ n ih => rw [Placing.run, step_of_isEmpty h, ok_bind, ih]

/-- A step places the first of the nodes that are ready. -/
theorem Valid.step_of_min? (h : Valid g priority s []) {k : Keyed κ}
    (hmin : s.ready.min? = some k) :
    ∃ t, Placing.step g priority s = .ok t ∧ Valid g priority t [] ∧
      t.order.toList = s.order.toList ++ [k.node] := by
  have hk := (Std.TreeSet.min?_eq_some_iff_mem_and_forall.1 hmin).1
  obtain ⟨t, ht, hvalid, horder⟩ := (h.place hk).releaseAll
  refine ⟨t, ?_, hvalid, by simp [horder]⟩
  rw [Placing.step, hmin]
  exact ht

/-- **A step** places a node if one is ready. -/
theorem Valid.step (h : Valid g priority s []) (hready : s.ready.isEmpty = false) :
    ∃ t, Placing.step g priority s = .ok t ∧ Valid g priority t [] ∧
      t.order.size = s.order.size + 1 := by
  cases hmin : s.ready.min? with
  | none => simp [Std.TreeSet.min?_eq_none_iff.1 hmin] at hready
  | some k =>
    obtain ⟨t, ht, hvalid, horder⟩ := h.step_of_min? hmin
    refine ⟨t, ht, hvalid, ?_⟩
    simpa using congrArg List.length horder

/-- **A run** never fails, and places a node in every step until none is ready. -/
theorem Valid.run (h : Valid g priority s []) (n : Nat) :
    ∃ t, Placing.run g priority n s = .ok t ∧ Valid g priority t [] ∧
      (t.ready.isEmpty = true ∨ t.order.size = s.order.size + n) := by
  induction n generalizing s with
  | zero => exact ⟨s, rfl, h, .inr rfl⟩
  | succ n ih =>
    cases hready : s.ready.isEmpty with
    | true => exact ⟨s, run_of_isEmpty hready _, h, .inl hready⟩
    | false =>
      obtain ⟨u, hu, hvalid, hsize⟩ := h.step hready
      obtain ⟨t, ht, hvalid', hrun⟩ := ih hvalid
      refine ⟨t, ?_, hvalid', hrun.imp id fun hrun => by omega⟩
      rw [Placing.run, hu, ok_bind, ht]

/-- **As many steps as there are nodes** are enough: none is ready after them. -/
theorem run_begin (g : Graph) (priority : Nat → κ) :
    ∃ t, Placing.run g priority g.size (begin g priority) = .ok t ∧ Valid g priority t [] ∧
      t.ready.isEmpty = true := by
  obtain ⟨t, ht, hvalid, hrun⟩ := (valid_begin g priority).run g.size
  refine ⟨t, ht, hvalid, hrun.elim id fun hsize => ?_⟩
  have hfull : g.size ≤ t.order.size := hsize ▸ Nat.le_add_left ..
  rw [Std.TreeSet.isEmpty_iff_forall_not_mem]
  intro e he
  obtain ⟨-, hlt, hout, -⟩ := (hvalid.mem_ready e).1 he
  exact hout ((hvalid.perm_nodes hfull).mem_iff.2 (Graph.mem_nodes.2 hlt))

end Placing

end ChainGrammar

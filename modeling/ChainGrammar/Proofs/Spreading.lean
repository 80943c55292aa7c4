import Mathlib.Tactic.Common
import ChainGrammar.Graph.Reachability
import ChainGrammar.Proofs.Edges
import ChainGrammar.Proofs.Paths

/-!
# Reachability is the transitive closure

Edges out of marked nodes lead to marked nodes or to nodes in the queue. So a step
leaves it open which nodes the search comes to, whether it marks a node or passes
it over, and these are the marked ones when the queue is empty. The queue empties:
every step takes a node from it, and the successors that join it are paid for by
the mark of their node.

* `Spread.Valid`: the invariant of the search from one node.
* `Spread.Covers`: a node is marked, or on a path from a node in the queue.
* `Spread.Valid.step`, `Spread.Valid.run`: what a step and a run keep.
* `Graph.rows_ok`: **every search ends with an empty queue**, and the next one starts with it.
* `Graph.reaches_ok`, `Graph.incomparable_ok`: the look-ups in the table are about paths.
* `Graph.reachability_closure`: the table is the transitive closure of the edges.
-/

namespace ChainGrammar

variable {g : Graph} {s t : Spread} {marks : Array Bool} {xs : List Nat} {n x y : Nat}

namespace Spread

/-! ## Marks -/

/-- The node is marked. -/
def Marked (marks : Array Bool) (x : Nat) : Prop := marks[x]? = some true

theorem marked_setIfInBounds (hx : x < marks.size) :
    Marked (marks.setIfInBounds x true) y ↔ y = x ∨ Marked marks y := by
  unfold Marked
  rw [Array.getElem?_setIfInBounds]
  by_cases hxy : x = y
  · simp [← hxy, hx]
  · simp [hxy, Ne.symm hxy]

theorem not_marked_iff (hx : x < marks.size) : ¬Marked marks x ↔ marks[x]? = some false := by
  unfold Marked
  rw [Array.getElem?_eq_getElem hx]
  cases marks[x] <;> simp

theorem not_marked_replicate : ¬Marked (Array.replicate n false) x := by
  simp [Marked, Array.getElem?_replicate]

/-! ## A step -/

/-- What holds all along: only nodes wait, and every edge out of a marked node leads to a marked
node or to one that waits. -/
structure Valid (g : Graph) (s : Spread) : Prop where
  size_eq : s.marks.size = g.size
  lt : ∀ x ∈ waiting s.queue, x < g.size
  next : ∀ x y, Marked s.marks x → g.Adj x y → Marked s.marks y ∨ y ∈ waiting s.queue

/-- The node is marked, or there is a path to it from a node that waits. -/
def Covers (g : Graph) (s : Spread) (y : Nat) : Prop :=
  Marked s.marks y ∨ ∃ x ∈ waiting s.queue, g.Leads x y

/-- A path out of a marked node stays with the marked nodes, or goes through one that waits. -/
theorem Valid.covers_of_leads (h : Valid g s) (hx : Marked s.marks x) (hxy : g.Leads x y) :
    Covers g s y := by
  induction hxy using Relation.ReflTransGen.head_induction_on with
  | refl => exact .inl hx
  | head hadj hpath ih =>
    rcases h.next _ _ hx hadj with hm | hw
    · exact ih hm
    · exact .inr ⟨_, hw, hpath⟩

/-- The number of edges out of the nodes without a mark. -/
def unmarkedEdges (g : Graph) (marks : Array Bool) : Nat :=
  Graph.weightOf (fun x => (g.next x).size) (fun x => marks[x]? = some false) g.nodes

/-- The work that is left: the nodes that wait, and the edges out of the nodes without a mark. -/
def work (g : Graph) (s : Spread) : Nat := (waiting s.queue).length + unmarkedEdges g s.marks

/-- Marking a node takes the edges out of it away. -/
theorem unmarkedEdges_setIfInBounds (hx : x < g.size) (hm : marks[x]? = some false) :
    unmarkedEdges g (marks.setIfInBounds x true) + (g.next x).size = unmarkedEdges g marks := by
  refine Graph.weightOf_erase (P := fun x => marks[x]? = some false) _ List.nodup_range
    (List.mem_range.2 hx) hm fun y => ?_
  rw [Array.getElem?_setIfInBounds]
  by_cases hxy : x = y
  · simp [hxy]
  · simp [hxy, Ne.symm hxy]

/-- What a step does that takes the node `x` from the queue. -/
structure Visits (g : Graph) (s t : Spread) (x : Nat) (rest : List Nat) : Prop where
  size_eq : t.marks.size = s.marks.size
  marked_iff : ∀ y, Marked t.marks y ↔ y = x ∨ Marked s.marks y
  mem_waiting : ∀ y, y ∈ waiting t.queue ↔
    y ∈ rest ∨ ¬Marked s.marks x ∧ g.Adj x y ∧ ¬Marked t.marks y
  work_lt : work g t < work g s

/-- **A step** takes the next node from the queue. -/
theorem Valid.visits (h : Valid g s) (hw : waiting s.queue = x :: xs) :
    Visits g s (step g s) x xs := by
  obtain ⟨rest, hrest, rfl⟩ := dequeue?_of_waiting hw
  have hx : x < g.size := h.lt x (hw ▸ List.mem_cons_self)
  have hxs : x < s.marks.size := h.size_eq ▸ hx
  by_cases hm : Marked s.marks x
  · -- `x` has been visited before
    have hstep : step g s = ⟨s.marks, rest⟩ := by
      rw [step, hrest]
      simp only
      rw [if_neg fun hf => (not_marked_iff hxs).2 hf hm]
    rw [hstep]
    refine ⟨rfl, fun y => ?_, by simp [hm], ?_⟩
    · constructor
      · exact .inr
      · rintro (rfl | hy)
        · exact hm
        · exact hy
    · simp only [work, hw, List.length_cons]
      omega
  · have hf := (not_marked_iff hxs).1 hm
    set marks := s.marks.setIfInBounds x true with hmarks
    set new := (g.next x).toList.filter fun y => marks[y]? = some false with hnew
    have hstep : step g s = ⟨marks, join rest new⟩ := by
      rw [step, hrest]
      simp only
      rw [if_pos hf]
    have hsize : marks.size = s.marks.size := Array.size_setIfInBounds
    rw [hstep]
    refine ⟨hsize, fun y => marked_setIfInBounds hxs, fun y => ?_, ?_⟩
    · rw [waiting_join, List.mem_append, hnew, List.mem_filter, decide_eq_true_eq]
      refine or_congr_right ⟨fun ⟨hxy, hy⟩ => ?_, fun ⟨_, hxy, hy⟩ => ?_⟩
      · exact ⟨hm, hxy, fun hmy => by simp [Marked, hy] at hmy⟩
      · exact ⟨hxy, (not_marked_iff (hsize ▸ h.size_eq ▸ hxy.lt.2)).1 hy⟩
    · -- the successors that join the queue are among the edges that no longer count
      have hle : new.length ≤ (g.next x).size := List.length_filter_le ..
      have hedges := unmarkedEdges_setIfInBounds hx hf
      rw [← hmarks] at hedges
      simp only [work, hw, waiting_join, List.length_append, List.length_cons]
      omega

theorem Visits.valid (hv : Visits g s t x xs) (h : Valid g s) (hw : waiting s.queue = x :: xs) :
    Valid g t where
  size_eq := hv.size_eq.trans h.size_eq
  lt y hy := by
    rcases (hv.mem_waiting y).1 hy with hy | ⟨-, hxy, -⟩
    · exact h.lt y (hw ▸ List.mem_cons_of_mem x hy)
    · exact hxy.lt.2
  next y z hy hyz := by
    by_cases hz : Marked t.marks z
    · exact .inl hz
    refine .inr ((hv.mem_waiting z).2 ?_)
    have hzx : z ≠ x := fun hzx => hz ((hv.marked_iff z).2 (.inl hzx))
    by_cases hys : Marked s.marks y
    · -- `z` waits, as it did before the step
      have hzs : ¬Marked s.marks z := fun hzs => hz ((hv.marked_iff z).2 (.inr hzs))
      have hmem := (h.next y z hys hyz).resolve_left hzs
      rw [hw] at hmem
      exact .inl ((List.mem_cons.1 hmem).resolve_left hzx)
    · -- `y` is the node that the step marks
      obtain rfl := ((hv.marked_iff y).1 hy).resolve_right hys
      exact .inr ⟨hys, hyz, hz⟩

/-- **A step** leaves it open which nodes the search comes to. -/
theorem Visits.covers_iff (hv : Visits g s t x xs) (h : Valid g s)
    (hw : waiting s.queue = x :: xs) : Covers g t y ↔ Covers g s y := by
  have hx : x ∈ waiting s.queue := hw ▸ List.mem_cons_self
  constructor
  · rintro (hy | ⟨z, hz, hzy⟩)
    · rcases (hv.marked_iff y).1 hy with rfl | hy
      · exact .inr ⟨y, hx, .refl g y⟩
      · exact .inl hy
    · rcases (hv.mem_waiting z).1 hz with hz | ⟨-, hxz, -⟩
      · exact .inr ⟨z, hw ▸ List.mem_cons_of_mem x hz, hzy⟩
      · exact .inr ⟨x, hx, hxz.leads.trans hzy⟩
  · rintro (hy | ⟨z, hz, hzy⟩)
    · exact .inl ((hv.marked_iff y).2 (.inr hy))
    · rw [hw] at hz
      rcases List.mem_cons.1 hz with rfl | hz
      · exact (hv.valid h hw).covers_of_leads ((hv.marked_iff z).2 (.inl rfl)) hzy
      · exact .inr ⟨z, (hv.mem_waiting z).2 (.inl hz), hzy⟩

/-! ## A run -/

theorem run_of_isEmpty (h : s.queue.isEmpty = true) : run g n s = s := by
  cases n with
  | zero => rfl
  | succ n => rw [run, if_pos h]

/-- **Every number of steps** keeps the invariant, and leaves it open which nodes the search comes
to. -/
theorem Valid.run (h : Valid g s) (n : Nat) :
    Valid g (run g n s) ∧ ∀ y, Covers g (run g n s) y ↔ Covers g s y := by
  induction n generalizing s with
  | zero => exact ⟨h, fun _ => Iff.rfl⟩
  | succ n ih =>
    cases hw : waiting s.queue with
    | nil =>
      rw [run_of_isEmpty (isEmpty_iff.2 hw)]
      exact ⟨h, fun _ => Iff.rfl⟩
    | cons x xs =>
      have hv := h.visits hw
      obtain ⟨hvalid, hcovers⟩ := ih (hv.valid h hw)
      have hne : ¬s.queue.isEmpty = true := fun he => by simp [isEmpty_iff.1 he] at hw
      rw [Spread.run, if_neg hne]
      exact ⟨hvalid, fun y => (hcovers y).trans (hv.covers_iff h hw)⟩

/-- **As many steps as there is work** empty the queue. -/
theorem Valid.waiting_run (h : Valid g s) (hn : work g s ≤ n) :
    waiting (Spread.run g n s).queue = [] := by
  induction n generalizing s with
  | zero =>
    have hlen : (waiting s.queue).length = 0 := by
      unfold work at hn
      omega
    exact List.length_eq_zero_iff.1 hlen
  | succ n ih =>
    cases hw : waiting s.queue with
    | nil => rwa [run_of_isEmpty (isEmpty_iff.2 hw)]
    | cons x xs =>
      have hv := h.visits hw
      have hlt := hv.work_lt
      have hne : ¬s.queue.isEmpty = true := fun he => by simp [isEmpty_iff.1 he] at hw
      rw [Spread.run, if_neg hne]
      exact ih (hv.valid h hw) (by omega)

/-! ## The search from a node -/

theorem waiting_begin : waiting (begin g x .empty).queue = (g.next x).toList := by
  simp [begin]

theorem valid_begin (hx : waiting (begin g x .empty).queue ≠ []) :
    Valid g (begin g x .empty) ∧ (begin g x .empty).marks = Array.replicate g.size false := by
  have hne : ¬(join .empty (g.next x).toList).isEmpty = true := fun he => hx (isEmpty_iff.1 he)
  have hmarks : (begin g x .empty).marks = Array.replicate g.size false := if_neg hne
  refine ⟨⟨by simp [hmarks], fun y hy => ?_, fun y z hy => ?_⟩, hmarks⟩
  · rw [waiting_begin] at hy
    exact (Graph.Adj.lt (x := x) hy).2
  · rw [hmarks] at hy
    exact absurd hy not_marked_replicate

theorem work_begin (hmarks : (begin g x .empty).marks = Array.replicate g.size false) :
    work g (begin g x .empty) = (g.next x).size + g.edgeCount := by
  rw [work, waiting_begin, hmarks]
  congr 1
  exact Graph.weightOf_of_forall _ fun y hy => by simp [Graph.mem_nodes.1 hy]

/-- The nodes that wait at the beginning lead to the nodes that `x` reaches. -/
theorem covers_begin : Covers g (begin g x .empty) y ↔ g.Reaches x y := by
  have hnone : ¬Marked (begin g x .empty).marks y := by
    unfold begin
    simp only
    split
    · simp [Marked]
    · exact not_marked_replicate
  rw [Covers, or_iff_right hnone, waiting_begin, Graph.reaches_iff_head]
  rfl

end Spread

namespace Graph

open Spread

/-- **The search from a node** ends with an empty queue, and has marked what the node reaches. -/
theorem spread_ok : (g.spread g.edgeCount x .empty).queue = .empty ∧
    ∀ y, Marked (g.spread g.edgeCount x .empty).marks y ↔ g.Reaches x y := by
  rw [spread]
  by_cases hx : waiting (begin g x .empty).queue = []
  · rw [run_of_isEmpty (isEmpty_iff.2 hx)]
    refine ⟨eq_empty_of_waiting hx, fun y => ?_⟩
    rw [← covers_begin, Covers, hx]
    simp
  · obtain ⟨hvalid, hmarks⟩ := valid_begin hx
    obtain ⟨-, hcovers⟩ := hvalid.run ((g.next x).size + g.edgeCount)
    have hend := hvalid.waiting_run (Nat.le_of_eq (work_begin hmarks))
    refine ⟨eq_empty_of_waiting hend, fun y => ?_⟩
    rw [← covers_begin, ← hcovers, Covers, hend]
    simp

/-- **Every search ends with an empty queue**, and the next one starts with it. -/
theorem rows_ok (xs : List Nat) : g.rows g.edgeCount xs .empty =
    (xs.map fun x => (g.spread g.edgeCount x .empty).marks, .empty) := by
  induction xs with
  | nil => rfl
  | cons x xs ih => simp only [rows, spread_ok.1, ih, List.map_cons]

/-! ## The table -/

/-- **Looking up a pair of nodes** tells whether there is a path from the one to the other. -/
theorem reaches_ok (hx : x < g.size) (hy : y < g.size) :
    ∃ b, g.reachability.reaches x y = .ok b ∧ (b = true ↔ g.Reaches x y) := by
  have hrow : g.reachability.rows[x]? = some (g.spread g.edgeCount x .empty).marks := by
    simp [reachability, rows_ok, nodes, hx]
  have hsize : y < g.reachability.size := hy
  refine ⟨(g.spread g.edgeCount x .empty).marks[y]?.getD false, ?_, ?_⟩
  · rw [Reachability.reaches, entry_eq_ok hrow, ok_bind, if_pos hsize, pure_eq_ok]
  · rw [← spread_ok.2, Marked]
    rcases (g.spread g.edgeCount x .empty).marks[y]? with _ | b <;> simp

theorem incomparable_ok (hx : x < g.size) (hy : y < g.size) :
    ∃ b, g.reachability.incomparable x y = .ok b ∧
      (b = true ↔ ¬g.Reaches x y ∧ ¬g.Reaches y x) := by
  obtain ⟨b, hb, hxy⟩ := reaches_ok hx hy
  obtain ⟨c, hc, hyx⟩ := reaches_ok hy hx
  rw [Reachability.incomparable, hb, hc, ← hxy, ← hyx]
  cases b with
  | true => exact ⟨false, rfl, by simp⟩
  | false => exact ⟨!c, rfl, by simp⟩

/-- Only nodes ever wait. -/
theorem lt_of_mem_waiting (hy : y ∈ waiting ((begin g x .empty).run g n).queue) : y < g.size := by
  by_cases hx : waiting (begin g x .empty).queue = []
  · rw [run_of_isEmpty (isEmpty_iff.2 hx), hx] at hy
    exact absurd hy List.not_mem_nil
  · exact ((valid_begin hx).1.run n).1.lt y hy

/-- **Reachability is the transitive closure of the edges.** Every search is over after the counted
number of steps, with an empty queue, and so are any number of searches one after the other. Only
nodes are visited. Looking up two nodes does not fail, and tells whether there is a path of at least
one edge between them; a node is found to reach itself if and only if it lies on a cycle. -/
theorem reachability_closure (g : Graph) :
    (∀ x, (g.spread g.edgeCount x .empty).queue.isEmpty = true) ∧
      (∀ xs, (g.rows g.edgeCount xs .empty).2.isEmpty = true) ∧
      (∀ x n, ∀ y ∈ waiting ((begin g x .empty).run g n).queue, y < g.size) ∧
      (∀ x y, x < g.size → y < g.size →
        ∃ b, g.reachability.reaches x y = .ok b ∧ (b = true ↔ g.Reaches x y)) ∧
      ∀ x < g.size, g.reachability.reaches x x = .ok true ↔ g.OnCycle x := by
  refine ⟨fun x => ?_, fun xs => ?_, fun x n y hy => lt_of_mem_waiting hy,
    fun x y hx hy => reaches_ok hx hy, fun x hx => ?_⟩
  · rw [spread_ok.1]
    rfl
  · rw [rows_ok]
    rfl
  · obtain ⟨b, hb, hiff⟩ := reaches_ok hx hx
    rw [hb, onCycle_iff, ← hiff, Except.ok.injEq]

/-- With the edges `0 → 1`, `1 → 2` and `3 → 3`, the node `0` reaches `2` but not itself, and `3`
reaches itself. -/
theorem reachability_closure_chain :
    ∃ g, ofEdges 4 [(0, 1), (1, 2), (3, 3)] = .ok g ∧ 0 < g.size ∧ 2 < g.size ∧ 3 < g.size ∧
      g.reachability.reaches 0 2 = .ok true ∧ g.reachability.reaches 0 0 = .ok false ∧
      g.reachability.reaches 3 3 = .ok true := by
  have hends : ∀ e ∈ [(0, 1), (1, 2), (3, 3)], e.1 < 4 ∧ e.2 < 4 := by decide
  obtain ⟨g, hg, hsize, hadj⟩ := ofEdges_ok hends
  obtain ⟨-, -, -, hreaches, hcycle⟩ := reachability_closure g
  have h01 : g.Reaches 0 1 := Adj.reaches ((hadj 0 1).2 (by decide))
  have h12 : g.Reaches 1 2 := Adj.reaches ((hadj 1 2).2 (by decide))
  have h33 : g.OnCycle 3 := ⟨[], by simpa using (hadj 3 3).2 (by decide)⟩
  -- no edge enters `0`
  have h00 : ¬g.Reaches 0 0 := fun h => by
    obtain ⟨z, -, hz⟩ := reaches_iff_tail.1 h
    simpa using (hadj z 0).1 hz
  obtain ⟨b, hb, hb02⟩ := hreaches 0 2 (by omega) (by omega)
  obtain ⟨c, hc, hc00⟩ := hreaches 0 0 (by omega) (by omega)
  rw [hb02.2 (h01.trans h12)] at hb
  rw [Bool.eq_false_iff.2 (mt hc00.1 h00)] at hc
  exact ⟨g, hg, by omega, by omega, by omega, hb, hc, (hcycle 3 (by omega)).2 h33⟩

end Graph

end ChainGrammar

import ChainGrammar.Automaton.Graph
import ChainGrammar.Proofs.Edges
import ChainGrammar.Proofs.Learning
import ChainGrammar.Proofs.Paths

/-!
# The graph of an automaton

* `Automaton.mem_edges`: the listed edges are those of the states.
* `Automaton.IsGraph`: a graph with the states with symbols as its nodes and the edges between them.
* `Automaton.graph_ok`: **every automaton has such a graph**.
* `Automaton.LearnedPath`: a path through states with symbols; `Automaton.IsGraph.reaches_iff`
  finds it in the graph.
-/

namespace ChainGrammar.Automaton

open Relation

variable {α : Type} {a : Automaton α} {g : Graph} {i j x y : Nat}

theorem mem_edges : (i, j) ∈ a.edges ↔ j ∈ a.next i := by
  simp only [edges, List.mem_flatMap, List.mem_range, List.mem_map, Prod.mk.injEq]
  constructor
  · rintro ⟨v, -, w, hw, rfl, rfl⟩
    exact hw
  · intro h
    obtain ⟨q, hq, -⟩ := mem_next_iff.1 h
    exact ⟨i, (Array.getElem?_eq_some_iff.1 hq).1, j, h, rfl, rfl⟩

theorem nodeOf?_eq_some : a.nodeOf? i = some x ↔ x < a.stateCount ∧ i = anchorCount + x := by
  unfold nodeOf? stateCount
  rw [Option.ite_none_left_eq_some]
  simp only [anchorCount, Option.some_inj]
  omega

theorem nodeEdge?_eq_some {e : Nat × Nat} : a.nodeEdge? e = some (x, y) ↔
    (x < a.stateCount ∧ e.1 = anchorCount + x) ∧ y < a.stateCount ∧ e.2 = anchorCount + y := by
  rw [← nodeOf?_eq_some, ← nodeOf?_eq_some, nodeEdge?]
  cases a.nodeOf? e.1 <;> cases a.nodeOf? e.2 <;> simp

/-- The graph has the states with symbols as its nodes, and the edges between them. -/
structure IsGraph (a : Automaton α) (g : Graph) : Prop where
  size_eq : g.size = a.stateCount
  adj_iff : ∀ x y, g.Adj x y ↔
    x < a.stateCount ∧ y < a.stateCount ∧ anchorCount + y ∈ a.next (anchorCount + x)

/-- **Every automaton has a graph.** -/
theorem graph_ok (a : Automaton α) : ∃ g, a.graph = .ok g ∧ a.IsGraph g := by
  have hmem : ∀ x y, (x, y) ∈ a.edges.filterMap a.nodeEdge? ↔
      x < a.stateCount ∧ y < a.stateCount ∧ anchorCount + y ∈ a.next (anchorCount + x) := by
    intro x y
    simp only [List.mem_filterMap, Prod.exists, mem_edges, nodeEdge?_eq_some]
    constructor
    · rintro ⟨i, j, hij, ⟨hx, rfl⟩, hy, rfl⟩
      exact ⟨hx, hy, hij⟩
    · rintro ⟨hx, hy, hij⟩
      exact ⟨_, _, hij, ⟨hx, rfl⟩, hy, rfl⟩
  have hends : ∀ e ∈ a.edges.filterMap a.nodeEdge?, e.1 < a.stateCount ∧ e.2 < a.stateCount :=
    fun e he => ⟨((hmem e.1 e.2).1 he).1, ((hmem e.1 e.2).1 he).2.1⟩
  obtain ⟨g, hg, hsize, hadj⟩ := Graph.ofEdges_ok hends
  exact ⟨g, hg, hsize, fun x y => (hadj x y).trans (hmem x y)⟩

/-- The rank of a symbol is a node. -/
theorem IsGraph.rank_lt [DecidableEq α] {seen : List α} {E : Nat → Nat → Prop} {s : α}
    (hg : a.IsGraph g) (hr : a.Records seen E) (hs : s ∈ seen) : rank seen s < g.size := by
  rw [hg.size_eq, hr.stateCount_eq]
  exact rank_lt_iff.2 hs

/-! ## Paths -/

/-- There is an edge between two states with symbols. -/
def LearnedEdge (a : Automaton α) (i j : Nat) : Prop :=
  (i, j) ∈ a.edges ∧ i ∈ a.learned ∧ j ∈ a.learned

/-- There is a path of at least one edge through states with symbols. -/
def LearnedPath (a : Automaton α) (i j : Nat) : Prop := TransGen a.LearnedEdge i j

theorem mem_learned : i ∈ a.learned ↔ ∃ x < a.stateCount, i = anchorCount + x := by
  simp only [learned, List.mem_range'_1]
  constructor
  · rintro ⟨h1, h2⟩
    exact ⟨i - anchorCount, by omega, by omega⟩
  · rintro ⟨x, hx, rfl⟩
    omega

theorem IsGraph.learnedEdge_iff (hg : a.IsGraph g) :
    a.LearnedEdge i j ↔ ∃ x y, g.Adj x y ∧ i = anchorCount + x ∧ j = anchorCount + y := by
  simp only [LearnedEdge, mem_edges, mem_learned, hg.adj_iff]
  constructor
  · rintro ⟨hij, ⟨x, hx, rfl⟩, y, hy, rfl⟩
    exact ⟨x, y, ⟨hx, hy, hij⟩, rfl, rfl⟩
  · rintro ⟨x, y, ⟨hx, hy, hij⟩, rfl, rfl⟩
    exact ⟨hij, ⟨x, hx, rfl⟩, y, hy, rfl⟩

/-- **Paths through states with symbols** are the paths of the graph. -/
theorem IsGraph.reaches_iff (hg : a.IsGraph g) :
    a.LearnedPath (anchorCount + x) (anchorCount + y) ↔ g.Reaches x y := by
  constructor
  · intro h
    have hstep : ∀ i j, a.LearnedEdge i j → g.Adj (i - anchorCount) (j - anchorCount) := by
      intro i j hij
      obtain ⟨v, w, hvw, rfl, rfl⟩ := hg.learnedEdge_iff.1 hij
      simpa using hvw
    simpa [Graph.Reaches, Function.onFun] using TransGen.lift (· - anchorCount) hstep _ _ h
  · exact TransGen.lift (anchorCount + ·)
      (fun v w hvw => hg.learnedEdge_iff.2 ⟨v, w, hvw, rfl, rfl⟩) x y

end ChainGrammar.Automaton

import ChainGrammar.Proofs.Counters
import ChainGrammar.Proofs.Evidence

/-!
# An automaton sums up the sequences

* `Automaton.Summarises`: the states, edges and counters of an automaton are those that some
  sequences give, put in terms of their symbols.
* `Automaton.summarises_ofSequences`: **the automaton of some sequences sums them up**, whatever
  they are.
-/

namespace ChainGrammar.Automaton

variable {α : Type} [DecidableEq α] {a : Automaton α} {seen : List α} {E : Nat → Nat → Prop}
  {ws : List (List α)} {x y : α} {i j : Nat}

/-- The automaton is an exact summary of the sequences. The symbols in the order in which they are
met are those of `ws.flatten.eraseDups`. -/
structure Summarises (a : Automaton α) (ws : List (List α)) : Prop where
  /-- The states have the symbols in the order in which they are met. -/
  symbols_eq : a.learned.map a.symbolAt = ws.flatten.eraseDups.map fun x => .ok (some x)
  /-- States and symbols look each other up, the ones in the index and the others in the table of
  the states. -/
  stateOf?_eq_some_iff : ∀ x i, a.stateOf? x = some i ↔ a.symbolAt i = .ok (some x)
  /-- The entries of the index are the states with their symbols. -/
  mem_index_iff : ∀ x i, (x, i) ∈ a.index ↔ a.symbolAt i = .ok (some x)
  /-- No other symbol has a state. -/
  stateOf?_eq_none_iff : ∀ x, a.stateOf? x = none ↔ x ∉ ws.flatten
  /-- There is an edge between two symbols if one comes right after the other. -/
  edge_iff : ∀ x y i j, a.stateOf? x = some i → a.stateOf? y = some j →
    ((i, j) ∈ a.edges ↔ Follows ws x y)
  /-- There is an edge from the start to a symbol that comes first. -/
  edge_start_iff : ∀ x i, a.stateOf? x = some i → ((start, i) ∈ a.edges ↔ Opens ws x)
  /-- There is an edge from a symbol that comes last to the finish. -/
  edge_finish_iff : ∀ x i, a.stateOf? x = some i → ((i, finish) ∈ a.edges ↔ Closes ws x)
  /-- There is no other edge. -/
  edge_cases : ∀ i j, (i, j) ∈ a.edges →
    (∃ x y, a.stateOf? x = some i ∧ a.stateOf? y = some j) ∨
      (i = start ∧ ∃ x, a.stateOf? x = some j) ∨ ((∃ x, a.stateOf? x = some i) ∧ j = finish)
  /-- A symbol is counted as often as it occurs. -/
  occurrencesAt_eq : ∀ x i, a.stateOf? x = some i → a.occurrencesAt i = .ok (ws.flatten.count x)
  /-- The empty sequences are not counted. -/
  sequenceCount_eq : a.sequenceCount = ws.countP (· ≠ [])
  /-- The graph has the edges between symbols, numbered in the order in which they are met. -/
  graph_eq : ∃ g, a.graph = .ok g ∧ g.size = ws.flatten.eraseDups.length ∧
    ∀ v w, (v, w) ∈ g.edges ↔ ∃ x y, ws.flatten.eraseDups[v]? = some x ∧
      ws.flatten.eraseDups[w]? = some y ∧ Follows ws x y

/-- The states have the symbols in the order in which they are met. -/
theorem Records.map_symbolAt_learned (h : a.Records seen E) :
    a.learned.map a.symbolAt = seen.eraseDups.map fun x => .ok (some x) := by
  have hlen : a.learned.length = seen.eraseDups.length := by
    rw [learned, List.length_range', h.stateCount_eq]
  refine List.ext_getElem (by simpa using hlen) fun r _ hr => ?_
  have hlt : r < seen.eraseDups.length := by simpa using hr
  obtain ⟨hmem, hrank⟩ := getElem?_eraseDups.1 (List.getElem?_eq_getElem hlt)
  simp only [List.getElem_map, learned, List.getElem_range', Nat.one_mul]
  rw [h.symbolAt_eq]
  exact ⟨hmem, by rw [stateIn, ← hrank]⟩

/-- An edge goes between symbols, from the start to a symbol or from a symbol to the finish. -/
theorem edge_cases (h : (i, j) ∈ (ofSequences ws).edges) :
    (∃ x y, (ofSequences ws).stateOf? x = some i ∧ (ofSequences ws).stateOf? y = some j) ∨
      (i = start ∧ ∃ x, (ofSequences ws).stateOf? x = some j) ∨
        ((∃ x, (ofSequences ws).stateOf? x = some i) ∧ j = finish) := by
  have hstate : ∀ x ∈ ws.flatten, (ofSequences ws).stateOf? x = some (stateIn ws.flatten x) :=
    fun x hx => (records_ofSequences ws).stateOf?_eq_some.2 ⟨hx, rfl⟩
  rcases mem_edges_iff.1 h with ⟨x, y, hxy, rfl, rfl⟩ | ⟨x, hx, hi, rfl⟩ | ⟨x, hx, rfl, hj⟩
  · obtain ⟨hx, hy⟩ := hxy.mem_flatten
    exact .inl ⟨x, y, hstate x hx, hstate y hy⟩
  · exact .inr (.inl ⟨hi, x, hstate x hx.mem_flatten⟩)
  · exact .inr (.inr ⟨⟨x, hstate x hx.mem_flatten⟩, hj⟩)

/-- The graph has the edges between symbols. -/
theorem exists_graph_follows (ws : List (List α)) :
    ∃ g, (ofSequences ws).graph = .ok g ∧ g.size = ws.flatten.eraseDups.length ∧
      ∀ v w, (v, w) ∈ g.edges ↔ ∃ x y, ws.flatten.eraseDups[v]? = some x ∧
        ws.flatten.eraseDups[w]? = some y ∧ Follows ws x y := by
  obtain ⟨g, hg, hgraph⟩ := graph_ok (ofSequences ws)
  refine ⟨g, hg, ?_, fun v w => ?_⟩
  · rw [hgraph.size_eq, (records_ofSequences ws).stateCount_eq]
  · rw [Graph.mem_edges, hgraph.adj_iff_follows]
    simp only [getElem?_eraseDups]
    constructor
    · rintro ⟨x, y, hxy, hv, hw⟩
      exact ⟨x, y, ⟨hxy.mem_flatten.1, hv⟩, ⟨hxy.mem_flatten.2, hw⟩, hxy⟩
    · rintro ⟨x, y, ⟨-, hv⟩, ⟨-, hw⟩, hxy⟩
      exact ⟨x, y, hxy, hv, hw⟩

/-- **The automaton of some sequences sums them up.** Its states carry the symbols in the order in
which they are met, its edges and those of its graph are what the sequences show, and its counters
are their numbers of occurrences and of sequences that are not empty. -/
theorem summarises_ofSequences (ws : List (List α)) : (ofSequences ws).Summarises ws where
  symbols_eq := (records_ofSequences ws).map_symbolAt_learned
  stateOf?_eq_some_iff x i := by
    rw [(records_ofSequences ws).stateOf?_eq_some, (records_ofSequences ws).symbolAt_eq]
  mem_index_iff x i := by
    rw [(records_ofSequences ws).mem_index, (records_ofSequences ws).symbolAt_eq]
  stateOf?_eq_none_iff x := by
    rw [(records_ofSequences ws).stateOf?_eq]
    split <;> simp_all
  edge_iff x y i j hi hj := by
    obtain ⟨hx, rfl⟩ := (records_ofSequences ws).stateOf?_eq_some.1 hi
    obtain ⟨hy, rfl⟩ := (records_ofSequences ws).stateOf?_eq_some.1 hj
    exact edge_iff_follows hx hy
  edge_start_iff x i hi := by
    obtain ⟨hx, rfl⟩ := (records_ofSequences ws).stateOf?_eq_some.1 hi
    exact edge_start_iff hx
  edge_finish_iff x i hi := by
    obtain ⟨hx, rfl⟩ := (records_ofSequences ws).stateOf?_eq_some.1 hi
    exact edge_finish_iff hx
  edge_cases _ _ := edge_cases
  occurrencesAt_eq x i hi := by
    obtain ⟨hx, rfl⟩ := (records_ofSequences ws).stateOf?_eq_some.1 hi
    exact (counts_ofSequences ws).occurrencesAt_eq (records_ofSequences ws) hx
  sequenceCount_eq := (counts_ofSequences ws).sequenceCount_eq
  graph_eq := exists_graph_follows ws

end ChainGrammar.Automaton

import ChainGrammar.Proofs.ChainSteps
import ChainGrammar.Proofs.Counters
import ChainGrammar.Proofs.Renaming
import ChainGrammar.Proofs.Walks

/-!
# Learning what is known

A sequence whose symbols and whose steps from one symbol to the next are known has only its ends to
teach: it may be the first to start or to end as it does. Where they are known too, learning it
counts its symbols and does nothing else.

* `Automaton.Knows`: the automaton has the symbols of a sequence and the edges between them.
* `Automaton.tally`: the automaton with the symbols of a sequence counted.
* `Automaton.Records.learn_eq`: **learning a known sequence** counts it and connects its ends.
* `Automaton.TeachesEnds`, `Automaton.OnlyCounts`: what a sequence that is learned leaves unchanged.
* `Automaton.learn_familiar`: **familiar evidence changes nothing** but the ends and the counters.
-/

namespace ChainGrammar.Automaton

variable {α : Type}

/-- The automaton with the symbols of a sequence counted. -/
def tally [DecidableEq α] (a : Automaton α) (w : List α) : Automaton α :=
  { a with states := a.states.map fun q =>
      { q with occurrences := q.occurrences + q.symbol.elim 0 (w.count ·) } }

/-- The symbols of the sequence have been met, and where one comes right after another one there is
an edge. -/
structure Knows [DecidableEq α] (a : Automaton α) (w : List α) : Prop where
  state : ∀ x ∈ w, ∃ i, a.stateOf? x = some i
  edge : ∀ x y i j, [x, y] <:+: w → a.stateOf? x = some i → a.stateOf? y = some j →
    (i, j) ∈ a.edges

/-- Learning the sequence leaves the symbols, the edges between them and the expression inferred
from them as they are. The only new edges go to its first and from its last symbol. -/
structure TeachesEnds [DecidableEq α] (a : Automaton α) (w : List α) : Prop where
  learned_eq : (a.learn w).learned = a.learned
  symbolAt_eq : ∀ i, (a.learn w).symbolAt i = a.symbolAt i
  stateOf?_eq : ∀ x, (a.learn w).stateOf? x = a.stateOf? x
  learnedEdge_iff : ∀ i j, (a.learn w).LearnedEdge i j ↔ a.LearnedEdge i j
  edge_iff : ∀ i j, (i, j) ∈ (a.learn w).edges ↔ (i, j) ∈ a.edges ∨
    (∃ x, w.head? = some x ∧ i = start ∧ a.stateOf? x = some j) ∨
      ∃ x, w.getLast? = some x ∧ a.stateOf? x = some i ∧ j = finish
  graph_eq : (a.learn w).graph = a.graph
  chain_eq : (a.learn w).chain = a.chain

/-- Learning the sequence only counts its symbols, and itself if it is not empty. -/
structure OnlyCounts [DecidableEq α] (a : Automaton α) (w : List α) : Prop where
  edges_eq : (a.learn w).edges = a.edges
  edgeCount_eq : (a.learn w).edgeCount = a.edgeCount
  occurrencesAt_eq : ∀ x i n, a.stateOf? x = some i → a.occurrencesAt i = .ok n →
    (a.learn w).occurrencesAt i = .ok (n + w.count x)
  sequenceCount_eq : (a.learn w).sequenceCount = a.sequenceCount + if w = [] then 0 else 1
  /-- Nothing else changes. -/
  learn_eq : a.learn w =
    { a.tally w with sequenceCount := a.sequenceCount + if w = [] then 0 else 1 }

section Steps

variable {a : Automaton α} {i j : Nat}

/-- An edge that is there already. -/
theorem connect_of_mem (h : j ∈ a.next i) : a.connect i j = a := by
  rw [connect, SortedSet.insert?_eq_none_iff.2 h]

variable [DecidableEq α] {seen w : List α} {E : Nat → Nat → Prop} {s t u x : α}

/-! ## Counting -/

theorem tally_eq_relabel (a : Automaton α) (w : List α) :
    a.tally w = a.relabel (fun s n => (s, n + s.elim 0 (w.count ·))) a.index := rfl

theorem next_tally (a : Automaton α) (w : List α) (i : Nat) : (a.tally w).next i = a.next i := by
  rw [tally_eq_relabel, next_relabel]

theorem edges_tally (a : Automaton α) (w : List α) : (a.tally w).edges = a.edges := by
  rw [tally_eq_relabel, edges_relabel]

theorem connect_tally (a : Automaton α) (w : List α) (i j : Nat) :
    (a.connect i j).tally w = (a.tally w).connect i j := by
  rw [tally_eq_relabel, tally_eq_relabel, index_connect, connect_relabel]

theorem tally_nil (a : Automaton α) : a.tally [] = a := by
  obtain ⟨states, index, edges, sequences⟩ := a
  simp only [tally, List.count_nil, mk.injEq, and_true]
  refine Array.ext_getElem? fun v => ?_
  rw [Array.getElem?_map]
  rcases states[v]? with _ | ⟨_ | s, _, _, _⟩ <;> rfl

/-- Counting one sequence after the other. -/
theorem tally_append (a : Automaton α) (v w : List α) : (a.tally v).tally w = a.tally (v ++ w) := by
  simp only [tally, Array.map_map, mk.injEq, and_true]
  refine Array.map_congr_left fun q _ => ?_
  cases hq : q.symbol <;> simp [hq, Nat.add_assoc]

theorem Records.tally (h : a.Records seen E) (w : List α) : (a.tally w).Records seen E where
  symbols_eq := by
    rw [← h.symbols_eq, Automaton.tally, Array.toList_map, List.map_map]
    rfl
  mem_index := h.mem_index
  mem_next i j := by rw [next_tally, h.mem_next]

/-- **Counting an occurrence** of a symbol is counting a sequence of that symbol: no other state has
it. -/
theorem Records.count_eq_tally (h : a.Records seen E) (hs : s ∈ seen) :
    a.count (stateIn seen s) = a.tally [s] := by
  simp only [Automaton.count, Automaton.tally, mk.injEq, and_true]
  refine Array.ext_getElem? fun v => ?_
  rw [Array.getElem?_modify, Array.getElem?_map]
  cases hq : a.states[v]? with
  | none => simp
  | some q =>
    have hv : q.symbol = some s ↔ stateIn seen s = v := by
      have hsymbol := h.symbol_eq_iff (i := v) (s := s)
      rwa [hq, Option.map_some, Option.some_inj, and_iff_right hs, eq_comm (a := v)] at hsymbol
    by_cases hsv : stateIn seen s = v
    · simp [hsv, hv.2 hsv]
    · have hzero : q.symbol.elim 0 ([s].count ·) = 0 := by
        cases ht : q.symbol with
        | none => rfl
        | some t =>
          have hts : t ≠ s := fun hst => hsv (hv.1 (by rw [ht, hst]))
          simpa [List.count_eq_zero] using hts
      rw [if_neg hsv, Option.map_some, hzero]
      rfl

/-! ## Going along what is known -/

/-- Going on to a symbol that has been met. -/
theorem Records.advance_of_mem (h : a.Records seen E) (hs : s ∈ seen) (i : Nat) :
    Automaton.advance (a, i) s =
      ((a.tally [s]).connect i (stateIn seen s), stateIn seen s) := by
  simp only [Automaton.advance, h.intern_of_mem hs, h.count_eq_tally hs]

/-- **Going along edges** between symbols counts the symbols. -/
theorem Records.foldl_advance_of_mem (h : a.Records seen E) {p : List α}
    (hmem : ∀ x ∈ s :: p, x ∈ seen)
    (hedge : ∀ x y, [x, y] <:+: s :: p → stateIn seen y ∈ a.next (stateIn seen x))
    (hu : (s :: p).getLast? = some u) :
    p.foldl Automaton.advance (a, stateIn seen s) = (a.tally p, stateIn seen u) := by
  induction p generalizing a s with
  | nil =>
    obtain rfl : s = u := Option.some.inj hu
    rw [tally_nil, List.foldl_nil]
  | cons t p ih =>
    have hrest : ∀ x ∈ t :: p, x ∈ seen := fun x hx => hmem x (List.mem_cons_of_mem s hx)
    have hstep : stateIn seen t ∈ (a.tally [t]).next (stateIn seen s) := by
      rw [next_tally]
      exact hedge s t ⟨[], p, rfl⟩
    have hedges : ∀ x y, [x, y] <:+: t :: p →
        stateIn seen y ∈ (a.tally [t]).next (stateIn seen x) := by
      intro x y hxy
      rw [next_tally]
      exact hedge x y (List.infix_cons_iff.2 (.inr hxy))
    rw [List.getLast?_cons_cons] at hu
    rw [List.foldl_cons, h.advance_of_mem (hrest t List.mem_cons_self), connect_of_mem hstep,
      ih (h.tally [t]) hrest hedges hu, tally_append, List.singleton_append]

/-- **Learning a known sequence** counts its symbols and connects its ends with the anchors. -/
theorem Records.learn_eq (h : a.Records seen E) (hmem : ∀ x ∈ w, x ∈ seen)
    (hedge : ∀ x y, [x, y] <:+: w → stateIn seen y ∈ a.next (stateIn seen x))
    (hs : w.head? = some s) (hu : w.getLast? = some u) :
    a.learn w = { ((a.tally w).connect start (stateIn seen s)).connect (stateIn seen u) finish with
      sequenceCount := a.sequenceCount + 1 } := by
  obtain ⟨p, rfl⟩ : ∃ p, w = s :: p := List.head?_eq_some_iff.1 hs
  have hsmem : s ∈ seen := hmem s List.mem_cons_self
  -- after the first symbol all edges are there
  have hfirst := (h.tally [s]).connect (h.tally [s]).start_lt (stateIn seen s)
  have hedges : ∀ x y, [x, y] <:+: s :: p →
      stateIn seen y ∈ ((a.tally [s]).connect start (stateIn seen s)).next (stateIn seen x) :=
    fun x y hxy => (hfirst.mem_next _ _).2 (.inl ((h.mem_next _ _).1 (hedge x y hxy)))
  have hway : (s :: p).foldl Automaton.advance (a, start) =
      ((a.tally (s :: p)).connect start (stateIn seen s), stateIn seen u) := by
    rw [List.foldl_cons, h.advance_of_mem hsmem, hfirst.foldl_advance_of_mem hmem hedges hu,
      connect_tally, tally_append, List.singleton_append]
  rw [h.learn_of_foldl (List.cons_ne_nil s p) hway, sequenceCount_connect]
  rfl

theorem Records.learn_of_mem (h : a.Records seen E) (hmem : ∀ x ∈ w, x ∈ seen)
    (hedge : ∀ x y, [x, y] <:+: w → stateIn seen y ∈ a.next (stateIn seen x))
    (hs : w.head? = some s) (hu : w.getLast? = some u) :
    (a.learn w).Records seen fun i j => (E i j ∨ i = start ∧ j = stateIn seen s) ∨
      i = stateIn seen u ∧ j = finish := by
  have hfirst := (h.tally w).connect (h.tally w).start_lt (stateIn seen s)
  have hlast := hfirst.connect (hfirst.stateIn_lt (hmem u (List.mem_of_getLast? hu))) finish
  rw [h.learn_eq hmem hedge hs hu]
  exact hlast.of_states rfl rfl

end Steps

/-! ## Automata that know the same -/

section Same

variable [DecidableEq α] {a b : Automaton α} {seen : List α} {E F : Nat → Nat → Prop}

/-- The symbols met decide the symbols of the states. -/
theorem Records.symbolAt_congr (h : a.Records seen E) (h' : b.Records seen F) (i : Nat) :
    b.symbolAt i = a.symbolAt i := by
  have hsymbol := (h'.getElem?_symbols (i := i)).trans h.getElem?_symbols.symm
  have hsize : b.states.size = a.states.size := by rw [h'.size_eq, h.size_eq]
  unfold symbolAt entry
  rw [hsize]
  cases ha : a.states[i]? <;> cases hb : b.states[i]? <;> simp_all

theorem Records.stateOf?_congr (h : a.Records seen E) (h' : b.Records seen F) (x : α) :
    b.stateOf? x = a.stateOf? x := by
  rw [h'.stateOf?_eq, h.stateOf?_eq]

theorem Records.symbolOfNode_congr (h : a.Records seen E) (h' : b.Records seen F) (x : Nat) :
    b.symbolOfNode x = a.symbolOfNode x := by
  unfold symbolOfNode
  rw [h'.stateCount_eq, h.stateCount_eq, h.symbolAt_congr h']

omit [DecidableEq α] in
/-- The edges between states with symbols decide the graph. -/
theorem graph_congr (hcount : b.stateCount = a.stateCount)
    (h : ∀ i j, b.LearnedEdge i j ↔ a.LearnedEdge i j) : b.graph = a.graph := by
  obtain ⟨g, hg, hgraph⟩ := graph_ok a
  obtain ⟨g', hg', hgraph'⟩ := graph_ok b
  have hsize : g'.size = g.size := by rw [hgraph'.size_eq, hgraph.size_eq, hcount]
  have hadj : ∀ x y, g'.Adj x y ↔ g.Adj x y := by
    intro x y
    have hedge := h (anchorCount + x) (anchorCount + y)
    rw [hgraph'.learnedEdge_iff, hgraph.learnedEdge_iff] at hedge
    simpa using hedge
  rw [hg, hg', Graph.ext_adj hsize hadj]

end Same

/-! ## Familiar evidence -/

section Reachable

variable [DecidableEq α] {ws : List (List α)} {w : List α}

/-- What is known in terms of the symbols met. -/
theorem knows_iff : (ofSequences ws).Knows w ↔ (∀ x ∈ w, x ∈ ws.flatten) ∧
    ∀ x y, [x, y] <:+: w →
      stateIn ws.flatten y ∈ (ofSequences ws).next (stateIn ws.flatten x) := by
  have hr := records_ofSequences ws
  constructor
  · rintro ⟨hstate, hedge⟩
    have hmem : ∀ x ∈ w, x ∈ ws.flatten := by
      intro x hx
      obtain ⟨i, hi⟩ := hstate x hx
      exact (hr.stateOf?_eq_some.1 hi).1
    refine ⟨hmem, fun x y hxy => mem_edges.1 (hedge x y _ _ hxy ?_ ?_)⟩
    · exact hr.stateOf?_eq_some.2 ⟨hmem x (hxy.subset (by simp)), rfl⟩
    · exact hr.stateOf?_eq_some.2 ⟨hmem y (hxy.subset (by simp)), rfl⟩
  · rintro ⟨hmem, hedge⟩
    refine ⟨fun x hx => ⟨_, hr.stateOf?_eq_some.2 ⟨hmem x hx, rfl⟩⟩, fun x y i j hxy hi hj => ?_⟩
    obtain ⟨-, rfl⟩ := hr.stateOf?_eq_some.1 hi
    obtain ⟨-, rfl⟩ := hr.stateOf?_eq_some.1 hj
    exact mem_edges.2 (hedge x y hxy)

/-- **A known sequence** teaches its ends at most. -/
theorem Knows.teachesEnds (h : (ofSequences ws).Knows w) : (ofSequences ws).TeachesEnds w := by
  have hr := records_ofSequences ws
  by_cases hne : w = []
  · subst hne
    exact ⟨rfl, fun _ => rfl, fun _ => rfl, fun _ _ => Iff.rfl, by simp, rfl, rfl⟩
  obtain ⟨hmem, hedge⟩ := knows_iff.1 h
  obtain ⟨s, hs⟩ := Option.ne_none_iff_exists'.1 (mt List.head?_eq_none_iff.1 hne)
  obtain ⟨u, hu⟩ := Option.ne_none_iff_exists'.1 (mt List.getLast?_eq_none_iff.1 hne)
  have hb := hr.learn_of_mem hmem hedge hs hu
  have hcount : ((ofSequences ws).learn w).stateCount = (ofSequences ws).stateCount := by
    rw [hb.stateCount_eq, hr.stateCount_eq]
  have hlearned : ((ofSequences ws).learn w).learned = (ofSequences ws).learned := by
    rw [learned, learned, hcount]
  have hedges : ∀ i j, (i, j) ∈ ((ofSequences ws).learn w).edges ↔
      (i, j) ∈ (ofSequences ws).edges ∨ (i = start ∧ j = stateIn ws.flatten s) ∨
        i = stateIn ws.flatten u ∧ j = finish := by
    intro i j
    rw [mem_edges, mem_edges, hb.mem_next, hr.mem_next, or_assoc]
  have hinner : ∀ i j, ((ofSequences ws).learn w).LearnedEdge i j ↔
      (ofSequences ws).LearnedEdge i j := by
    intro i j
    unfold LearnedEdge
    rw [hedges, hlearned]
    refine and_congr_left fun hends => or_iff_left ?_
    obtain ⟨hi, hj⟩ := hends
    -- the new edges have an anchor as one end
    obtain ⟨x, -, rfl⟩ := mem_learned.1 hi
    obtain ⟨y, -, rfl⟩ := mem_learned.1 hj
    unfold start finish anchorCount
    omega
  have hgraph := graph_congr hcount hinner
  refine ⟨hlearned, hr.symbolAt_congr hb, hr.stateOf?_congr hb, hinner, fun i j => ?_, hgraph,
    chain_congr hgraph (hr.symbolOfNode_congr hb)⟩
  have hsmem : s ∈ ws.flatten := hmem s (List.mem_of_mem_head? hs)
  have humem : u ∈ ws.flatten := hmem u (List.mem_of_getLast? hu)
  simp only [hedges, hs, hu, Option.some_inj, exists_eq_left', hr.stateOf?_eq_some, hsmem, humem,
    true_and]

/-- **A sequence that is a walk** from the start to the finish is only counted. -/
theorem onlyCounts_of_isWalk (hmem : ∀ x ∈ w, x ∈ ws.flatten)
    (hwalk : w ≠ [] → (ofSequences ws).IsWalk (tour ws.flatten w)) :
    (ofSequences ws).OnlyCounts w := by
  have hr := records_ofSequences ws
  have hlearn : (ofSequences ws).learn w = { (ofSequences ws).tally w with
      sequenceCount := (ofSequences ws).sequenceCount + if w = [] then 0 else 1 } := by
    by_cases hne : w = []
    · subst hne
      rw [tally_nil]
      rfl
    · obtain ⟨s, hs⟩ := Option.ne_none_iff_exists'.1 (mt List.head?_eq_none_iff.1 hne)
      obtain ⟨u, hu⟩ := Option.ne_none_iff_exists'.1 (mt List.getLast?_eq_none_iff.1 hne)
      have hstep : ∀ i j, [i, j] <:+: tour ws.flatten w → j ∈ (ofSequences ws).next i :=
        fun i j hij => mem_edges.1 <| List.isChain_pair.1 <| List.IsChain.infix (hwalk hne) hij
      have hedge : ∀ x y, [x, y] <:+: w →
          stateIn ws.flatten y ∈ (ofSequences ws).next (stateIn ws.flatten x) :=
        fun x y hxy => hstep _ _ ((pair_infix_tour hne).2 (.inl ⟨x, y, hxy, rfl, rfl⟩))
      have hfirst := hstep _ _ ((pair_infix_tour hne).2 (.inr (.inl ⟨s, hs, rfl, rfl⟩)))
      have hlast := hstep _ _ ((pair_infix_tour hne).2 (.inr (.inr ⟨u, hu, rfl, rfl⟩)))
      rw [← next_tally _ w] at hfirst hlast
      rw [hr.learn_eq hmem hedge hs hu, connect_of_mem hfirst, connect_of_mem hlast, if_neg hne]
  refine ⟨?_, by rw [hlearn]; rfl, fun x i n hi hn => ?_, by rw [hlearn], hlearn⟩
  · rw [hlearn]
    exact edges_tally ..
  · have hx := hr.symbol_eq_iff.2 (hr.stateOf?_eq_some.1 hi)
    obtain ⟨q, hq, hsymbol⟩ := Option.map_eq_some_iff.1 hx
    rw [occurrencesAt, entry_eq_ok hq, ok_bind, pure_eq_ok, Except.ok.injEq] at hn
    have hq' : ((ofSequences ws).tally w).states[i]? =
        some { q with occurrences := q.occurrences + q.symbol.elim 0 (w.count ·) } := by
      rw [tally, Array.getElem?_map, hq, Option.map_some]
    rw [hlearn, occurrencesAt, entry_eq_ok hq', ok_bind, pure_eq_ok, hsymbol, Option.elim_some, hn]

/-- **Familiar evidence changes nothing.** A sequence whose symbols have been met and whose steps
are edges leaves the symbols, the edges between them, the graph and the chain expression as they
are; the only new edges go to its first and from its last symbol. A sequence that some walk from the
start to the finish spells, as every sequence that was learned, is only counted. -/
theorem learn_familiar (ws : List (List α)) (w : List α) :
    ((ofSequences ws).Knows w → (ofSequences ws).TeachesEnds w ∧
      ((ofSequences ws).stateCount < 2 ^ 63 → ∃ e, (ofSequences ws).chain = .ok e ∧
        ((ofSequences ws).learn w).chain = .ok e)) ∧
      ((w ∈ ws ∨ ∃ is, (ofSequences ws).IsWalk (start :: is ++ [finish]) ∧
        (ofSequences ws).spelled is = w) → (ofSequences ws).OnlyCounts w) := by
  constructor
  · intro hknows
    refine ⟨hknows.teachesEnds, fun hcount => ?_⟩
    obtain ⟨_, _, _, _, _, _, _, fs, hsteps⟩ := chainSteps_ofSequences hcount
    exact ⟨_, hsteps.chain_eq, hknows.teachesEnds.chain_eq.trans hsteps.chain_eq⟩
  · rintro (hw | ⟨is, hwalk, hspelled⟩)
    · exact onlyCounts_of_isWalk (fun x hx => List.mem_flatten.2 ⟨w, hw, hx⟩) (isWalk_tour hw)
    · obtain ⟨v, rfl, hv⟩ := exists_map_stateIn hwalk
      rw [(records_ofSequences ws).spelled_map hv] at hspelled
      subst hspelled
      exact onlyCounts_of_isWalk hv fun _ => hwalk

/-- The edge from `2` to `1` is known, the sequence with these symbols is new. The walk goes round a
cycle and ends with a symbol of another sequence. -/
theorem learn_familiar_cycle :
    (ofSequences [[1, 2, 1, 3], [1, 4], []]).Knows [2, 1] ∧
      (ofSequences [[1, 2, 1, 3], [1, 4], []]).TeachesEnds [2, 1] ∧
      (ofSequences [[1, 2, 1, 3], [1, 4], []]).IsWalk (start :: [2, 3, 2, 5] ++ [finish]) ∧
      (ofSequences [[1, 2, 1, 3], [1, 4], []]).spelled [2, 3, 2, 5] = [1, 2, 1, 4] ∧
      (ofSequences [[1, 2, 1, 3], [1, 4], []]).OnlyCounts [1, 2, 1, 4] := by
  have hknows : (ofSequences [[1, 2, 1, 3], [1, 4], []]).Knows [2, 1] := by
    refine knows_iff.2 ⟨by decide, fun x y hxy => ?_⟩
    obtain ⟨rfl, rfl⟩ : x = 2 ∧ y = 1 := by simpa using hxy.eq_of_length rfl
    exact mem_edges.1 (by decide +kernel)
  have hwalk : (ofSequences [[1, 2, 1, 3], [1, 4], []]).IsWalk
      (start :: [2, 3, 2, 5] ++ [finish]) := by decide +kernel
  have hspelled : (ofSequences [[1, 2, 1, 3], [1, 4], []]).spelled [2, 3, 2, 5] = [1, 2, 1, 4] := by
    decide +kernel
  exact ⟨hknows, ((learn_familiar _ _).1 hknows).1, hwalk, hspelled,
    (learn_familiar _ _).2 (.inr ⟨_, hwalk, hspelled⟩)⟩

end Reachable

end ChainGrammar.Automaton

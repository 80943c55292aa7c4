import ChainGrammar.Proofs.AutomatonGraph

/-!
# What sequences show

The edges that an automaton has learned, in terms of the symbols of the sequences alone.

* `Follows`, `Opens`, `Closes`: a symbol comes right after another one, first or last in some
  sequence.
* `Automaton.pair_infix_tour`: the steps of a tour.
* `Automaton.mem_edges_iff`: **the edges of the automaton** are what the sequences show.
* `Automaton.IsGraph.adj_iff_follows`: **the edges of its graph** are those between symbols.
-/

namespace ChainGrammar

variable {α : Type} {ws : List (List α)} {x y : α}

/-- `y` comes right after `x` in some sequence. -/
def Follows (ws : List (List α)) (x y : α) : Prop := ∃ p ∈ ws, [x, y] <:+: p

/-- `x` comes first in some sequence. -/
def Opens (ws : List (List α)) (x : α) : Prop := ∃ p ∈ ws, p.head? = some x

/-- `x` comes last in some sequence. -/
def Closes (ws : List (List α)) (x : α) : Prop := ∃ p ∈ ws, p.getLast? = some x

instance [DecidableEq α] (ws : List (List α)) (x y : α) : Decidable (Follows ws x y) :=
  inferInstanceAs (Decidable (∃ p ∈ ws, [x, y] <:+: p))

theorem Follows.mem_flatten (h : Follows ws x y) : x ∈ ws.flatten ∧ y ∈ ws.flatten := by
  obtain ⟨p, hp, hxy⟩ := h
  have hmem : ∀ s ∈ [x, y], s ∈ ws.flatten :=
    fun s hs => List.mem_flatten.2 ⟨p, hp, hxy.subset hs⟩
  exact ⟨hmem x (by simp), hmem y (by simp)⟩

theorem Opens.mem_flatten (h : Opens ws x) : x ∈ ws.flatten := by
  obtain ⟨p, hp, hx⟩ := h
  exact List.mem_flatten.2 ⟨p, hp, List.mem_of_mem_head? hx⟩

theorem Closes.mem_flatten (h : Closes ws x) : x ∈ ws.flatten := by
  obtain ⟨p, hp, hx⟩ := h
  exact List.mem_flatten.2 ⟨p, hp, List.mem_of_getLast? hx⟩

namespace Automaton

variable [DecidableEq α] {seen p : List α} {g : Graph} {i j : Nat}

/-! ## Edges of the automaton -/

omit [DecidableEq α] in
/-- Two elements next to each other after a change of all elements. -/
theorem pair_infix_map {f : α → Nat} :
    [i, j] <:+: p.map f ↔ ∃ x y, [x, y] <:+: p ∧ i = f x ∧ j = f y := by
  rw [List.infix_map_iff]
  constructor
  · rintro ⟨l, hl, hij⟩
    obtain ⟨x, l, rfl, rfl, hl'⟩ := List.map_eq_cons_iff.1 hij.symm
    obtain ⟨y, l, rfl, rfl, hnil⟩ := List.map_eq_cons_iff.1 hl'
    obtain rfl := List.map_eq_nil_iff.1 hnil
    exact ⟨x, y, hl, rfl, rfl⟩
  · rintro ⟨x, y, hxy, rfl, rfl⟩
    exact ⟨[x, y], hxy, rfl⟩

/-- **The steps of a tour**: from the start to the first symbol, from each symbol to the next and
from the last symbol to the finish. -/
theorem pair_infix_tour (hne : p ≠ []) : [i, j] <:+: tour seen p ↔
    (∃ x y, [x, y] <:+: p ∧ i = stateIn seen x ∧ j = stateIn seen y) ∨
      (∃ x, p.head? = some x ∧ i = start ∧ j = stateIn seen x) ∨
      ∃ x, p.getLast? = some x ∧ i = stateIn seen x ∧ j = finish := by
  obtain ⟨s, p, rfl⟩ := List.exists_cons_of_ne_nil hne
  obtain ⟨u, hu⟩ := Option.ne_none_iff_exists'.1 (mt List.getLast?_eq_none_iff.1 hne)
  have hlast : (start :: (s :: p).map (stateIn seen)).getLast? = some (stateIn seen u) := by
    rw [List.map_cons, List.getLast?_cons_cons, ← List.map_cons, List.getLast?_map, hu,
      Option.map_some]
  rw [tour, pair_infix_concat hlast, List.map_cons, pair_infix_cons, ← List.map_cons,
    pair_infix_map, List.head?_cons, hu]
  simp only [Option.some.injEq, exists_eq_left']
  rw [or_left_comm, or_assoc, or_left_comm]

/-- The edges of the automaton are the steps of the tours. -/
theorem mem_edges_ofSequences : (i, j) ∈ (ofSequences ws).edges ↔
    ∃ p ∈ ws, p ≠ [] ∧ [i, j] <:+: tour ws.flatten p := by
  rw [mem_edges, (records_ofSequences ws).mem_next]

/-- **The edges of the automaton** of some sequences: between two symbols if one comes right after
the other, from the start to a symbol that comes first, and from a symbol that comes last to the
finish. -/
theorem mem_edges_iff : (i, j) ∈ (ofSequences ws).edges ↔
    (∃ x y, Follows ws x y ∧ i = stateIn ws.flatten x ∧ j = stateIn ws.flatten y) ∨
      (∃ x, Opens ws x ∧ i = start ∧ j = stateIn ws.flatten x) ∨
      ∃ x, Closes ws x ∧ i = stateIn ws.flatten x ∧ j = finish := by
  rw [mem_edges_ofSequences]
  constructor
  · rintro ⟨p, hp, hne, hij⟩
    rcases (pair_infix_tour hne).1 hij with ⟨x, y, hxy, h⟩ | ⟨x, hx, h⟩ | ⟨x, hx, h⟩
    · exact .inl ⟨x, y, ⟨p, hp, hxy⟩, h⟩
    · exact .inr (.inl ⟨x, ⟨p, hp, hx⟩, h⟩)
    · exact .inr (.inr ⟨x, ⟨p, hp, hx⟩, h⟩)
  · rintro (⟨x, y, ⟨p, hp, hxy⟩, h⟩ | ⟨x, ⟨p, hp, hx⟩, h⟩ | ⟨x, ⟨p, hp, hx⟩, h⟩)
    · have hne : p ≠ [] := List.ne_nil_of_mem (hxy.subset List.mem_cons_self)
      exact ⟨p, hp, hne, (pair_infix_tour hne).2 (.inl ⟨x, y, hxy, h⟩)⟩
    · have hne : p ≠ [] := List.ne_nil_of_mem (List.mem_of_mem_head? hx)
      exact ⟨p, hp, hne, (pair_infix_tour hne).2 (.inr (.inl ⟨x, hx, h⟩))⟩
    · have hne : p ≠ [] := List.ne_nil_of_mem (List.mem_of_getLast? hx)
      exact ⟨p, hp, hne, (pair_infix_tour hne).2 (.inr (.inr ⟨x, hx, h⟩))⟩

/-! ## Edges by their ends -/

theorem stateIn_inj (hx : x ∈ seen) : stateIn seen x = stateIn seen y ↔ x = y := by
  rw [stateIn, stateIn, Nat.add_left_cancel_iff, rank_inj hx]

theorem edge_iff_follows (hx : x ∈ ws.flatten) (hy : y ∈ ws.flatten) :
    (stateIn ws.flatten x, stateIn ws.flatten y) ∈ (ofSequences ws).edges ↔ Follows ws x y := by
  rw [mem_edges_iff]
  constructor
  · rintro (⟨v, w, hvw, hv, hw⟩ | ⟨w, -, hstart, -⟩ | ⟨v, -, -, hfinish⟩)
    · rw [stateIn_inj hx] at hv
      rw [stateIn_inj hy] at hw
      rwa [hv, hw]
    · exact absurd hstart.symm start_ne_stateIn
    · exact absurd hfinish.symm finish_ne_stateIn
  · intro hxy
    exact .inl ⟨x, y, hxy, rfl, rfl⟩

theorem edge_start_iff (hx : x ∈ ws.flatten) :
    (start, stateIn ws.flatten x) ∈ (ofSequences ws).edges ↔ Opens ws x := by
  rw [mem_edges_iff]
  constructor
  · rintro (⟨v, w, -, hstart, -⟩ | ⟨w, hw, -, hxw⟩ | ⟨v, -, hstart, -⟩)
    · exact absurd hstart start_ne_stateIn
    · rw [stateIn_inj hx] at hxw
      rwa [hxw]
    · exact absurd hstart start_ne_stateIn
  · intro hopens
    exact .inr (.inl ⟨x, hopens, rfl, rfl⟩)

theorem edge_finish_iff (hx : x ∈ ws.flatten) :
    (stateIn ws.flatten x, finish) ∈ (ofSequences ws).edges ↔ Closes ws x := by
  rw [mem_edges_iff]
  constructor
  · rintro (⟨v, w, -, -, hfinish⟩ | ⟨w, -, -, hfinish⟩ | ⟨v, hv, hxv, -⟩)
    · exact absurd hfinish finish_ne_stateIn
    · exact absurd hfinish finish_ne_stateIn
    · rw [stateIn_inj hx] at hxv
      rwa [hxv]
  · intro hcloses
    exact .inr (.inr ⟨x, hcloses, rfl, rfl⟩)

/-! ## Edges of the graph -/

/-- **The edges of the graph** are those from a symbol to one that comes right after it. -/
theorem IsGraph.adj_iff_follows (hg : (ofSequences ws).IsGraph g) :
    g.Adj i j ↔ ∃ x y, Follows ws x y ∧ i = rank ws.flatten x ∧ j = rank ws.flatten y := by
  have hr := records_ofSequences ws
  rw [hg.adj_iff, ← mem_edges]
  constructor
  · rintro ⟨hi, hj, hij⟩
    rw [hr.stateCount_eq] at hi hj
    obtain ⟨x, hx, rfl⟩ := exists_rank_eq hi
    obtain ⟨y, hy, rfl⟩ := exists_rank_eq hj
    exact ⟨x, y, (edge_iff_follows hx hy).1 hij, rfl, rfl⟩
  · rintro ⟨x, y, hxy, rfl, rfl⟩
    obtain ⟨hx, hy⟩ := hxy.mem_flatten
    refine ⟨hg.size_eq ▸ hg.rank_lt hr hx, hg.size_eq ▸ hg.rank_lt hr hy, ?_⟩
    exact (edge_iff_follows hx hy).2 hxy

end Automaton

end ChainGrammar

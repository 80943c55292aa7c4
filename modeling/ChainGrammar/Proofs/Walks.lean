import Mathlib.Data.List.Chain
import ChainGrammar.Proofs.Evidence

/-!
# Walks through an automaton

* `Automaton.IsWalk`: states along the edges of the automaton.
* `Automaton.spelled`: the symbols of states.
* `Automaton.exists_map_stateIn`: **a walk from the start to the finish** goes through states of
  symbols only.
* `Automaton.isWalk_tour`: **every sequence that was learned is a walk** from the start to the
  finish.
-/

namespace ChainGrammar.Automaton

variable {α : Type}

/-- Each state has an edge to the next one. -/
def IsWalk (a : Automaton α) (is : List Nat) : Prop := is.IsChain fun i j => (i, j) ∈ a.edges

instance (a : Automaton α) (is : List Nat) : Decidable (a.IsWalk is) :=
  inferInstanceAs (Decidable (is.IsChain fun i j => (i, j) ∈ a.edges))

/-- The symbols of some states, one after the other. Anchors have none. -/
def spelled (a : Automaton α) (is : List Nat) : List α :=
  is.filterMap fun i => do (← a.states[i]?).symbol

variable [DecidableEq α] {ws : List (List α)} {i j : Nat} {is : List Nat} {w : List α}

theorem Records.spelled_map {a : Automaton α} {seen : List α} {E : Nat → Nat → Prop}
    (hr : a.Records seen E) (hw : ∀ t ∈ w, t ∈ seen) :
    a.spelled (w.map (stateIn seen)) = w := by
  have hsymbol : ∀ t ∈ w, (a.states[stateIn seen t]?.bind State.symbol) = some t := by
    intro t ht
    have hstate := hr.symbol_eq_iff.2 ⟨hw t ht, rfl⟩
    obtain ⟨q, hq, hqt⟩ := Option.map_eq_some_iff.1 hstate
    rw [hq, Option.bind_some, hqt]
  rw [spelled, List.filterMap_map]
  calc w.filterMap _ = w.filterMap some := List.filterMap_congr hsymbol
    _ = w := List.filterMap_some

/-! ## Edges and tours -/

/-- An edge leaves the start or the state of a symbol. -/
theorem edge_source (h : (i, j) ∈ (ofSequences ws).edges) :
    i = start ∨ ∃ t ∈ ws.flatten, i = stateIn ws.flatten t := by
  rcases mem_edges_iff.1 h with ⟨t, u, htu, rfl, -⟩ | ⟨-, -, hi, -⟩ | ⟨t, ht, rfl, -⟩
  · exact .inr ⟨t, htu.mem_flatten.1, rfl⟩
  · exact .inl hi
  · exact .inr ⟨t, ht.mem_flatten, rfl⟩

/-- An edge enters the finish or the state of a symbol. -/
theorem edge_target (h : (i, j) ∈ (ofSequences ws).edges) :
    j = finish ∨ ∃ t ∈ ws.flatten, j = stateIn ws.flatten t := by
  rcases mem_edges_iff.1 h with ⟨t, u, htu, -, rfl⟩ | ⟨u, hu, -, rfl⟩ | ⟨-, -, -, hj⟩
  · exact .inr ⟨u, htu.mem_flatten.2, rfl⟩
  · exact .inr ⟨u, hu.mem_flatten, rfl⟩
  · exact .inl hj

/-- **A walk to the finish** goes through states of symbols only: no edge leaves the finish, and
none enters the start. -/
theorem exists_map_stateIn (h : (ofSequences ws).IsWalk (i :: is ++ [finish])) :
    ∃ w : List α, is = w.map (stateIn ws.flatten) ∧ ∀ t ∈ w, t ∈ ws.flatten := by
  induction is generalizing i with
  | nil => exact ⟨[], rfl, by simp⟩
  | cons j is ih =>
    obtain ⟨hij, hrest⟩ := List.isChain_cons_cons.1 h
    obtain ⟨w, rfl, hw⟩ := ih hrest
    -- an edge leaves `j`, so that it is not the finish
    obtain ⟨k, hjk⟩ : ∃ k, (j, k) ∈ (ofSequences ws).edges := by
      cases w with
      | nil => exact ⟨_, (List.isChain_cons_cons.1 hrest).1⟩
      | cons t w => exact ⟨_, (List.isChain_cons_cons.1 hrest).1⟩
    have hne : j ≠ finish := by
      rintro rfl
      rcases edge_source hjk with hstart | ⟨t, -, ht⟩
      · exact absurd hstart (by decide)
      · exact finish_ne_stateIn ht
    obtain ⟨t, ht, rfl⟩ := (edge_target hij).resolve_left hne
    exact ⟨t :: w, rfl, List.forall_mem_cons.2 ⟨ht, hw⟩⟩

/-- **Every sequence that was learned is a walk** from the start to the finish. -/
theorem isWalk_tour (hw : w ∈ ws) (hne : w ≠ []) :
    (ofSequences ws).IsWalk (tour ws.flatten w) := by
  refine List.isChain_iff_forall_rel_of_append_cons_cons.2 fun {i j l₁ l₂} hl => ?_
  refine mem_edges_ofSequences.2 ⟨w, hw, hne, l₁, l₂, ?_⟩
  rw [hl, List.append_assoc]
  rfl

end ChainGrammar.Automaton

import ChainGrammar.Proofs.Counters
import ChainGrammar.Proofs.Walks

/-!
# Well-formed automata

An edge is held by the state it leaves, by the state it enters and in the count of edges, and the
three move together: when the state it leaves has the edge already, the others are left as they are.
While a sequence is being learned, the state of its last symbol may have no way to the finish. The
last step of the tour gives it one, so that in the end every state of a symbol is on a walk from the
start to the finish.

* `Automaton.ofSequences_induct`: **what every change keeps** holds after learning.
* `Automaton.Mirrored`: both ends of every edge hold it; `Automaton.Mirrored.connect` is the case of
  an edge that is added.
* `Automaton.exists_walk_through`: **every symbol is on a walk** from the start to the finish.
* `Automaton.WellFormed`: the tables and the index fit together, and no state is idle.
* `Automaton.wellFormed_ofSequences`: **every automaton that has learned is well formed**.
-/

namespace ChainGrammar.Automaton

/-! ## Looking up -/

section Tables

variable {α : Type} {a b : Automaton α} {i j : Nat}

theorem mem_prev_iff : i ∈ a.prev j ↔ ∃ q, a.states[j]? = some q ∧ i ∈ q.predecessors := by
  unfold prev
  cases a.states[j]? <;> simp

/-- The states after a state are found if it is there. -/
theorem successorsAt_eq_ok {s : SortedSet Nat} :
    a.successorsAt i = .ok s ↔ i < a.states.size ∧ a.next i = s := by
  unfold successorsAt entry next
  cases hq : a.states[i]? with
  | none =>
    have hle := Array.getElem?_eq_none_iff.1 hq
    exact iff_of_false (nomatch ·) fun h => Nat.not_lt.2 hle h.1
  | some q => simp [(Array.getElem?_eq_some_iff.1 hq).1]

/-- The states before a state are found if it is there. -/
theorem predecessorsAt_eq_ok {p : SortedSet Nat} :
    a.predecessorsAt i = .ok p ↔ i < a.states.size ∧ a.prev i = p := by
  unfold predecessorsAt entry prev
  cases hq : a.states[i]? with
  | none =>
    have hle := Array.getElem?_eq_none_iff.1 hq
    exact iff_of_false (nomatch ·) fun h => Nat.not_lt.2 hle h.1
  | some q => simp [(Array.getElem?_eq_some_iff.1 hq).1]

/-- Both ends of every edge hold it. -/
def Mirrored (a : Automaton α) : Prop := ∀ i j, i ∈ a.prev j ↔ j ∈ a.next i

/-- Both ends of an edge are states. -/
theorem Mirrored.lt (h : a.Mirrored) (hij : j ∈ a.next i) :
    i < a.states.size ∧ j < a.states.size := by
  obtain ⟨q, hq, -⟩ := mem_next_iff.1 hij
  obtain ⟨r, hr, -⟩ := mem_prev_iff.1 ((h i j).2 hij)
  exact ⟨(Array.getElem?_eq_some_iff.1 hq).1, (Array.getElem?_eq_some_iff.1 hr).1⟩

/-! ## Changes -/

/-- A change of states that leaves their edges as they are. -/
theorem Mirrored.of_same (h : a.Mirrored) (hnext : ∀ v, b.next v = a.next v)
    (hprev : ∀ v, b.prev v = a.prev v) : b.Mirrored := by
  intro v w
  rw [hnext, hprev]
  exact h v w

theorem mirrored_empty : (empty : Automaton α).Mirrored := by
  intro i j
  have hnext : ∀ v, j ∉ (empty : Automaton α).next v := fun v => by
    match v with
    | 0 | 1 => simp [next, empty, State.fresh]
    | v + 2 => simp [next, empty]
  have hprev : ∀ v, i ∉ (empty : Automaton α).prev v := fun v => by
    match v with
    | 0 | 1 => simp [prev, empty, State.fresh]
    | v + 2 => simp [prev, empty]
  exact iff_of_false (hprev j) (hnext i)

theorem Mirrored.intern [DecidableEq α] (h : a.Mirrored) (s : α) : (a.intern s).1.Mirrored := by
  unfold Automaton.intern
  cases a.stateOf? s with
  | some i => exact h
  | none =>
    -- the new state has no edges yet
    refine h.of_same (fun v => ?_) fun v => ?_
    all_goals
      simp only [next, prev, extend, Array.getElem?_push]
      by_cases hv : v = a.states.size
      · subst hv
        simp [State.fresh]
      · rw [if_neg hv]

theorem Mirrored.count (h : a.Mirrored) (i : Nat) : (a.count i).Mirrored := by
  refine h.of_same (fun v => ?_) fun v => ?_
  all_goals
    simp only [next, prev, Automaton.count, Array.getElem?_modify]
    by_cases hv : i = v
    · subst hv
      cases hq : a.states[i]? <;> simp
    · rw [if_neg hv]

theorem Mirrored.mem_prev_connect (h : a.Mirrored) (hj : j < a.states.size) {v w : Nat} :
    v ∈ (a.connect i j).prev w ↔ v ∈ a.prev w ∨ v = i ∧ w = j := by
  unfold Automaton.connect
  cases hafter : (a.next i).insert? j with
  | none =>
    -- the edge is there already, and its other end holds it too
    have hij : i ∈ a.prev j := (h i j).2 (SortedSet.insert?_eq_none_iff.1 hafter)
    constructor
    · exact .inl
    · rintro (hvw | ⟨rfl, rfl⟩)
      · exact hvw
      · exact hij
  | some after =>
    -- the first change leaves the predecessors of all states as they are
    rw [mem_prev_iff, Array.getElem?_modify, Array.getElem?_modify]
    by_cases hw : j = w
    · subst hw
      have hq := Array.getElem?_eq_getElem hj
      by_cases hi : i = j <;> simp [hi, hq, mem_prev_iff, SortedSet.mem_insert, or_comm]
    · have hwj : w ≠ j := Ne.symm hw
      by_cases hi : i = w <;> simp [hi, hw, hwj, mem_prev_iff]

/-- **An edge is added at both ends**, if it is not there. -/
theorem Mirrored.connect (h : a.Mirrored) (hi : i < a.states.size) (hj : j < a.states.size) :
    (a.connect i j).Mirrored := by
  intro v w
  rw [h.mem_prev_connect hj, mem_next_connect hi, h v w]

end Tables

variable {α : Type} [DecidableEq α] {a : Automaton α} {ws : List (List α)} {seen : List α}
  {E : Nat → Nat → Prop} {i : Nat}

/-! ## What every change keeps -/

section Induct

variable {P : Automaton α → Prop} (hintern : ∀ a s, P a → P (a.intern s).1)
  (hcount : ∀ a i, i < a.states.size → P a → P (a.count i))
  (hconnect : ∀ a i j, i < a.states.size → j < a.states.size → P a → P (a.connect i j))
include hintern hcount hconnect

/-- A property that every change keeps, on the way along a sequence. -/
theorem Records.foldl_advance_induct (h : a.Records seen E) (hi : i < a.states.size) (ha : P a)
    (p : List α) : P (p.foldl Automaton.advance (a, i)).1 := by
  induction p generalizing a i seen E with
  | nil => exact ha
  | cons s p ih =>
    obtain ⟨hstate, hrecords⟩ := h.intern s
    obtain ⟨b, hb, hnext⟩ := h.advance hi s
    have hs : s ∈ seen ++ [s] := by simp
    have hlt := (hrecords.count (stateIn (seen ++ [s]) s)).stateIn_lt hs
    have hle := h.size_le (hrecords.count (stateIn (seen ++ [s]) s))
    have hP : P b := by
      have hcounted := hcount _ _ (hrecords.stateIn_lt hs) (hintern a s ha)
      have hconnected := hconnect _ i _ (by omega) hlt hcounted
      have hfst := congrArg Prod.fst hb
      simp only [Automaton.advance, hstate] at hfst
      rwa [hfst] at hconnected
    rw [List.foldl_cons, hb]
    exact ih hnext (hnext.stateIn_lt hs) hP

variable (hsequence : ∀ a n, P a → P { a with sequenceCount := n })
include hsequence

/-- A property that every change keeps is kept when a sequence is learned. -/
theorem Records.learn_induct (h : a.Records seen E) (ha : P a) (p : List α) : P (a.learn p) := by
  by_cases hp : p = []
  · subst hp
    exact ha
  obtain ⟨b, j, hb, hj, -, hrecords⟩ := h.foldl_advance h.start_lt p
  have hway := h.foldl_advance_induct hintern hcount hconnect h.start_lt ha p
  rw [hb] at hway
  rw [h.learn_of_foldl hp hb]
  exact hsequence _ _ (hconnect b j finish hj hrecords.finish_lt hway)

/-- **What every change keeps** holds of the automaton of any sequences, if it holds before the
first one. Changes are made to states of the table only. -/
theorem ofSequences_induct (hempty : P empty) (ws : List (List α)) : P (ofSequences ws) := by
  have hrun : ∀ (ws : List (List α)) (a : Automaton α) (seen : List α) (E : Nat → Nat → Prop),
      a.Records seen E → P a → P (ws.foldl Automaton.learn a) := by
    intro ws
    induction ws with
    | nil => exact fun a seen E _ ha => ha
    | cons p ws ih =>
      intro a seen E h ha
      exact ih _ _ _ (h.learn p) (h.learn_induct hintern hcount hconnect hsequence ha p)
  exact hrun ws empty [] _ records_empty hempty

end Induct

/-- **Both ends of every edge hold it**, whatever has been learned. -/
theorem mirrored_ofSequences (ws : List (List α)) : (ofSequences ws).Mirrored := by
  refine ofSequences_induct (fun a s h => h.intern s) (fun a i _ h => h.count i)
    (fun a i j hi hj h => h.connect hi hj) (fun a n h => ?_) mirrored_empty ws
  exact h.of_same (fun _ => rfl) fun _ => rfl

/-! ## Walks through a state -/

/-- **Every symbol is on a walk** from the start to the finish: that of a sequence in which it
occurs. -/
theorem exists_walk_through (hi : i ∈ (ofSequences ws).learned) :
    ∃ is js, (ofSequences ws).IsWalk (start :: is ++ i :: js ++ [finish]) := by
  have hr := records_ofSequences ws
  obtain ⟨x, hx, rfl⟩ := mem_learned.1 hi
  rw [hr.stateCount_eq] at hx
  obtain ⟨t, ht, rfl⟩ := exists_rank_eq hx
  obtain ⟨w, hw, htw⟩ := List.mem_flatten.1 ht
  obtain ⟨u, v, rfl⟩ := List.append_of_mem htw
  have hwalk := isWalk_tour hw (List.ne_nil_of_mem htw)
  have hstate : anchorCount + rank ws.flatten t = stateIn ws.flatten t := rfl
  refine ⟨u.map (stateIn ws.flatten), v.map (stateIn ws.flatten), ?_⟩
  rw [hstate]
  simpa only [tour, List.map_append, List.map_cons, List.cons_append, List.append_assoc] using hwalk

omit [DecidableEq α] in
/-- A state on the way of a walk has an edge into it and one out of it. -/
theorem IsWalk.exists_edges {is js : List Nat} (h : a.IsWalk (start :: is ++ i :: js ++ [finish])) :
    (∃ v, (v, i) ∈ a.edges) ∧ ∃ w, (i, w) ∈ a.edges := by
  unfold IsWalk at h
  rw [List.append_assoc, List.isChain_append] at h
  obtain ⟨-, hout, hinto⟩ := h
  constructor
  · have hlast := List.getLast?_eq_some_getLast (List.cons_ne_nil start is)
    exact ⟨_, hinto _ hlast i rfl⟩
  · cases js with
    | nil => exact ⟨_, (List.isChain_cons_cons.1 hout).1⟩
    | cons w js => exact ⟨w, (List.isChain_cons_cons.1 hout).1⟩

/-! ## Well-formedness -/

/-- The tables and the index of the automaton fit together, and every state of a symbol can be gone
through. -/
structure WellFormed (a : Automaton α) : Prop where
  /-- An edge is held by the state it leaves and by the state it enters. -/
  mirrored : ∀ i j, i < a.states.size → j < a.states.size → ∃ s p, a.successorsAt i = .ok s ∧
    a.predecessorsAt j = .ok p ∧ (j ∈ s ↔ i ∈ p) ∧ (j ∈ s ↔ (i, j) ∈ a.edges)
  /-- The edges are listed by the state they leave and then by the state they enter. -/
  increasing : a.edges.Pairwise fun e f => e.1 < f.1 ∨ e.1 = f.1 ∧ e.2 < f.2
  edgeCount_eq : a.edgeCount = a.edges.length
  /-- Nothing comes before the start. -/
  start_ok : a.predecessorsAt start = .ok .empty
  /-- Nothing comes after the finish. -/
  finish_ok : a.successorsAt finish = .ok .empty
  /-- A walk from the start to the finish takes a symbol at least. -/
  start_finish : (start, finish) ∉ a.edges
  /-- Only states are found in the tables and by their symbols. -/
  lt_of_mem_successors : ∀ i s, a.successorsAt i = .ok s → ∀ j ∈ s, j < a.states.size
  lt_of_mem_predecessors : ∀ i p, a.predecessorsAt i = .ok p → ∀ j ∈ p, j < a.states.size
  mem_learned_of_stateOf? : ∀ x i, a.stateOf? x = some i → i ∈ a.learned ∧ i < a.states.size
  /-- Every entry of the index gives a symbol and its state. -/
  mem_learned_of_mem_index : ∀ x i, (x, i) ∈ a.index →
    i ∈ a.learned ∧ i < a.states.size ∧ a.symbolAt i = .ok (some x)
  /-- Every state of a symbol is on a walk from the start to the finish. -/
  on_walk : ∀ i ∈ a.learned, ∃ is js, a.IsWalk (start :: is ++ i :: js ++ [finish])
  /-- Every state of a symbol has states before and after it. -/
  not_idle : ∀ i ∈ a.learned, ∃ s p, a.successorsAt i = .ok s ∧ a.predecessorsAt i = .ok p ∧
    (∃ j, j ∈ s) ∧ ∃ j, j ∈ p

theorem Records.lt_of_mem_learned (h : a.Records seen E) (hi : i ∈ a.learned) :
    i < a.states.size := by
  obtain ⟨x, hx, rfl⟩ := mem_learned.1 hi
  have hsize := h.size_eq
  rw [h.stateCount_eq] at hx
  omega

/-- The states of symbols are those that follow the anchors. -/
theorem Records.stateIn_mem_learned (h : a.Records seen E) {x : α} (hx : x ∈ seen) :
    stateIn seen x ∈ a.learned :=
  mem_learned.2 ⟨rank seen x, h.stateCount_eq ▸ rank_lt_iff.2 hx, rfl⟩

theorem prev_start (ws : List (List α)) : (ofSequences ws).prev start = .empty := by
  refine SortedSet.ext_mem fun i => iff_of_false (fun hi => ?_) (SortedSet.not_mem_empty i)
  -- an edge enters the finish or the state of a symbol
  have hedge := mem_edges.2 ((mirrored_ofSequences ws i start).1 hi)
  rcases edge_target hedge with hfinish | ⟨t, -, ht⟩
  · exact absurd hfinish (by decide)
  · exact start_ne_stateIn ht

theorem next_finish (ws : List (List α)) : (ofSequences ws).next finish = .empty := by
  refine SortedSet.ext_mem fun j => iff_of_false (fun hj => ?_) (SortedSet.not_mem_empty j)
  -- an edge leaves the start or the state of a symbol
  rcases edge_source (mem_edges.2 hj) with hstart | ⟨t, -, ht⟩
  · exact absurd hstart (by decide)
  · exact finish_ne_stateIn ht

theorem start_finish_notMem (ws : List (List α)) : (start, finish) ∉ (ofSequences ws).edges := by
  intro hedge
  rcases mem_edges_iff.1 hedge with ⟨x, -, -, hx, -⟩ | ⟨x, -, -, hx⟩ | ⟨x, -, hx, -⟩
  · exact start_ne_stateIn hx
  · exact finish_ne_stateIn hx
  · exact start_ne_stateIn hx

/-- **Every automaton that has learned is well formed**, whatever the sequences are. -/
theorem wellFormed_ofSequences (ws : List (List α)) : (ofSequences ws).WellFormed := by
  have hr := records_ofSequences ws
  have hm := mirrored_ofSequences ws
  constructor
  case mirrored =>
    intro i j hi hj
    exact ⟨_, _, successorsAt_eq_ok.2 ⟨hi, rfl⟩, predecessorsAt_eq_ok.2 ⟨hj, rfl⟩, (hm i j).symm,
      mem_edges.symm⟩
  case increasing => exact pairwise_edges _
  case edgeCount_eq => exact (counts_ofSequences ws).edgeCount_eq
  case start_ok => exact predecessorsAt_eq_ok.2 ⟨hr.start_lt, prev_start ws⟩
  case finish_ok => exact successorsAt_eq_ok.2 ⟨hr.finish_lt, next_finish ws⟩
  case start_finish => exact start_finish_notMem ws
  case lt_of_mem_successors =>
    intro i s hs j hj
    obtain ⟨-, rfl⟩ := successorsAt_eq_ok.1 hs
    exact (hm.lt hj).2
  case lt_of_mem_predecessors =>
    intro i p hp j hj
    obtain ⟨-, rfl⟩ := predecessorsAt_eq_ok.1 hp
    exact (hm.lt ((hm j i).1 hj)).1
  case mem_learned_of_stateOf? =>
    intro x i hi
    obtain ⟨hx, rfl⟩ := hr.stateOf?_eq_some.1 hi
    exact ⟨hr.stateIn_mem_learned hx, hr.stateIn_lt hx⟩
  case mem_learned_of_mem_index =>
    intro x i hi
    obtain ⟨hx, rfl⟩ := (hr.mem_index x i).1 hi
    exact ⟨hr.stateIn_mem_learned hx, hr.stateIn_lt hx, hr.symbolAt_eq.2 ⟨hx, rfl⟩⟩
  case on_walk => exact fun i hi => exists_walk_through hi
  case not_idle =>
    intro i hi
    have hlt := hr.lt_of_mem_learned hi
    obtain ⟨is, js, hwalk⟩ := exists_walk_through hi
    obtain ⟨⟨v, hv⟩, w, hw⟩ := hwalk.exists_edges
    exact ⟨_, _, successorsAt_eq_ok.2 ⟨hlt, rfl⟩, predecessorsAt_eq_ok.2 ⟨hlt, rfl⟩,
      ⟨w, mem_edges.1 hw⟩, v, (hm v i).2 (mem_edges.1 hv)⟩

end ChainGrammar.Automaton

import Mathlib.Data.List.Basic
import ChainGrammar.Automaton.Basic
import ChainGrammar.Proofs.FirstMet

/-!
# What an automaton has learned

The states follow the anchors in the order in which their symbols were met, and
their numbers never change. The index is kept beside them and has the same symbols
for the same numbers. Each sequence is a tour from the start through the
states of its symbols to the finish; the edges are the steps of the tours.

* `Automaton.stateIn`: the state of a symbol, by the symbols met.
* `Automaton.Records`: the automaton has the states of the symbols met and the given edges, and its
  index agrees with its states.
* `Automaton.Records.extend`: **a new state and its entry in the index** come together.
* `Automaton.records_foldl_advance`: what going along a sequence adds.
* `Automaton.records_ofSequences`: **the edges are the steps of the tours of the sequences**.
* `Automaton.Records.stateOf?_eq`, `Automaton.Records.symbolAt_eq`: states and symbols look each
  other up.
-/

namespace ChainGrammar.Automaton

variable {α : Type} [DecidableEq α] {a : Automaton α} {seen : List α} {E : Nat → Nat → Prop}
  {s : α} {i j v w : Nat}

/-- The state of a symbol when the symbols of the list have been met. -/
def stateIn (seen : List α) (s : α) : Nat := anchorCount + rank seen s

theorem stateIn_append {p : List α} (hs : s ∈ seen) : stateIn (seen ++ p) s = stateIn seen s := by
  rw [stateIn, rank_append hs, stateIn]

omit [DecidableEq α] in
theorem mem_next_iff : j ∈ a.next i ↔ ∃ q, a.states[i]? = some q ∧ j ∈ q.successors := by
  unfold next
  cases a.states[i]? <;> simp

/-- The state of a symbol is not an anchor. -/
theorem start_ne_stateIn : start ≠ stateIn seen s := by
  unfold start stateIn anchorCount
  omega

theorem finish_ne_stateIn : finish ≠ stateIn seen s := by
  unfold finish stateIn anchorCount
  omega

/-- The automaton has the anchors and the states of the symbols of the list, in the order in which
they are met there, and the given edges. The index has these symbols with these states. -/
structure Records (a : Automaton α) (seen : List α) (E : Nat → Nat → Prop) : Prop where
  symbols_eq : a.states.toList.map State.symbol = none :: none :: seen.eraseDups.map some
  mem_index : ∀ s i, (s, i) ∈ a.index ↔ s ∈ seen ∧ i = stateIn seen s
  mem_next : ∀ i j, j ∈ a.next i ↔ E i j

/-- The counters of an automaton do not matter. -/
theorem Records.of_states {b : Automaton α} (h : a.Records seen E) (hb : b.states = a.states)
    (hindex : b.index = a.index) : b.Records seen E where
  symbols_eq := by rw [hb, h.symbols_eq]
  mem_index s i := by rw [hindex, h.mem_index]
  mem_next v w := by rw [← h.mem_next, mem_next_iff, mem_next_iff, hb]

/-- The edges, put in other terms. -/
theorem Records.congr {F : Nat → Nat → Prop} (h : a.Records seen E) (hE : ∀ v w, E v w ↔ F v w) :
    a.Records seen F :=
  ⟨h.symbols_eq, h.mem_index, fun v w => (h.mem_next v w).trans (hE v w)⟩

/-! ## Looking up -/

theorem Records.size_eq (h : a.Records seen E) :
    a.states.size = anchorCount + seen.eraseDups.length := by
  have hlen := congrArg List.length h.symbols_eq
  simp only [List.length_map, Array.length_toList, List.length_cons] at hlen
  unfold anchorCount
  omega

theorem Records.start_lt (h : a.Records seen E) : start < a.states.size := by
  rw [h.size_eq]
  exact Nat.lt_of_lt_of_le (by decide) (Nat.le_add_right anchorCount _)

theorem Records.finish_lt (h : a.Records seen E) : finish < a.states.size := by
  rw [h.size_eq]
  exact Nat.lt_of_lt_of_le (by decide) (Nat.le_add_right anchorCount _)

theorem Records.stateCount_eq (h : a.Records seen E) : a.stateCount = seen.eraseDups.length := by
  rw [stateCount, h.size_eq, Nat.add_sub_cancel_left]

/-- There are no fewer states when more symbols have been met. -/
theorem Records.size_le {b : Automaton α} {F : Nat → Nat → Prop} {p : List α}
    (h : a.Records seen E) (h' : b.Records (seen ++ p) F) : a.states.size ≤ b.states.size := by
  rw [h.size_eq, h'.size_eq, List.eraseDups_append, List.length_append]
  omega

theorem Records.stateIn_lt (h : a.Records seen E) (hs : s ∈ seen) :
    stateIn seen s < a.states.size := by
  rw [h.size_eq, stateIn]
  exact Nat.add_lt_add_left (rank_lt_iff.2 hs) _

/-- The symbol of a state by its number. -/
theorem Records.getElem?_symbols (h : a.Records seen E) :
    a.states[i]?.map State.symbol = (none :: none :: seen.eraseDups.map some)[i]? := by
  rw [← h.symbols_eq, List.getElem?_map, Array.getElem?_toList]

/-- **A symbol that was met has one state.** -/
theorem Records.symbol_eq_iff (h : a.Records seen E) :
    a.states[i]?.map State.symbol = some (some s) ↔ s ∈ seen ∧ i = stateIn seen s := by
  rw [h.getElem?_symbols]
  have hge : 2 ≤ stateIn seen s := Nat.le_add_right ..
  match i with
  | 0 =>
    have hne : 0 ≠ stateIn seen s := by omega
    simp [hne]
  | 1 =>
    have hne : 1 ≠ stateIn seen s := by omega
    simp [hne]
  | r + 2 =>
    have hr : r + 2 = stateIn seen s ↔ r = rank seen s := by
      unfold stateIn anchorCount
      omega
    simp [hr, getElem?_eraseDups]

theorem Records.symbolAt_eq (h : a.Records seen E) :
    a.symbolAt i = .ok (some s) ↔ s ∈ seen ∧ i = stateIn seen s := by
  rw [← h.symbol_eq_iff, symbolAt, entry]
  cases a.states[i]? with
  | none => simp [Bind.bind, Except.bind]
  | some q => simp

/-- **The state of a symbol** is found in the index if the symbol was met. -/
theorem Records.stateOf?_eq (h : a.Records seen E) (s : α) :
    a.stateOf? s = if s ∈ seen then some (stateIn seen s) else none := by
  cases hfound : a.stateOf? s with
  | none =>
    have hs : s ∉ seen := fun hs => by
      simpa using List.lookup_eq_none_iff.1 hfound _ ((h.mem_index s _).2 ⟨hs, rfl⟩)
    rw [if_neg hs]
  | some i =>
    obtain ⟨later, earlier, hindex, -⟩ := List.lookup_eq_some_iff.1 hfound
    have hmem : (s, i) ∈ a.index := by simp [hindex]
    obtain ⟨hs, rfl⟩ := (h.mem_index s i).1 hmem
    rw [if_pos hs]

theorem Records.stateOf?_eq_some (h : a.Records seen E) :
    a.stateOf? s = some i ↔ s ∈ seen ∧ i = stateIn seen s := by
  have hcomm : stateIn seen s = i ↔ i = stateIn seen s := eq_comm
  rw [h.stateOf?_eq, Option.ite_none_right_eq_some, Option.some_inj, hcomm]

/-! ## Learning a symbol -/

theorem records_empty : (empty : Automaton α).Records [] fun _ _ => False where
  symbols_eq := rfl
  mem_index s i := by simp [empty]
  mem_next i j := by
    match i with
    | 0 | 1 => simp [next, empty, State.fresh]
    | i + 2 => simp [next, empty]

/-- A symbol that is met again has its state. -/
theorem Records.intern_of_mem (h : a.Records seen E) (hs : s ∈ seen) :
    a.intern s = (a, stateIn seen s) := by
  rw [Automaton.intern, h.stateOf?_eq, if_pos hs]

theorem Records.concat (h : a.Records seen E) (hs : s ∈ seen) : a.Records (seen ++ [s]) E where
  symbols_eq := by rw [eraseDups_concat, if_pos hs, h.symbols_eq]
  mem_index x i := by
    have hmem : x ∈ seen ++ [s] ↔ x ∈ seen := by
      rw [List.mem_append, List.mem_singleton, or_iff_left_of_imp fun hx => hx ▸ hs]
    rw [h.mem_index, hmem]
    exact and_congr_right fun hx => by rw [stateIn_append hx]
  mem_next := h.mem_next

/-- The state of a new symbol comes after the others. -/
theorem Records.size_eq_stateIn (h : a.Records seen E) (hs : s ∉ seen) :
    a.states.size = stateIn (seen ++ [s]) s := by
  have hout : s ∉ seen.eraseDups := by simpa using hs
  rw [stateIn, rank_concat_self, h.size_eq, List.idxOf_eq_length hout]

/-- **A new state and its entry in the index** come together. -/
theorem Records.extend (h : a.Records seen E) (hs : s ∉ seen) :
    (a.extend s).Records (seen ++ [s]) E := by
  refine ⟨?_, fun x i => ?_, fun i j => ?_⟩
  · rw [Automaton.extend, eraseDups_concat, if_neg hs, Array.toList_push, List.map_append,
      h.symbols_eq]
    simp [State.fresh]
  · rw [Automaton.extend, List.mem_cons, Prod.mk.injEq, h.size_eq_stateIn hs, h.mem_index,
      List.mem_append, List.mem_singleton]
    by_cases hx : x = s
    · subst hx
      simp [hs]
    · -- the other symbols keep their states
      have hold : x ∈ seen → stateIn (seen ++ [s]) x = stateIn seen x := stateIn_append
      simp +contextual [hx, hold]
  · rw [← h.mem_next, mem_next_iff, mem_next_iff, Automaton.extend, Array.getElem?_push]
    by_cases hi : i = a.states.size <;> simp [hi, State.fresh]

/-- **A state for a symbol**: the one it has, or a further one. -/
theorem Records.intern (h : a.Records seen E) (s : α) :
    (a.intern s).2 = stateIn (seen ++ [s]) s ∧ (a.intern s).1.Records (seen ++ [s]) E := by
  by_cases hs : s ∈ seen
  · rw [h.intern_of_mem hs, stateIn_append hs]
    exact ⟨rfl, h.concat hs⟩
  · rw [Automaton.intern, h.stateOf?_eq, if_neg hs]
    exact ⟨h.size_eq_stateIn hs, h.extend hs⟩

theorem Records.count (h : a.Records seen E) (i : Nat) : (a.count i).Records seen E := by
  refine ⟨?_, h.mem_index, fun v w => ?_⟩
  · rw [← h.symbols_eq]
    refine List.ext_getElem? fun v => ?_
    simp only [Automaton.count, List.getElem?_map, Array.getElem?_toList, Array.getElem?_modify]
    split <;> simp [Function.comp_def]
  · rw [← h.mem_next, mem_next_iff, mem_next_iff, Automaton.count, Array.getElem?_modify]
    by_cases hv : i = v <;> simp [hv]

omit [DecidableEq α] in
/-- **An edge that is added** is the only one that comes with it. -/
theorem mem_next_connect (hi : i < a.states.size) :
    w ∈ (a.connect i j).next v ↔ w ∈ a.next v ∨ v = i ∧ w = j := by
  unfold Automaton.connect
  cases hafter : (a.next i).insert? j with
  | none =>
    -- the edge is there already
    have hij : j ∈ a.next i := SortedSet.insert?_eq_none_iff.1 hafter
    constructor
    · exact .inl
    · rintro (hvw | ⟨rfl, rfl⟩)
      · exact hvw
      · exact hij
  | some after =>
    have hmem : ∀ w, w ∈ after ↔ w = j ∨ w ∈ a.next i := fun w => by
      rw [← SortedSet.mem_insert, SortedSet.insert, hafter, Option.getD_some]
    -- the second change leaves the successors of all states as they are
    rw [mem_next_iff, Array.getElem?_modify, Array.getElem?_modify]
    by_cases hv : i = v
    · subst hv
      by_cases hj : j = i <;> simp [hj, hi, hmem, or_comm]
    · have hvi : v ≠ i := Ne.symm hv
      by_cases hj : j = v <;> simp [hj, hv, hvi, mem_next_iff]

omit [DecidableEq α] in
theorem index_connect (a : Automaton α) (i j : Nat) : (a.connect i j).index = a.index := by
  unfold connect
  split <;> rfl

/-- **An edge** is added, if it is not there. -/
theorem Records.connect (h : a.Records seen E) (hi : i < a.states.size) (j : Nat) :
    (a.connect i j).Records seen fun v w => E v w ∨ v = i ∧ w = j := by
  refine ⟨?_, fun s k => by rw [index_connect, h.mem_index],
    fun v w => by rw [mem_next_connect hi, h.mem_next]⟩
  rw [← h.symbols_eq, Automaton.connect]
  cases (a.next i).insert? j with
  | none => rfl
  | some after =>
    refine List.ext_getElem? fun v => ?_
    simp only [List.getElem?_map, Array.getElem?_toList, Array.getElem?_modify]
    split <;> split <;> simp [Function.comp_def]

/-! ## Learning sequences -/

/-- The way of a sequence through the automaton. -/
def tour (seen p : List α) : List Nat := start :: p.map (stateIn seen) ++ [finish]

theorem tour_append {p q : List α} (hp : ∀ s ∈ p, s ∈ seen) : tour (seen ++ q) p = tour seen p := by
  have hmap : p.map (stateIn (seen ++ q)) = p.map (stateIn seen) :=
    List.map_congr_left fun s hs => stateIn_append (hp s hs)
  rw [tour, hmap, tour]

/-- A first step, or one of the others. -/
theorem pair_infix_cons {l : List Nat} :
    [v, w] <:+: i :: j :: l ↔ (v = i ∧ w = j) ∨ [v, w] <:+: j :: l := by
  rw [List.infix_cons_iff, List.cons_prefix_cons, List.cons_prefix_cons]
  simp

/-- A last step, or one of the others. -/
theorem pair_infix_concat {l : List Nat} {m : Nat} (hl : l.getLast? = some i) :
    [v, w] <:+: l ++ [m] ↔ [v, w] <:+: l ∨ v = i ∧ w = m := by
  obtain ⟨k, rfl⟩ := List.getLast?_eq_some_iff.1 hl
  have hlast : [v, w] <:+ k ++ [i] ++ [m] ↔ v = i ∧ w = m := by
    rw [← List.reverse_prefix]
    simp [and_comm]
  rw [List.infix_concat_iff, hlast, or_comm]

/-- **Going on to the state of a symbol** adds the edge to it. -/
theorem Records.advance (h : a.Records seen E) (hi : i < a.states.size) (s : α) :
    ∃ b, Automaton.advance (a, i) s = (b, stateIn (seen ++ [s]) s) ∧
      b.Records (seen ++ [s]) fun v w => E v w ∨ v = i ∧ w = stateIn (seen ++ [s]) s := by
  obtain ⟨hstate, hrecords⟩ := h.intern s
  have hcount := hrecords.count (stateIn (seen ++ [s]) s)
  have hlt := Nat.lt_of_lt_of_le hi (h.size_le hcount)
  refine ⟨_, ?_, hcount.connect hlt _⟩
  simp only [Automaton.advance, hstate]

/-- **Going along a sequence** adds the steps of the way. -/
theorem Records.foldl_advance (h : a.Records seen E) (hi : i < a.states.size) (p : List α) :
    ∃ b j, p.foldl Automaton.advance (a, i) = (b, j) ∧ j < b.states.size ∧
      (i :: p.map (stateIn (seen ++ p))).getLast? = some j ∧
      b.Records (seen ++ p) fun v w => E v w ∨ [v, w] <:+: i :: p.map (stateIn (seen ++ p)) := by
  induction p generalizing a i seen E with
  | nil =>
    have hnone : ∀ v w, ¬[v, w] <:+: [i] := fun v w hvw => by simpa using hvw.length_le
    rw [List.append_nil]
    exact ⟨a, i, rfl, hi, rfl, h.congr fun v w => (or_iff_left (hnone v w)).symm⟩
  | cons s p ih =>
    obtain ⟨b, hb, hrecords⟩ := h.advance hi s
    have hs : s ∈ seen ++ [s] := by simp
    obtain ⟨c, j, hc, hj, hlast, hc'⟩ := ih hrecords (hrecords.stateIn_lt hs)
    have happ : seen ++ [s] ++ p = seen ++ s :: p := by simp
    -- the state of `s` keeps its number while further symbols are met
    have hstate : stateIn (seen ++ [s]) s = stateIn (seen ++ s :: p) s := by
      rw [← happ, stateIn_append hs]
    rw [happ, hstate] at hlast hc'
    refine ⟨c, j, by rw [List.foldl_cons, hb, hc], hj, ?_, hc'.congr fun v w => ?_⟩
    · rwa [List.map_cons, List.getLast?_cons_cons]
    · rw [List.map_cons, pair_infix_cons, or_assoc]

/-- An empty sequence changes nothing. -/
@[simp] theorem learn_nil (a : Automaton α) : a.learn [] = a := rfl

/-- **Learning a sequence that is not empty** goes along it and then to the finish: the state of its
last symbol is not the start. -/
theorem Records.learn_of_foldl {b : Automaton α} {p : List α} (h : a.Records seen E) (hne : p ≠ [])
    (hp : p.foldl Automaton.advance (a, start) = (b, j)) :
    a.learn p = { b.connect j finish with sequenceCount := b.sequenceCount + 1 } := by
  obtain ⟨c, k, hk, -, hlast, -⟩ := h.foldl_advance h.start_lt p
  obtain ⟨-, rfl⟩ := Prod.mk.inj (hp.symm.trans hk)
  obtain ⟨s, hs⟩ := Option.ne_none_iff_exists'.1 (mt List.getLast?_eq_none_iff.1 hne)
  have hj : j = stateIn (seen ++ p) s := by
    rw [List.getLast?_cons, List.getLast?_map, hs] at hlast
    simpa using hlast.symm
  simp only [Automaton.learn, hp, if_neg (hj ▸ start_ne_stateIn.symm)]

/-- **A sequence that is learned** adds the steps of its tour. -/
theorem Records.learn (h : a.Records seen E) (p : List α) :
    (a.learn p).Records (seen ++ p) fun v w =>
      E v w ∨ p ≠ [] ∧ [v, w] <:+: tour (seen ++ p) p := by
  by_cases hp : p = []
  · subst hp
    rw [learn_nil, List.append_nil]
    exact h.congr fun v w => by simp
  obtain ⟨b, j, hb, hj, hlast, hrecords⟩ := h.foldl_advance h.start_lt p
  rw [h.learn_of_foldl hp hb]
  refine Records.congr ((hrecords.connect hj finish).of_states rfl rfl) fun v w => ?_
  -- the last step of the tour goes to the finish
  rw [tour, pair_infix_concat hlast, or_assoc, and_iff_right hp]

/-- Learning some sequences adds the steps of their tours. -/
theorem Records.foldl_learn (h : a.Records seen E) (ws : List (List α)) :
    (ws.foldl Automaton.learn a).Records (seen ++ ws.flatten) fun v w =>
      E v w ∨ ∃ p ∈ ws, p ≠ [] ∧ [v, w] <:+: tour (seen ++ ws.flatten) p := by
  induction ws generalizing a seen E with
  | nil =>
    rw [List.flatten_nil, List.append_nil]
    exact h.congr fun v w => by simp
  | cons p ws ih =>
    have hrest := ih (h.learn p)
    have happ : seen ++ p ++ ws.flatten = seen ++ (p :: ws).flatten := by simp
    -- the tour of `p` stays the same when the other sequences are learned
    have htour : tour (seen ++ (p :: ws).flatten) p = tour (seen ++ p) p := by
      rw [← happ, tour_append fun s hs => List.mem_append_right seen hs]
    rw [happ] at hrest
    refine hrest.congr fun v w => ?_
    rw [List.exists_mem_cons_iff, htour, or_assoc]

/-- **The automaton of some sequences** has the states of their symbols and the steps of their
tours. -/
theorem records_ofSequences (ws : List (List α)) :
    (ofSequences ws).Records ws.flatten fun v w =>
      ∃ p ∈ ws, p ≠ [] ∧ [v, w] <:+: tour ws.flatten p := by
  have hempty : (empty : Automaton α).Records [] fun _ _ => False := records_empty
  have hlearned := hempty.foldl_learn ws
  rw [List.nil_append] at hlearned
  exact hlearned.congr fun v w => by rw [false_or]

end ChainGrammar.Automaton

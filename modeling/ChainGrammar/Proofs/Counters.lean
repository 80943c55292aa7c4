import Mathlib.Data.List.Nodup
import ChainGrammar.Proofs.AutomatonGraph

/-!
# What an automaton counts

The counters of an automaton are kept beside its states and edges. They stay in step with them at
every change.

* `Automaton.pairwise_edges`: the edges are listed in increasing order, and so each of them once.
* `Automaton.Counts`: the counters give the number of edges, how often each symbol was met, and the
  number of sequences.
* `Automaton.Counts.learn`: a sequence that is learned keeps them in step.
* `Automaton.counts_ofSequences`: **the counters after learning some sequences**.
-/

namespace ChainGrammar.Automaton

section Edges

variable {α : Type} {a b : Automaton α} {i j : Nat}

/-- The edges are listed in increasing order, by the state they leave and then by the one they
enter. -/
theorem pairwise_edges (a : Automaton α) :
    a.edges.Pairwise fun e f => e.1 < f.1 ∨ e.1 = f.1 ∧ e.2 < f.2 :=
  pairwise_rows a.states.size a.next

theorem nodup_edges (a : Automaton α) : a.edges.Nodup := by
  refine a.pairwise_edges.imp fun {e f} hef he => ?_
  subst he
  omega

/-- Automata with the same edges list as many. -/
theorem length_edges_eq (h : ∀ v w, w ∈ b.next v ↔ w ∈ a.next v) :
    b.edges.length = a.edges.length := by
  have hperm : b.edges.Perm a.edges := by
    rw [List.perm_ext_iff_of_nodup b.nodup_edges a.nodup_edges]
    intro e
    rw [mem_edges, mem_edges, h]
  exact hperm.length_eq

/-- An edge that was not there is one more. -/
theorem length_edges_succ (hij : j ∉ a.next i)
    (h : ∀ v w, w ∈ b.next v ↔ w ∈ a.next v ∨ v = i ∧ w = j) :
    b.edges.length = a.edges.length + 1 := by
  have hnew : ((i, j) :: a.edges).Nodup :=
    List.nodup_cons.2 ⟨fun hmem => hij (mem_edges.1 hmem), a.nodup_edges⟩
  have hperm : b.edges.Perm ((i, j) :: a.edges) := by
    rw [List.perm_ext_iff_of_nodup b.nodup_edges hnew]
    rintro ⟨v, w⟩
    rw [mem_edges, h, List.mem_cons, mem_edges, Prod.mk.injEq, or_comm]
  rw [hperm.length_eq, List.length_cons]

end Edges

variable {α : Type} [DecidableEq α] {a : Automaton α} {seen : List α} {E : Nat → Nat → Prop}
  {n i j : Nat} {s : α}

/-- The counters give the number of edges, how often each symbol occurs in the list, and the number
of sequences. -/
structure Counts (a : Automaton α) (seen : List α) (n : Nat) : Prop where
  edgeCount_eq : a.edgeCount = a.edges.length
  occurrences_eq : ∀ (i : Nat) (q : State α), a.states[i]? = some q →
    q.occurrences = q.symbol.elim 0 (seen.count ·)
  sequenceCount_eq : a.sequenceCount = n

theorem counts_empty : (empty : Automaton α).Counts [] 0 where
  edgeCount_eq := rfl
  occurrences_eq i q hq := by
    match i with
    | 0 | 1 => simp_all [empty, State.fresh, eq_comm]
    | i + 2 => simp [empty] at hq
  sequenceCount_eq := rfl

/-- A new state has a symbol that has not occurred. -/
theorem Counts.intern (h : a.Counts seen n) (hr : a.Records seen E) (s : α) :
    (a.intern s).1.Counts seen n := by
  have hlen : (a.intern s).1.edges.length = a.edges.length :=
    length_edges_eq fun v w => ((hr.intern s).2.mem_next v w).trans (hr.mem_next v w).symm
  rw [Automaton.intern, hr.stateOf?_eq] at hlen ⊢
  by_cases hs : s ∈ seen
  · simpa only [if_pos hs] using h
  · simp only [if_neg hs] at hlen ⊢
    refine ⟨h.edgeCount_eq.trans hlen.symm, fun i q hq => ?_, h.sequenceCount_eq⟩
    rw [extend, Array.getElem?_push] at hq
    split at hq
    · obtain rfl := Option.some.inj hq
      exact (List.count_eq_zero.2 hs).symm
    · exact h.occurrences_eq i q hq

/-- Counting an occurrence of the symbol of a state. -/
theorem Counts.count (h : a.Counts seen n) (hr : a.Records (seen ++ [s]) E) :
    (a.count (stateIn (seen ++ [s]) s)).Counts (seen ++ [s]) n := by
  have hs : s ∈ seen ++ [s] := by simp
  have hlen : (a.count (stateIn (seen ++ [s]) s)).edges.length = a.edges.length :=
    length_edges_eq fun v w => ((hr.count _).mem_next v w).trans (hr.mem_next v w).symm
  refine ⟨h.edgeCount_eq.trans hlen.symm, fun i q hq => ?_, h.sequenceCount_eq⟩
  rw [Automaton.count, Array.getElem?_modify] at hq
  by_cases hi : stateIn (seen ++ [s]) s = i
  · -- the state of `s`
    rw [if_pos hi] at hq
    obtain ⟨q₀, hq₀, rfl⟩ := Option.map_eq_some_iff.1 hq
    have hsymbol := hr.symbol_eq_iff.2 ⟨hs, hi.symm⟩
    rw [hq₀, Option.map_some, Option.some_inj] at hsymbol
    have hocc := h.occurrences_eq i q₀ hq₀
    simp only [hsymbol, Option.elim_some] at hocc ⊢
    rw [hocc, List.count_append, List.count_singleton_self]
  · rw [if_neg hi] at hq
    rw [h.occurrences_eq i q hq]
    cases ht : q.symbol with
    | none => rfl
    | some t =>
      -- no other state has the symbol `s`
      have hts : s ≠ t := by
        rintro rfl
        exact hi (hr.symbol_eq_iff.1 (by rw [hq, Option.map_some, ht])).2.symm
      rw [Option.elim_some, Option.elim_some, List.count_append, List.count_singleton,
        if_neg (by simpa using hts), Nat.add_zero]

omit [DecidableEq α] in
/-- An edge leaves the symbols and their occurrences as they are. -/
theorem getElem?_connect (a : Automaton α) (i j v : Nat) :
    ((a.connect i j).states[v]?.map fun q => (q.symbol, q.occurrences)) =
      a.states[v]?.map fun q => (q.symbol, q.occurrences) := by
  unfold Automaton.connect
  cases (a.next i).insert? j with
  | none => rfl
  | some after =>
    simp only [Array.getElem?_modify]
    split <;> split <;> simp [Function.comp_def]

omit [DecidableEq α] in
theorem sequenceCount_connect (a : Automaton α) (i j : Nat) :
    (a.connect i j).sequenceCount = a.sequenceCount := by
  unfold connect
  split <;> rfl

theorem Counts.connect (h : a.Counts seen n) (hi : i < a.states.size) (j : Nat) :
    (a.connect i j).Counts seen n := by
  refine ⟨?_, fun v q hq => ?_, ?_⟩
  · cases hafter : (a.next i).insert? j with
    | none =>
      have heq : a.connect i j = a := by rw [Automaton.connect, hafter]
      rw [heq, h.edgeCount_eq]
    | some after =>
      have hcount : (a.connect i j).edgeCount = a.edgeCount + 1 := by
        simp only [Automaton.connect, hafter]
      have hij : j ∉ a.next i := by
        rw [← SortedSet.insert?_eq_none_iff, hafter]
        exact Option.some_ne_none after
      rw [hcount, h.edgeCount_eq, length_edges_succ hij fun v w => mem_next_connect hi]
  · have hsame := a.getElem?_connect i j v
    rw [hq, Option.map_some, eq_comm, Option.map_eq_some_iff] at hsame
    obtain ⟨q₀, hq₀, heq⟩ := hsame
    obtain ⟨hsymbol, hocc⟩ := Prod.mk.inj heq
    rw [← hocc, ← hsymbol, h.occurrences_eq v q₀ hq₀]
  · rw [sequenceCount_connect, h.sequenceCount_eq]

/-! ## Sequences -/

/-- Going on to the state of a symbol counts an occurrence of it. -/
theorem Counts.advance (h : a.Counts seen n) (hr : a.Records seen E) (hi : i < a.states.size)
    (s : α) : (Automaton.advance (a, i) s).1.Counts (seen ++ [s]) n := by
  obtain ⟨hstate, hintern⟩ := hr.intern s
  have hcount := (h.intern hr s).count hintern
  have hrecords := hintern.count (stateIn (seen ++ [s]) s)
  have hlt := Nat.lt_of_lt_of_le hi (hr.size_le hrecords)
  simpa only [Automaton.advance, hstate] using hcount.connect hlt _

/-- Going along a sequence counts its symbols. -/
theorem Counts.foldl_advance (h : a.Counts seen n) (hr : a.Records seen E)
    (hi : i < a.states.size) (p : List α) :
    (p.foldl Automaton.advance (a, i)).1.Counts (seen ++ p) n := by
  induction p generalizing a i seen E with
  | nil => simpa using h
  | cons s p ih =>
    obtain ⟨b, hb, hrecords⟩ := hr.advance hi s
    have hcounts := h.advance hr hi s
    rw [hb] at hcounts
    have hlt : stateIn (seen ++ [s]) s < b.states.size := hrecords.stateIn_lt (by simp)
    have happ : seen ++ s :: p = seen ++ [s] ++ p := by simp
    rw [List.foldl_cons, hb, happ]
    exact ih hcounts hrecords hlt

/-- **A sequence that is learned** keeps the counters in step. An empty one is not counted. -/
theorem Counts.learn (h : a.Counts seen n) (hr : a.Records seen E) (p : List α) :
    (a.learn p).Counts (seen ++ p) (n + if p = [] then 0 else 1) := by
  by_cases hp : p = []
  · subst hp
    simpa using h
  obtain ⟨b, j, hb, hj, -, hrecords⟩ := hr.foldl_advance hr.start_lt p
  have hcounts := h.foldl_advance hr hr.start_lt p
  rw [hb] at hcounts
  obtain ⟨hedges, hocc, -⟩ := hcounts.connect hj finish
  rw [hr.learn_of_foldl hp hb, if_neg hp]
  exact ⟨hedges, hocc, by rw [hcounts.sequenceCount_eq]⟩

theorem Counts.foldl_learn (h : a.Counts seen n) (hr : a.Records seen E) (ws : List (List α)) :
    (ws.foldl Automaton.learn a).Counts (seen ++ ws.flatten) (n + ws.countP (· ≠ [])) := by
  induction ws generalizing a seen n E with
  | nil => simpa using h
  | cons p ws ih =>
    have hcounts := ih (h.learn hr p) (hr.learn p)
    rw [List.append_assoc, ← List.flatten_cons, Nat.add_assoc] at hcounts
    have hone : (if p = [] then 0 else 1) + ws.countP (· ≠ []) =
        (p :: ws).countP (· ≠ []) := by
      rw [List.countP_cons, Nat.add_comm]
      by_cases hp : p = [] <;> simp [hp]
    rwa [hone] at hcounts

/-- **The counters after learning some sequences.** -/
theorem counts_ofSequences (ws : List (List α)) :
    (ofSequences ws).Counts ws.flatten (ws.countP (· ≠ [])) := by
  have hcounts := (counts_empty (α := α)).foldl_learn records_empty ws
  rwa [List.nil_append, Nat.zero_add] at hcounts

/-- **The occurrences of a symbol** are those in the sequences. -/
theorem Counts.occurrencesAt_eq (h : a.Counts seen n) (hr : a.Records seen E) (hs : s ∈ seen) :
    a.occurrencesAt (stateIn seen s) = .ok (seen.count s) := by
  have hstate := hr.symbol_eq_iff.2 ⟨hs, rfl⟩
  obtain ⟨q, hq, hsymbol⟩ := Option.map_eq_some_iff.1 hstate
  have hocc := h.occurrences_eq _ q hq
  rw [hsymbol, Option.elim_some] at hocc
  rw [occurrencesAt, entry_eq_ok hq, ok_bind, hocc, pure_eq_ok]

end ChainGrammar.Automaton

import Mathlib.Data.Set.Basic
import ChainGrammar.Proofs.ChainSteps
import ChainGrammar.Proofs.Counters
import ChainGrammar.Proofs.Interchange

/-!
# The order of learning

What two lists with the same sequences teach is the same, up to the numbers of states, nodes,
components and slots.

* `Label`, `Automaton.labelledEdges`: the edges, with what their ends stand for.
* `Automaton.slotSets`: the slots as sets of symbols.
* `Automaton.mem_labelledEdges`, `Automaton.slotSets_eq`: both in terms of what the sequences show.
* `Automaton.learning_order`: **the order of learning does not matter**, nor do repeated and empty
  sequences.
-/

namespace ChainGrammar

/-- What a state stands for. -/
inductive Label (α : Type) where
  | start
  | symbol (s : α)
  | finish
deriving DecidableEq

namespace Automaton

variable {α : Type}

/-- What a state stands for, none beyond the last state. -/
def labelOf (a : Automaton α) (i : Nat) : Option (Label α) :=
  if i = start then some .start
  else if i = finish then some .finish
  else (a.states[i]?.bind State.symbol).map .symbol

/-- The edges, with what their ends stand for. -/
def labelledEdges (a : Automaton α) : List (Option (Label α) × Option (Label α)) :=
  a.edges.map fun e => (a.labelOf e.1, a.labelOf e.2)

/-- The slots as sets of symbols. -/
def slotSets (a : Automaton α) (s : Partition) : Set (Set α) :=
  {A | ∃ b < s.count, A = {t | ∃ x ∈ s.members b, a.symbolOfNode x = .ok t}}

/-! ## Labels -/

theorem labelOf_start (a : Automaton α) : a.labelOf start = some .start := rfl

theorem labelOf_finish (a : Automaton α) : a.labelOf finish = some .finish := rfl

variable [DecidableEq α] {a : Automaton α} {seen : List α} {E : Nat → Nat → Prop}
  {ws vs : List (List α)} {x : α} {i j : Nat}

theorem Records.labelOf_stateIn (h : a.Records seen E) (hx : x ∈ seen) :
    a.labelOf (stateIn seen x) = some (.symbol x) := by
  have hstate := h.symbol_eq_iff.2 ⟨hx, rfl⟩
  obtain ⟨q, hq, hsymbol⟩ := Option.map_eq_some_iff.1 hstate
  rw [labelOf, if_neg (Ne.symm start_ne_stateIn), if_neg (Ne.symm finish_ne_stateIn), hq,
    Option.bind_some, hsymbol, Option.map_some]

/-- What the sequences show about two ends of an edge. -/
def Shows (ws : List (List α)) (l m : Label α) : Prop :=
  (∃ x y, Follows ws x y ∧ l = .symbol x ∧ m = .symbol y) ∨
    (∃ x, Opens ws x ∧ l = .start ∧ m = .symbol x) ∨
      ∃ x, Closes ws x ∧ l = .symbol x ∧ m = .finish

/-- The state that a label stands for. -/
def stateOf (seen : List α) : Label α → Nat
  | .start => start
  | .symbol x => stateIn seen x
  | .finish => finish

/-- An edge has the labels of its ends. -/
theorem edge_iff_shows : (i, j) ∈ (ofSequences ws).edges ↔
    ∃ l m, Shows ws l m ∧ i = stateOf ws.flatten l ∧ j = stateOf ws.flatten m := by
  rw [mem_edges_iff]
  constructor
  · rintro (⟨x, y, hxy, hi, hj⟩ | ⟨x, hx, hi, hj⟩ | ⟨x, hx, hi, hj⟩)
    · exact ⟨_, _, .inl ⟨x, y, hxy, rfl, rfl⟩, hi, hj⟩
    · exact ⟨_, _, .inr (.inl ⟨x, hx, rfl, rfl⟩), hi, hj⟩
    · exact ⟨_, _, .inr (.inr ⟨x, hx, rfl, rfl⟩), hi, hj⟩
  · rintro ⟨_, _, ⟨x, y, hxy, rfl, rfl⟩ | ⟨x, hx, rfl, rfl⟩ | ⟨x, hx, rfl, rfl⟩, hi, hj⟩
    · exact .inl ⟨x, y, hxy, hi, hj⟩
    · exact .inr (.inl ⟨x, hx, hi, hj⟩)
    · exact .inr (.inr ⟨x, hx, hi, hj⟩)

/-- The labels of the ends of an edge are those of their states. -/
theorem Shows.labelOf_eq {l m : Label α} (h : Shows ws l m) :
    (ofSequences ws).labelOf (stateOf ws.flatten l) = some l ∧
      (ofSequences ws).labelOf (stateOf ws.flatten m) = some m := by
  have hsymbol : ∀ x ∈ ws.flatten,
      (ofSequences ws).labelOf (stateOf ws.flatten (.symbol x)) = some (.symbol x) :=
    fun x hx => (records_ofSequences ws).labelOf_stateIn hx
  rcases h with ⟨x, y, hxy, rfl, rfl⟩ | ⟨x, hx, rfl, rfl⟩ | ⟨x, hx, rfl, rfl⟩
  · exact ⟨hsymbol x hxy.mem_flatten.1, hsymbol y hxy.mem_flatten.2⟩
  · exact ⟨labelOf_start _, hsymbol x hx.mem_flatten⟩
  · exact ⟨hsymbol x hx.mem_flatten, labelOf_finish _⟩

/-- **The edges by their labels** are what the sequences show. -/
theorem mem_labelledEdges {e : Option (Label α) × Option (Label α)} :
    e ∈ (ofSequences ws).labelledEdges ↔ ∃ l m, Shows ws l m ∧ e = (some l, some m) := by
  rw [labelledEdges, List.mem_map]
  constructor
  · rintro ⟨⟨i, j⟩, hij, rfl⟩
    obtain ⟨l, m, hlm, rfl, rfl⟩ := edge_iff_shows.1 hij
    exact ⟨l, m, hlm, by rw [hlm.labelOf_eq.1, hlm.labelOf_eq.2]⟩
  · rintro ⟨l, m, hlm, rfl⟩
    refine ⟨_, edge_iff_shows.2 ⟨l, m, hlm, rfl, rfl⟩, ?_⟩
    rw [hlm.labelOf_eq.1, hlm.labelOf_eq.2]

/-- No two edges have the same labels. -/
theorem nodup_labelledEdges (ws : List (List α)) : (ofSequences ws).labelledEdges.Nodup := by
  refine List.Nodup.map_on ?_ (nodup_edges _)
  rintro ⟨i, j⟩ hij ⟨v, w⟩ hvw heq
  obtain ⟨l, m, hlm, rfl, rfl⟩ := edge_iff_shows.1 hij
  obtain ⟨l', m', hlm', rfl, rfl⟩ := edge_iff_shows.1 hvw
  simp only [hlm.labelOf_eq, hlm'.labelOf_eq, Prod.mk.injEq, Option.some_inj] at heq
  rw [heq.1, heq.2]

/-! ## Slots -/

section Slots

variable {g q : Graph} {c s : Partition} (hg : (ofSequences ws).IsGraph g) (hc : g.IsComponents c)
  (hq : g.IsQuotient c q) (hs : g.IsSlots c q s)
include hg hc hq hs

/-- The slot of a symbol has the symbols that are interchangeable with it. -/
theorem symbols_slot_eq (hx : x ∈ ws.flatten) :
    {t | ∃ v ∈ s.members (s.number (rank ws.flatten x)), (ofSequences ws).symbolOfNode v = .ok t} =
      {t | t ∈ ws.flatten ∧ Interchangeable (Follows ws) t x} := by
  have hr := records_ofSequences ws
  ext t
  simp only [Set.mem_ofPred_eq, Partition.mem_members, hr.symbolOfNode_eq]
  constructor
  · rintro ⟨_, ⟨-, hnumber⟩, ht, rfl⟩
    exact ⟨ht, (number_rank_eq_iff hg hc hq hs ht hx).1 hnumber⟩
  · rintro ⟨ht, htx⟩
    have hlt : rank ws.flatten t < s.size := hs.size_eq ▸ hg.rank_lt hr ht
    exact ⟨_, ⟨hlt, (number_rank_eq_iff hg hc hq hs ht hx).2 htx⟩, ht, rfl⟩

/-- **The slots as sets of symbols** are the classes of interchangeable symbols. -/
theorem slotSets_eq : (ofSequences ws).slotSets s =
    {A | ∃ x ∈ ws.flatten, A = {t | t ∈ ws.flatten ∧ Interchangeable (Follows ws) t x}} := by
  have hr := records_ofSequences ws
  ext A
  constructor
  · -- every slot has a node, and that node a symbol
    rintro ⟨b, hb, rfl⟩
    obtain ⟨v, hv, rfl⟩ := hs.dense.exists_number hb
    rw [hs.size_eq, hg.size_eq, hr.stateCount_eq] at hv
    obtain ⟨x, hx, rfl⟩ := exists_rank_eq hv
    exact ⟨x, hx, symbols_slot_eq hg hc hq hs hx⟩
  · rintro ⟨x, hx, rfl⟩
    have hlt : s.number (rank ws.flatten x) < s.count := hs.number_lt (hg.rank_lt hr hx)
    exact ⟨_, hlt, (symbols_slot_eq hg hc hq hs hx).symm⟩

end Slots

/-! ## The same sequences -/

section SameSequences

variable (h : ∀ p, p ≠ [] → (p ∈ ws ↔ p ∈ vs))
include h

omit [DecidableEq α] in
/-- What some sequence that is not empty has, some sequence of the other list has. -/
theorem exists_mem_congr {P : List α → Prop} (hP : ∀ p, P p → p ≠ []) :
    (∃ p ∈ ws, P p) ↔ ∃ p ∈ vs, P p := by
  refine exists_congr fun p => and_congr_left fun hp => h p (hP p hp)

omit [DecidableEq α] in
theorem mem_flatten_congr : x ∈ ws.flatten ↔ x ∈ vs.flatten := by
  rw [List.mem_flatten, List.mem_flatten]
  exact exists_mem_congr h fun p hx => List.ne_nil_of_mem hx

omit [DecidableEq α] in
theorem follows_congr : Follows ws = Follows vs := by
  funext x y
  exact propext (exists_mem_congr h fun p hxy => List.ne_nil_of_mem (hxy.subset List.mem_cons_self))

omit [DecidableEq α] in
theorem opens_congr : Opens ws = Opens vs := by
  funext x
  exact propext (exists_mem_congr h fun p hx => List.ne_nil_of_mem (List.mem_of_mem_head? hx))

omit [DecidableEq α] in
theorem closes_congr : Closes ws = Closes vs := by
  funext x
  exact propext (exists_mem_congr h fun p hx => List.ne_nil_of_mem (List.mem_of_getLast? hx))

theorem labelledEdges_perm :
    (ofSequences ws).labelledEdges.Perm (ofSequences vs).labelledEdges := by
  rw [List.perm_ext_iff_of_nodup (nodup_labelledEdges ws) (nodup_labelledEdges vs)]
  intro e
  simp only [mem_labelledEdges, Shows, follows_congr h, opens_congr h, closes_congr h]

theorem stateCount_congr : (ofSequences ws).stateCount = (ofSequences vs).stateCount := by
  have hperm : ws.flatten.eraseDups.Perm vs.flatten.eraseDups := by
    rw [List.perm_ext_iff_of_nodup (nodup_eraseDups _) (nodup_eraseDups _)]
    intro x
    rw [List.mem_eraseDups, List.mem_eraseDups, mem_flatten_congr h]
  rw [(records_ofSequences ws).stateCount_eq, (records_ofSequences vs).stateCount_eq,
    hperm.length_eq]

theorem edgeCount_congr : (ofSequences ws).edgeCount = (ofSequences vs).edgeCount := by
  have hlen := (labelledEdges_perm h).length_eq
  rw [labelledEdges, labelledEdges, List.length_map, List.length_map] at hlen
  rw [(counts_ofSequences ws).edgeCount_eq, (counts_ofSequences vs).edgeCount_eq, hlen]

end SameSequences

/-- A list in another order has as many sequences, with as many occurrences of each symbol. -/
theorem counts_congr (h : ws.Perm vs) :
    (ofSequences ws).sequenceCount = (ofSequences vs).sequenceCount ∧
      ∀ x i j, (ofSequences ws).stateOf? x = some i → (ofSequences vs).stateOf? x = some j →
        ∃ n, (ofSequences ws).occurrencesAt i = .ok n ∧
          (ofSequences vs).occurrencesAt j = .ok n := by
  have hr := records_ofSequences ws
  have hr' := records_ofSequences vs
  have hc := counts_ofSequences ws
  have hc' := counts_ofSequences vs
  refine ⟨?_, fun x i j hi hj => ?_⟩
  · rw [hc.sequenceCount_eq, hc'.sequenceCount_eq, h.countP_eq]
  · obtain ⟨hx, rfl⟩ := hr.stateOf?_eq_some.1 hi
    obtain ⟨hx', rfl⟩ := hr'.stateOf?_eq_some.1 hj
    refine ⟨_, hc.occurrencesAt_eq hr hx, ?_⟩
    rw [hc'.occurrencesAt_eq hr' hx', h.flatten.count_eq]

/-- **The order of learning does not matter**, nor do repeated and empty sequences: the symbols
learned, the edges between them, the numbers of states and edges and the slots are the same. If the
sequences are the same up to their order, so are their number and the occurrences of each symbol. -/
theorem learning_order (ws vs : List (List α)) (h : ∀ p, p ≠ [] → (p ∈ ws ↔ p ∈ vs))
    (hws : ws.flatten.length < 2 ^ 63) (hvs : vs.flatten.length < 2 ^ 63) :
    (∀ x, (ofSequences ws).stateOf? x = none ↔ (ofSequences vs).stateOf? x = none) ∧
      (ofSequences ws).labelledEdges.Perm (ofSequences vs).labelledEdges ∧
      (ofSequences ws).stateCount = (ofSequences vs).stateCount ∧
      (ofSequences ws).edgeCount = (ofSequences vs).edgeCount ∧
      (∃ g s g' s', (ofSequences ws).graph = .ok g ∧ g.slots = .ok s ∧
        (ofSequences vs).graph = .ok g' ∧ g'.slots = .ok s' ∧
        (ofSequences ws).slotSets s = (ofSequences vs).slotSets s') ∧
      (ws.Perm vs → (ofSequences ws).sequenceCount = (ofSequences vs).sequenceCount ∧
        ∀ x i j, (ofSequences ws).stateOf? x = some i → (ofSequences vs).stateOf? x = some j →
          ∃ n, (ofSequences ws).occurrencesAt i = .ok n ∧
            (ofSequences vs).occurrencesAt j = .ok n) := by
  obtain ⟨g, c, q, s, _, _, _, _, hsteps⟩ := chainSteps_of_length hws
  obtain ⟨g', c', q', s', _, _, _, _, hsteps'⟩ := chainSteps_of_length hvs
  have hslots : (ofSequences ws).slotSets s = (ofSequences vs).slotSets s' := by
    rw [slotSets_eq hsteps.isGraph hsteps.isComponents hsteps.isQuotient hsteps.isSlots,
      slotSets_eq hsteps'.isGraph hsteps'.isComponents hsteps'.isQuotient hsteps'.isSlots,
      follows_congr h]
    simp only [mem_flatten_congr h]
  refine ⟨fun x => ?_, labelledEdges_perm h, stateCount_congr h, edgeCount_congr h,
    ⟨g, s, g', s', hsteps.graph_eq, hsteps.slots_eq, hsteps'.graph_eq, hsteps'.slots_eq, hslots⟩,
    counts_congr⟩
  rw [(records_ofSequences ws).stateOf?_eq, (records_ofSequences vs).stateOf?_eq]
  simp only [mem_flatten_congr h, ite_eq_right_iff, reduceCtorEq]

/-- Three sequences and the same ones in the opposite order, one of them empty. -/
theorem learning_order_reversed :
    (∀ p, p ≠ [] → (p ∈ [[1, 2], [3, 2], []] ↔ p ∈ [[], [3, 2], [1, 2]])) ∧
      [[1, 2], [3, 2], []].flatten.length < 2 ^ 63 ∧ [[], [3, 2], [1, 2]].flatten.length < 2 ^ 63 ∧
      [[1, 2], [3, 2], []].Perm [[], [3, 2], [1, 2]] ∧
      (ofSequences [[1, 2], [3, 2], []]).labelledEdges.Perm
        (ofSequences [[], [3, 2], [1, 2]]).labelledEdges ∧
      (ofSequences [[1, 2], [3, 2], []]).sequenceCount =
        (ofSequences [[], [3, 2], [1, 2]]).sequenceCount := by
  have hperm : [[1, 2], [3, 2], []].Perm [[], [3, 2], [1, 2]] := by decide
  have hsame : ∀ p, p ≠ [] → (p ∈ [[1, 2], [3, 2], []] ↔ p ∈ [[], [3, 2], [1, 2]]) :=
    fun p _ => hperm.mem_iff
  have hlen : [[1, 2], [3, 2], []].flatten.length < 2 ^ 63 := by decide
  have hlen' : [[], [3, 2], [1, 2]].flatten.length < 2 ^ 63 := by decide
  obtain ⟨-, hedges, -, -, -, hcounts⟩ := learning_order _ _ hsame hlen hlen'
  exact ⟨hsame, hlen, hlen', hperm, hedges, (hcounts hperm).1⟩

end Automaton

end ChainGrammar

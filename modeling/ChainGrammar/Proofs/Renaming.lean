import Mathlib.Logic.Equiv.Basic
import ChainGrammar.Proofs.Learning
import ChainGrammar.Chain
import ChainGrammar.Symbol

/-!
# Renaming symbols

Learning and converting compare symbols for equality and for nothing else. A one-to-one change of
the symbols of the sequences changes the symbols of the states and of the expression, and leaves
everything that is numbered or counted as it is.

* `Expr.map`, `Automaton.map`: the expression and the automaton with their symbols changed.
* `Automaton.relabel`: the automaton with its states changed but for their edges, and its index;
  `Automaton.connect_relabel` says that edges do not see the change.
* `Automaton.stateOf?_map`: the index gives a renamed symbol the state of the symbol.
* `Automaton.ofSequences_map`: **learning commutes with renaming**.
* `Automaton.chain_eq_map`: the expression depends on the graph and on the symbols of its nodes.
* `Automaton.renaming_commutes`: **the whole way from sequences to the expression commutes with
  renaming**.
-/

namespace ChainGrammar

variable {α β : Type} {f : α → β}

/-! ## Expressions -/

namespace Expr

/-- The expression with its symbols changed. -/
def map (f : α → β) : Expr α → Expr β :=
  fold ⟨fun s => .symbol (f s), .sequence, .choice, .optional, .repeated⟩

theorem map_sequence (es : List (Expr α)) : (sequence es).map f = .sequence (es.map (map f)) :=
  congrArg Expr.sequence (foldAll_eq_map ..)

theorem map_choice (es : List (Expr α)) : (choice es).map f = .choice (es.map (map f)) :=
  congrArg Expr.choice (foldAll_eq_map ..)

theorem map_id (e : Expr α) : e.map id = e := by
  induction e using Expr.induct with
  | symbol s => rfl
  | sequence es ih => rw [map_sequence, List.map_congr_left ih, List.map_id']
  | choice es ih => rw [map_choice, List.map_congr_left ih, List.map_id']
  | optional e ih => exact congrArg Expr.optional ih
  | repeated e ih => exact congrArg Expr.repeated ih

end Expr

/-! ## Automata -/

/-- The state with its symbol changed. -/
def State.map (f : α → β) (q : State α) : State β :=
  ⟨q.symbol.map f, q.predecessors, q.successors, q.occurrences⟩

namespace Automaton

variable {a : Automaton α} {b : Automaton β} {i j : Nat} {s : α}

/-- The automaton with the symbols of its states and of its index changed. -/
def map (f : α → β) (a : Automaton α) : Automaton β :=
  ⟨a.states.map (State.map f), a.index.map (Prod.map f id), a.edgeCount, a.sequenceCount⟩

section Relabel

variable {k : Option α → Nat → Option β × Nat} {l : List (β × Nat)}

/-- The automaton with its states changed one by one, their edges left as they are, and another
index. -/
def relabel (k : Option α → Nat → Option β × Nat) (l : List (β × Nat)) (a : Automaton α) :
    Automaton β :=
  { a with
    states := a.states.map fun q =>
      ⟨(k q.symbol q.occurrences).1, q.predecessors, q.successors, (k q.symbol q.occurrences).2⟩
    index := l }

theorem size_relabel (a : Automaton α) : (a.relabel k l).states.size = a.states.size :=
  Array.size_map

theorem next_relabel (a : Automaton α) (i : Nat) : (a.relabel k l).next i = a.next i := by
  unfold next relabel
  rw [Array.getElem?_map]
  cases a.states[i]? <;> rfl

theorem edges_relabel (a : Automaton α) : (a.relabel k l).edges = a.edges := by
  simp only [edges, size_relabel, next_relabel]

/-- **An edge** is the same whatever the states at its ends are called. -/
theorem connect_relabel (a : Automaton α) (i j : Nat) :
    (a.relabel k l).connect i j = (a.connect i j).relabel k l := by
  unfold connect
  rw [next_relabel]
  cases (a.next i).insert? j with
  | none => rfl
  | some after =>
    simp only [relabel, mk.injEq, and_true]
    refine Array.ext_getElem? fun v => ?_
    simp only [Array.getElem?_modify, Array.getElem?_map]
    split <;> split <;> simp [Function.comp_def]

end Relabel

theorem map_eq_relabel (a : Automaton α) :
    a.map f = a.relabel (fun s n => (s.map f, n)) (a.index.map (Prod.map f id)) := rfl

theorem size_map (a : Automaton α) : (a.map f).states.size = a.states.size := Array.size_map

theorem edges_map (a : Automaton α) : (a.map f).edges = a.edges := by
  rw [map_eq_relabel, edges_relabel]

theorem connect_map (a : Automaton α) (i j : Nat) :
    (a.map f).connect i j = (a.connect i j).map f := by
  rw [map_eq_relabel, map_eq_relabel, index_connect, connect_relabel]

theorem getElem?_map (a : Automaton α) (i : Nat) :
    (a.map f).states[i]? = a.states[i]?.map (State.map f) := Array.getElem?_map

theorem symbolAt_map (a : Automaton α) (i : Nat) :
    (a.map f).symbolAt i = Option.map f <$> a.symbolAt i := by
  unfold symbolAt entry
  rw [getElem?_map, size_map]
  cases a.states[i]? <;> rfl

theorem occurrencesAt_map (a : Automaton α) (i : Nat) :
    (a.map f).occurrencesAt i = a.occurrencesAt i := by
  unfold occurrencesAt entry
  rw [getElem?_map, size_map]
  cases a.states[i]? <;> rfl

theorem count_map (a : Automaton α) (i : Nat) : (a.map f).count i = (a.count i).map f := by
  simp only [count, map, mk.injEq, and_true]
  refine Array.ext_getElem? fun v => ?_
  simp only [Array.getElem?_modify, Array.getElem?_map]
  split <;> simp [Function.comp_def, State.map]

section Learning

variable [DecidableEq α] [DecidableEq β] (hf : Function.Injective f)
include hf

/-- **A one-to-one change** of the symbols leaves each with its state. -/
theorem stateOf?_map (a : Automaton α) (s : α) : (a.map f).stateOf? (f s) = a.stateOf? s := by
  unfold stateOf? map
  induction a.index with
  | nil => rfl
  | cons entry l ih =>
    have hkey : (f s == f entry.1) = (s == entry.1) := by
      rw [Bool.eq_iff_iff, beq_iff_eq, beq_iff_eq, hf.eq_iff]
    rw [List.map_cons, List.lookup_cons, List.lookup_cons, ih, Prod.map_fst, Prod.map_snd, hkey, id]

theorem intern_map (a : Automaton α) (s : α) :
    (a.map f).intern (f s) = ((a.intern s).1.map f, (a.intern s).2) := by
  unfold intern
  rw [stateOf?_map hf]
  cases a.stateOf? s with
  | some i => rfl
  | none => simp [extend, map, State.fresh, State.map]

theorem advance_map (a : Automaton α) (i : Nat) (s : α) :
    advance (a.map f, i) (f s) = ((advance (a, i) s).1.map f, (advance (a, i) s).2) := by
  simp only [advance, intern_map hf, count_map, connect_map]

theorem foldl_advance_map (a : Automaton α) (i : Nat) (w : List α) :
    (w.map f).foldl advance (a.map f, i) =
      ((w.foldl advance (a, i)).1.map f, (w.foldl advance (a, i)).2) := by
  induction w generalizing a i with
  | nil => rfl
  | cons s w ih => rw [List.map_cons, List.foldl_cons, List.foldl_cons, advance_map hf, ih]

theorem learn_map (a : Automaton α) (w : List α) :
    (a.map f).learn (w.map f) = (a.learn w).map f := by
  simp only [learn, foldl_advance_map hf, connect_map]
  split <;> rfl

/-- **Learning commutes with renaming.** -/
theorem ofSequences_map (ws : List (List α)) :
    ofSequences (ws.map (List.map f)) = (ofSequences ws).map f := by
  have hruns : ∀ a : Automaton α,
      (ws.map (List.map f)).foldl learn (a.map f) = (ws.foldl learn a).map f := by
    induction ws with
    | nil => intro a; rfl
    | cons w ws ih =>
      intro a
      rw [List.map_cons, List.foldl_cons, List.foldl_cons, learn_map hf, ih]
  have hempty : (empty : Automaton α).map f = empty := by simp [map, empty, State.fresh, State.map]
  rw [ofSequences, ← hempty, hruns, ofSequences]

end Learning

/-! ## Chain expressions -/

/-- Results one after the other, changed each by itself or all of them at the end. -/
theorem mapM_map {γ δ : Type} {xs : List Nat} {k : Nat → Except Fault γ} {h : γ → δ} :
    (xs.mapM fun x => h <$> k x) = List.map h <$> xs.mapM k := by
  induction xs with
  | nil => rfl
  | cons x xs ih =>
    rw [List.mapM_cons, List.mapM_cons, ih]
    cases k x with
    | error e => rfl
    | ok y => cases xs.mapM k <;> rfl

section Chain

variable (hs : ∀ x, b.symbolOfNode x = f <$> a.symbolOfNode x)
include hs

theorem factor_eq_map (xs : List Nat) : b.factor xs = Expr.map f <$> a.factor xs := by
  match xs with
  | [] => rfl
  | [x] =>
    simp only [factor, hs]
    cases a.symbolOfNode x <;> rfl
  | x :: y :: xs =>
    simp only [factor, funext hs, mapM_map]
    cases (x :: y :: xs).mapM a.symbolOfNode with
    | error e => rfl
    | ok ts =>
      have hchoice : (Expr.choice (ts.map .symbol)).map f = .choice ((ts.map f).map .symbol) := by
        rw [Expr.map_choice, List.map_map, List.map_map]
        rfl
      exact congrArg (fun e => Except.ok (Expr.repeated e)) hchoice.symm

/-- **A chain expression** depends on the graph and on the symbols of its nodes only. -/
theorem chain_eq_map (hg : b.graph = a.graph) : b.chain = Expr.map f <$> a.chain := by
  have hfactors : ∀ (m : Array (List Nat)) (o : List Nat),
      (o.mapM fun x => do b.factor (← entry m x)) =
        List.map (Expr.map f) <$> (o.mapM fun x => do a.factor (← entry m x)) := by
    intro m o
    rw [← mapM_map]
    simp only [factor_eq_map hs, map_bind]
  simp only [chain, hg, hfactors, map_bind, bind_map_left, apply_ite (Expr.map f <$> ·)]
  simp only [pure_eq_ok, ← Expr.map_sequence]
  rfl

end Chain

/-- Automata of one graph whose nodes have the same symbols have one chain expression. -/
theorem chain_congr {c : Automaton α} (hg : c.graph = a.graph)
    (hs : ∀ x, c.symbolOfNode x = a.symbolOfNode x) : c.chain = a.chain := by
  have hid : ∀ x, c.symbolOfNode x = id <$> a.symbolOfNode x := fun x => by rw [hs, id_map]
  rw [chain_eq_map hid hg, funext Expr.map_id]
  exact id_map a.chain

theorem graph_map (a : Automaton α) : (a.map f).graph = a.graph := by
  have hnode : ∀ i, (a.map f).nodeOf? i = a.nodeOf? i := fun i => by
    simp only [nodeOf?, size_map]
  have hedge : (a.map f).nodeEdge? = a.nodeEdge? := funext fun e => by
    simp only [nodeEdge?, hnode]
  rw [graph, graph, stateCount, stateCount, size_map, edges_map, hedge]

theorem symbolOfNode_map (a : Automaton α) (x : Nat) :
    (a.map f).symbolOfNode x = f <$> a.symbolOfNode x := by
  unfold symbolOfNode stateCount
  rw [size_map, symbolAt_map]
  by_cases hx : a.states.size - anchorCount ≤ x
  · simp only [if_pos hx]
    rfl
  · simp only [if_neg hx]
    rcases a.symbolAt (anchorCount + x) with e | _ | s <;> rfl

/-- **Inferring an expression commutes with renaming.** The automaton of the renamed sequences has
the states, edges and counters of the automaton of the sequences, with the symbols of its states
renamed, and so is its chain expression. -/
theorem renaming_commutes [DecidableEq α] [DecidableEq β] (f : α → β) (hf : Function.Injective f)
    (ws : List (List α)) :
    ofSequences (ws.map (List.map f)) = (ofSequences ws).map f ∧
      (∀ x, (ofSequences (ws.map (List.map f))).stateOf? (f x) = (ofSequences ws).stateOf? x) ∧
      (∀ i, (ofSequences (ws.map (List.map f))).symbolAt i =
        Option.map f <$> (ofSequences ws).symbolAt i) ∧
      (ofSequences (ws.map (List.map f))).edges = (ofSequences ws).edges ∧
      (ofSequences (ws.map (List.map f))).edgeCount = (ofSequences ws).edgeCount ∧
      (ofSequences (ws.map (List.map f))).sequenceCount = (ofSequences ws).sequenceCount ∧
      (∀ i, (ofSequences (ws.map (List.map f))).occurrencesAt i =
        (ofSequences ws).occurrencesAt i) ∧
      (ofSequences (ws.map (List.map f))).chain = Expr.map f <$> (ofSequences ws).chain := by
  rw [ofSequences_map hf]
  exact ⟨rfl, stateOf?_map hf _, symbolAt_map _, edges_map _, rfl, rfl, occurrencesAt_map _,
    chain_eq_map (symbolOfNode_map _) (graph_map _)⟩

/-- A number and a word change places, and with them their order. -/
theorem renaming_commutes_swap :
    Function.Injective (Equiv.swap (Symbol.number 1) (.word "a")) ∧
      (ofSequences [[.word "a", .number 2], [.number 1, .number 2]]).chain =
        Expr.map (Equiv.swap (Symbol.number 1) (.word "a")) <$>
          (ofSequences [[.number 1, .number 2], [.word "a", .number 2]]).chain := by
  have hinj := (Equiv.swap (Symbol.number 1) (.word "a")).injective
  obtain ⟨-, -, -, -, -, -, -, hchain⟩ := renaming_commutes _ hinj
    [[.number 1, .number 2], [.word "a", .number 2]]
  exact ⟨hinj, hchain⟩

end Automaton

end ChainGrammar

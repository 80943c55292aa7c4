import ChainGrammar.Proofs.ChainShape
import ChainGrammar.Proofs.Language
import ChainGrammar.Proofs.Walks

/-!
# The language of a chain expression

* `Automaton.placeOf`: where the slot of a symbol stands among the factors.
* `Automaton.ChainSteps.mem_lang`: **the words of a chain expression** are those of symbols that
  were met, at places that never decrease.
* `Automaton.chain_accepts`: **a chain expression accepts every walk** of its automaton, and every
  sequence that was learned.
* `Automaton.chain_orders`: **a chain expression keeps the order** that paths give to symbols.
-/

namespace ChainGrammar.Automaton

variable {α : Type} [DecidableEq α] {a : Automaton α} {seen : List α} {E : Nat → Nat → Prop}
  {g q h : Graph} {c s : Partition} {m : Array (List Nat)} {o : List Nat} {fs : List (Expr α)}
  {b : Nat} {t u : α} {w : List α}

/-- The place of the slot of a symbol in the order of the slots. -/
def placeOf (seen : List α) (s : Partition) (o : List Nat) (t : α) : Nat :=
  o.idxOf (s.number (rank seen t))

omit [DecidableEq α] in
/-- The factor of some symbols has the words over them. -/
theorem lang_factorOf (ts : List α) : (factorOf ts).lang = letters fun t => t ∈ ts := by
  match ts with
  | [t] => simp only [factorOf, Expr.lang_repeated_symbol, List.mem_singleton]
  | [] | t :: u :: ts => exact Expr.lang_repeated_choice _

section Steps

variable (hr : a.Records seen E) (hc : a.ChainSteps g c q s h m o fs)
include hr hc

theorem ChainSteps.rank_lt (ht : t ∈ seen) : rank seen t < g.size := hc.isGraph.rank_lt hr ht

theorem ChainSteps.number_mem (ht : t ∈ seen) : s.number (rank seen t) ∈ o := by
  rw [hc.mem_order]
  exact hc.isSlots.number_lt (hc.rank_lt hr ht)

/-! ## Words -/

/-- **The words of a chain expression** are those of symbols that were met, at places that never
decrease. -/
theorem ChainSteps.mem_lang : w ∈ (Expr.sequence fs).lang ↔
    (∀ t ∈ w, t ∈ seen) ∧ w.Pairwise fun t u => placeOf seen s o t ≤ placeOf seen s o u := by
  have hmap : fs.map Expr.lang =
      o.map fun b => letters fun t => t ∈ seen ∧ s.number (rank seen t) = b := by
    rw [hc.factors_eq_map hr, List.map_map]
    refine List.map_congr_left fun b _ => ?_
    rw [Function.comp_apply, lang_factorOf]
    simp only [mem_slotSymbols]
  rw [Expr.lang_sequence, hmap, mem_prod_letters hc.isForward.nodup]
  refine and_congr_left' (forall₂_congr fun t _ => ?_)
  exact and_iff_left_of_imp fun ht => hc.number_mem hr ht

/-! ## Places -/

/-- **Symbols share a place** if they share a slot. -/
theorem ChainSteps.placeOf_eq_iff (ht : t ∈ seen) : placeOf seen s o t = placeOf seen s o u ↔
    s.number (rank seen t) = s.number (rank seen u) :=
  List.idxOf_inj (hc.number_mem hr ht)

omit hr in
/-- **An edge between states of symbols** stays at a place or goes forward. -/
theorem ChainSteps.placeOf_le (htu : g.Adj (rank seen t) (rank seen u)) :
    placeOf seen s o t ≤ placeOf seen s o u := by
  by_cases hne : s.number (rank seen t) = s.number (rank seen u)
  · rw [placeOf, placeOf, hne]
  · have hadj := (hc.isSlotGraph.adj_iff _ _).2 ⟨hne, _, _, htu, rfl, rfl⟩
    exact Nat.le_of_lt (hc.isForward.idxOf_lt _ _ hadj)

omit hr in
/-- **A path with no way back** goes forward. -/
theorem ChainSteps.placeOf_lt (htu : g.Reaches (rank seen t) (rank seen u))
    (hut : ¬g.Reaches (rank seen u) (rank seen t)) : placeOf seen s o t < placeOf seen s o u := by
  have hne := hc.isSlots.number_ne hc.isComponents hc.isQuotient htu hut
  have hreach := (hc.isSlots.reaches_iff hc.isComponents hc.isQuotient hc.isSlotGraph htu.lt.1
    htu.lt.2 hne).2 htu
  exact hc.isForward.idxOf_lt_of_reaches hreach

/-- Two symbols form a word if the place of the first is not after that of the second. -/
theorem ChainSteps.pair_mem_lang (ht : t ∈ seen) (hu : u ∈ seen) :
    [t, u] ∈ (Expr.sequence fs).lang ↔ placeOf seen s o t ≤ placeOf seen s o u := by
  rw [hc.mem_lang hr]
  simp [ht, hu]

end Steps

/-! ## What is accepted -/

section Learned

variable {ws : List (List α)}

/-- The places of the symbols never decrease along a walk. -/
theorem ChainSteps.pairwise_placeOf (hc : (ofSequences ws).ChainSteps g c q s h m o fs)
    (hw : ∀ t ∈ w, t ∈ ws.flatten)
    (hwalk : (ofSequences ws).IsWalk (w.map (stateIn ws.flatten))) :
    w.Pairwise fun t u => placeOf ws.flatten s o t ≤ placeOf ws.flatten s o u := by
  have hle : ∀ t u, t ∈ w → u ∈ w →
      (stateIn ws.flatten t, stateIn ws.flatten u) ∈ (ofSequences ws).edges →
      placeOf ws.flatten s o t ≤ placeOf ws.flatten s o u := by
    intro t u ht hu htu
    have hr := records_ofSequences ws
    have hlt := fun v hv => hc.isGraph.size_eq ▸ hc.rank_lt hr (hw v hv)
    exact hc.placeOf_le ((hc.isGraph.adj_iff _ _).2 ⟨hlt t ht, hlt u hu, mem_edges.1 htu⟩)
  have hsteps := ((List.isChain_map _).1 hwalk).imp_of_mem_imp hle
  have hplaces : (w.map (placeOf ws.flatten s o)).IsChain (· ≤ ·) := (List.isChain_map _).2 hsteps
  exact List.pairwise_map.1 hplaces.pairwise

/-- A walk from the start to the finish spells a word of the expression. -/
theorem ChainSteps.spelled_mem_lang (hc : (ofSequences ws).ChainSteps g c q s h m o fs)
    {is : List Nat} (his : (ofSequences ws).IsWalk (start :: is ++ [finish])) :
    (ofSequences ws).spelled is ∈ (Expr.sequence fs).lang := by
  have hr := records_ofSequences ws
  obtain ⟨w, rfl, hw⟩ := exists_map_stateIn his
  have hinner : (ofSequences ws).IsWalk (w.map (stateIn ws.flatten)) :=
    List.IsChain.infix his ⟨[start], [finish], rfl⟩
  rw [hr.spelled_map hw, hc.mem_lang hr]
  exact ⟨hw, hc.pairwise_placeOf hw hinner⟩

/-- **A sequence that was learned** is a word of the expression. -/
theorem ChainSteps.mem_lang_of_mem (hc : (ofSequences ws).ChainSteps g c q s h m o fs)
    (hw : w ∈ ws) : w ∈ (Expr.sequence fs).lang := by
  have hr := records_ofSequences ws
  by_cases hne : w = []
  · subst hne
    rw [hc.mem_lang hr]
    simp
  · have hmem : ∀ t ∈ w, t ∈ ws.flatten := fun t ht => List.mem_flatten.2 ⟨w, hw, ht⟩
    have hspelled := hc.spelled_mem_lang (isWalk_tour hw hne)
    rwa [hr.spelled_map hmem] at hspelled

/-- **A chain expression accepts every walk** from the start to the finish of its automaton, and
every sequence that was learned, as each of them is such a walk or empty. -/
theorem chain_accepts (ws : List (List α)) (hws : ws.flatten.length < 2 ^ 63) :
    ∃ e, (ofSequences ws).chain = .ok e ∧
      (∀ is, (ofSequences ws).IsWalk (start :: is ++ [finish]) →
        (ofSequences ws).spelled is ∈ e.lang) ∧
      ∀ w ∈ ws, w ∈ e.lang := by
  obtain ⟨g, c, q, s, h, m, o, fs, hc⟩ := chainSteps_of_length hws
  exact ⟨.sequence fs, hc.chain_eq, fun is his => hc.spelled_mem_lang his,
    fun w hw => hc.mem_lang_of_mem hw⟩

/-- The walk goes round a cycle and ends with a symbol of another sequence. -/
theorem chain_accepts_cycle :
    [[1, 2, 1, 3], [1, 4], []].flatten.length < 2 ^ 63 ∧
      ∃ e, (ofSequences [[1, 2, 1, 3], [1, 4], []]).chain = .ok e ∧
        [1, 2, 1, 4] ∈ e.lang ∧ [] ∈ e.lang := by
  have hlen : [[1, 2, 1, 3], [1, 4], []].flatten.length < 2 ^ 63 := by decide
  obtain ⟨e, he, hwalks, hlearned⟩ := chain_accepts [[1, 2, 1, 3], [1, 4], []] hlen
  have hwalk : (ofSequences [[1, 2, 1, 3], [1, 4], []]).IsWalk
      (start :: [2, 3, 2, 5] ++ [finish]) := by decide +kernel
  have hspelled : (ofSequences [[1, 2, 1, 3], [1, 4], []]).spelled [2, 3, 2, 5] = [1, 2, 1, 4] := by
    decide +kernel
  exact ⟨hlen, e, he, hspelled ▸ hwalks _ hwalk, hlearned [] (by simp)⟩

/-- **A chain expression keeps the order of symbols.** If there is a path from the state of `x` to
that of `y` but none back, no word has `y` before `x`. Two symbols may come in either order if they
share a slot, and in just one order if they do not. -/
theorem chain_orders (ws : List (List α)) (hws : ws.flatten.length < 2 ^ 63) :
    ∃ g s e, (ofSequences ws).graph = .ok g ∧ g.slots = .ok s ∧ (ofSequences ws).chain = .ok e ∧
      ∀ x y i j, (ofSequences ws).stateOf? x = some i → (ofSequences ws).stateOf? y = some j →
        ((ofSequences ws).LearnedPath i j → ¬(ofSequences ws).LearnedPath j i →
          ∀ w ∈ e.lang, ¬[y, x].Sublist w) ∧
        ∃ u v, (ofSequences ws).nodeOf? i = some u ∧ (ofSequences ws).nodeOf? j = some v ∧
          (s.number u = s.number v → [x, y] ∈ e.lang ∧ [y, x] ∈ e.lang) ∧
          (s.number u ≠ s.number v →
            [x, y] ∈ e.lang ∧ [y, x] ∉ e.lang ∨ [x, y] ∉ e.lang ∧ [y, x] ∈ e.lang) := by
  obtain ⟨g, c, q, s, h, m, o, fs, hc⟩ := chainSteps_of_length hws
  have hr := records_ofSequences ws
  have hnode : ∀ x ∈ ws.flatten,
      (ofSequences ws).nodeOf? (stateIn ws.flatten x) = some (rank ws.flatten x) := by
    intro x hx
    exact nodeOf?_eq_some.2 ⟨hc.isGraph.size_eq ▸ hc.rank_lt hr hx, rfl⟩
  refine ⟨g, s, .sequence fs, hc.graph_eq, hc.slots_eq, hc.chain_eq, fun x y i j hi hj => ?_⟩
  obtain ⟨hx, rfl⟩ := hr.stateOf?_eq_some.1 hi
  obtain ⟨hy, rfl⟩ := hr.stateOf?_eq_some.1 hj
  refine ⟨fun hxy hyx w hw hsub => ?_, _, _, hnode x hx, hnode y hy, fun heq => ?_, fun hne => ?_⟩
  · -- a word with `y` before `x` would have to go back to an earlier place
    rw [stateIn, stateIn, hc.isGraph.reaches_iff] at hxy hyx
    have hlt : placeOf ws.flatten s o x < placeOf ws.flatten s o y := hc.placeOf_lt hxy hyx
    have hle := (((hc.mem_lang hr).1 hw).2.sublist hsub)
    rw [List.pairwise_pair] at hle
    omega
  · rw [← hc.placeOf_eq_iff hr hx] at heq
    rw [hc.pair_mem_lang hr hx hy, hc.pair_mem_lang hr hy hx]
    omega
  · rw [Ne, ← hc.placeOf_eq_iff hr hx] at hne
    rw [hc.pair_mem_lang hr hx hy, hc.pair_mem_lang hr hy hx]
    omega

/-- In the one sequence `1`, `2` there is a path from `1` to `2` but none back. -/
theorem chain_orders_pair :
    [[1, 2]].flatten.length < 2 ^ 63 ∧
      ∃ e, (ofSequences [[1, 2]]).chain = .ok e ∧ ∀ w ∈ e.lang, ¬[2, 1].Sublist w := by
  have hlen : [[1, 2]].flatten.length < 2 ^ 63 := by decide
  obtain ⟨g, s, e, -, -, he, hall⟩ := chain_orders [[1, 2]] hlen
  have hone : (ofSequences [[1, 2]]).stateOf? 1 = some 2 := by decide +kernel
  have htwo : (ofSequences [[1, 2]]).stateOf? 2 = some 3 := by decide +kernel
  have hpath : (ofSequences [[1, 2]]).LearnedPath 2 3 :=
    .single (by unfold LearnedEdge; decide +kernel)
  have hback : ¬(ofSequences [[1, 2]]).LearnedPath 3 2 := by
    intro h
    obtain ⟨k, ⟨hk, -, hlearned⟩, -⟩ := Relation.TransGen.head'_iff.1 h
    have hnone : ∀ k ∈ (ofSequences [[1, 2]]).learned, (3, k) ∉ (ofSequences [[1, 2]]).edges := by
      decide +kernel
    exact hnone k hlearned hk
  exact ⟨hlen, e, he, (hall 1 2 2 3 hone htwo).1 hpath hback⟩

end Learned

end ChainGrammar.Automaton

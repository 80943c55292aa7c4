import ChainGrammar.Proofs.ChainSteps

/-!
# The shape of a chain expression

* `Automaton.slotSymbols`: the symbols of a slot, in the order in which they were met.
* `Automaton.ChainSteps.factors_eq_map`: **the factors** are those of the symbols of the slots.
* `Automaton.flatMap_filter_perm`: grouping the elements of a list loses and repeats none of them.
* `Automaton.chain_shape`: **a chain expression has a factor for every slot**, and every symbol
  once.
-/

namespace ChainGrammar

/-! ## Symbols of an expression -/

namespace Expr

variable {α : Type}

theorem symbols_sequence (es : List (Expr α)) : (sequence es).symbols = es.flatMap symbols := by
  rw [symbols, fold, foldAll_eq_map, List.flatMap_def]

theorem symbols_choice (es : List (Expr α)) : (choice es).symbols = es.flatMap symbols := by
  rw [symbols, fold, foldAll_eq_map, List.flatMap_def]

theorem symbols_repeated (e : Expr α) : (repeated e).symbols = e.symbols := rfl

/-- A repeated choice of symbols has these symbols. -/
theorem symbols_repeated_choice (ts : List α) :
    (repeated (choice (ts.map symbol))).symbols = ts := by
  rw [symbols_repeated, symbols_choice, List.flatMap_map]
  exact List.flatMap_singleton' ts

end Expr

namespace Automaton

variable {α : Type} {ts : List α}

theorem symbols_factorOf (ts : List α) : (factorOf ts).symbols = ts := by
  match ts with
  | [t] => rfl
  | [] | t :: u :: ts => exact Expr.symbols_repeated_choice _

/-- A factor is the repeated symbol itself or a repeated choice of at least two. -/
theorem factorOf_cases (hne : ts ≠ []) :
    (∃ t, ts = [t] ∧ factorOf ts = .repeated (.symbol t)) ∨
      2 ≤ ts.length ∧ factorOf ts = .repeated (.choice (ts.map .symbol)) := by
  match ts, hne with
  | [t], _ => exact .inl ⟨t, rfl, rfl⟩
  | t :: u :: ts, _ => exact .inr ⟨by simp, rfl⟩

/-! ## Symbols of a slot -/

variable [DecidableEq α] {a : Automaton α} {seen : List α} {E : Nat → Nat → Prop}
  {g q h : Graph} {c s : Partition} {m : Array (List Nat)} {o : List Nat} {fs : List (Expr α)}
  {b : Nat} {t : α}

/-- The symbols of a slot, in the order in which they were met. -/
def slotSymbols (seen : List α) (s : Partition) (b : Nat) : List α :=
  seen.eraseDups.filter fun t => s.number (rank seen t) = b

theorem mem_slotSymbols :
    t ∈ slotSymbols seen s b ↔ t ∈ seen ∧ s.number (rank seen t) = b := by
  rw [slotSymbols, List.mem_filter, List.mem_eraseDups, decide_eq_true_iff]

section Steps

variable (hr : a.Records seen E) (hc : a.ChainSteps g c q s h m o fs)
include hr hc

/-- The nodes of a slot are the ranks of its symbols. -/
theorem ChainSteps.members_eq_map (b : Nat) :
    s.members b = (slotSymbols seen s b).map (rank seen) := by
  have hsize : s.size = seen.eraseDups.length := by
    rw [hc.isSlots.size_eq, hc.isGraph.size_eq, hr.stateCount_eq]
  rw [Partition.members_eq, hsize, ← map_rank_eraseDups, List.filter_map]
  rfl

/-- **The nodes of a slot have its symbols.** -/
theorem ChainSteps.mapM_members (b : Nat) :
    (s.members b).mapM a.symbolOfNode = .ok (slotSymbols seen s b) := by
  rw [hc.members_eq_map hr]
  exact mapM_map_eq_ok fun t ht => hr.symbolOfNode_rank (mem_slotSymbols.1 ht).1

theorem ChainSteps.slotSymbols_ne_nil (hb : b < s.count) : slotSymbols seen s b ≠ [] := by
  have hne := hc.isSlots.dense.members_ne_nil hb
  rw [hc.members_eq_map hr] at hne
  exact mt List.map_eq_nil_iff.2 hne

/-- **The factor of a slot** is that of its symbols. -/
theorem ChainSteps.factor_members (b : Nat) :
    a.factor (s.members b) = .ok (factorOf (slotSymbols seen s b)) := by
  have hnodes : ∀ x ∈ s.members b, ∃ t, a.symbolOfNode x = .ok t := by
    intro x hx
    have hstates := fun x => hr.exists_symbolOfNode (x := x)
    exact exists_symbolOfNode_of_mem hstates hc.isGraph hc.isSlots.size_eq hx
  obtain ⟨ts, hts, hfactor⟩ := factor_ok hnodes
  rw [hc.mapM_members hr, Except.ok.injEq] at hts
  rw [hfactor, hts]

/-- **The factors**, one for each slot in the order of the slots. -/
theorem ChainSteps.factors_eq_map : fs = o.map fun b => factorOf (slotSymbols seen s b) := by
  have hall := hc.factors_eq.imp
    fun b f hbf => Except.ok.inj (hbf.symm.trans (hc.factor_members hr b))
  rw [← List.forall₂_eq_eq_eq, List.forall₂_map_right_iff]
  exact hall.flip

end Steps

/-! ## The shape -/

omit [DecidableEq α] in
/-- **Grouping the elements of a list** by distinct keys that cover it loses and repeats none. -/
theorem flatMap_filter_perm {f : α → Nat} {l : List α} (ho : o.Nodup) (hf : ∀ t ∈ l, f t ∈ o) :
    (o.flatMap fun b => l.filter fun t => f t = b).Perm l := by
  induction o generalizing l with
  | nil =>
    obtain rfl : l = [] := List.eq_nil_iff_forall_not_mem.2 fun t ht => nomatch hf t ht
    exact .refl _
  | cons b o ih =>
    obtain ⟨hb, ho⟩ := List.nodup_cons.1 ho
    have hrest : ∀ t ∈ l.filter (fun t => !decide (f t = b)), f t ∈ o := by
      intro t ht
      obtain ⟨htl, htb⟩ := List.mem_filter.1 ht
      exact (List.mem_cons.1 (hf t htl)).resolve_left (by simpa using htb)
    -- the keys after `b` see only what is left without it
    have hsame : (o.flatMap fun d => l.filter fun t => f t = d) =
        o.flatMap fun d => (l.filter fun t => !decide (f t = b)).filter fun t => f t = d := by
      refine List.flatMap_congr fun d hd => ?_
      rw [List.filter_filter]
      refine List.filter_congr fun t _ => ?_
      have hdb : d ≠ b := fun h => hb (h ▸ hd)
      by_cases htd : f t = d <;> simp [htd, hdb]
    rw [List.flatMap_cons, hsame]
    exact ((ih ho hrest).append_left _).trans (List.filter_append_perm _ l)

theorem ChainSteps.symbols_perm (hr : a.Records seen E) (hc : a.ChainSteps g c q s h m o fs) :
    (Expr.sequence fs).symbols.Perm seen.eraseDups := by
  have hnumber : ∀ t ∈ seen.eraseDups, s.number (rank seen t) ∈ o := by
    intro t ht
    rw [hc.mem_order]
    exact hc.isSlots.number_lt (hc.isGraph.rank_lt hr (List.mem_eraseDups.1 ht))
  have hsymbols : (Expr.sequence fs).symbols = o.flatMap (slotSymbols seen s) := by
    rw [Expr.symbols_sequence, hc.factors_eq_map hr, List.flatMap_map]
    simp only [symbols_factorOf]
  rw [hsymbols]
  exact flatMap_filter_perm hc.isForward.nodup hnumber

/-- **A chain expression has a factor for every slot**, and every symbol once. The factor of a slot
is its repeated symbol, or the repeated choice of its symbols in the order in which they were met if
there are several. -/
theorem chain_shape (ws : List (List α)) (hws : ws.flatten.length < 2 ^ 63) :
    ∃ g s fs, (ofSequences ws).graph = .ok g ∧ g.slots = .ok s ∧
      (ofSequences ws).chain = .ok (.sequence fs) ∧ fs.length = s.count ∧
      (∃ o, o.Perm (List.range s.count) ∧
        List.Forall₂ (fun b f => ∃ ts, (s.members b).mapM (ofSequences ws).symbolOfNode = .ok ts ∧
          ts.Sublist ws.flatten.eraseDups ∧
          ((∃ t, ts = [t] ∧ f = .repeated (.symbol t)) ∨
            2 ≤ ts.length ∧ f = .repeated (.choice (ts.map .symbol)))) o fs) ∧
      (Expr.sequence fs).symbols.Perm ws.flatten.eraseDups ∧ (fs = [] ↔ ws.flatten = []) := by
  obtain ⟨g, c, q, s, h, m, o, fs, hc⟩ := chainSteps_of_length hws
  have hr := records_ofSequences ws
  have hfs := hc.factors_eq_map hr
  have hperm : o.Perm (List.range s.count) := hc.isSlotGraph.size_eq ▸ hc.isForward.perm
  have hsymbols := hc.symbols_perm hr
  refine ⟨g, s, fs, hc.graph_eq, hc.slots_eq, hc.chain_eq, ?_, ⟨o, hperm, ?_⟩, hsymbols, ?_⟩
  · rw [hfs, List.length_map, hperm.length_eq, List.length_range]
  · rw [hfs, List.forall₂_map_right_iff, List.forall₂_same]
    intro b hb
    exact ⟨slotSymbols ws.flatten s b, hc.mapM_members hr b, List.filter_sublist,
      factorOf_cases (hc.slotSymbols_ne_nil hr (hc.mem_order.1 hb))⟩
  · constructor
    · rintro rfl
      have hnil : ws.flatten.eraseDups = [] := hsymbols.symm.eq_nil
      exact List.eq_nil_iff_forall_not_mem.2 fun t ht =>
        List.not_mem_nil (hnil ▸ List.mem_eraseDups.2 ht)
    · intro hnil
      have hsize := hc.isSlots.dense.count_le_size
      rw [hc.isSlots.size_eq, hc.isGraph.size_eq, hr.stateCount_eq, hnil] at hsize
      rw [hfs, List.map_eq_nil_iff, ← List.length_eq_zero_iff, hperm.length_eq, List.length_range]
      exact Nat.le_zero.1 hsize

/-- Three sequences with a cycle and two symbols in the same place. -/
theorem chain_shape_cycle :
    [[1, 2, 1, 3], [1, 4], []].flatten.length < 2 ^ 63 ∧
      ∃ fs, (ofSequences [[1, 2, 1, 3], [1, 4], []]).chain = .ok (.sequence fs) ∧
        (Expr.sequence fs).symbols.Perm [1, 2, 3, 4] ∧ fs ≠ [] := by
  have hlen : [[1, 2, 1, 3], [1, 4], []].flatten.length < 2 ^ 63 := by decide
  obtain ⟨_, _, fs, -, -, hfs, -, -, hsymbols, hnil⟩ := chain_shape [[1, 2, 1, 3], [1, 4], []] hlen
  exact ⟨hlen, fs, hfs, hsymbols, mt hnil.1 (by simp)⟩

end Automaton

end ChainGrammar

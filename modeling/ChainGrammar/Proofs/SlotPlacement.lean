import ChainGrammar.Graph.Slots
import ChainGrammar.Proofs.Numbering
import ChainGrammar.Proofs.Spreading

/-!
# Putting components into slots

Here `g` is a graph without cycles, in the end that of the components of another one.

* `Graph.signature`: the neighbours of a node on both sides.
* `Graph.not_reaches_of_signature_eq`: **nodes with the same neighbours do not reach each other**,
  so that the test for independence never turns a component away.
* `Slot.Holds.independent_ok`: the test for independence, for a component and the slot of its
  signature.
* `Slot.place_ok`: a component goes into the slot of its signature.
* `Slot.placeAll_ok`: **the slots are numbered as their signatures are first met**.
* `Slot.placeAll_begin`: **no signature has two slots**.
-/

namespace ChainGrammar

variable {g : Graph} {c d x y : Nat} {cs ds : List Nat} {s : Slot} {slots : List Slot}

/-- The neighbours of a node: those before it and those after it. -/
def Graph.signature (g : Graph) (x : Nat) : SortedSet Nat × SortedSet Nat := (g.prev x, g.next x)

/-- The neighbours that the components of a slot have. -/
def Slot.signature (s : Slot) : SortedSet Nat × SortedSet Nat := (s.before, s.after)

/-- **Nodes with the same neighbours** do not reach each other: the last edge of a path from `x`
to `y` would end in `x` as well. -/
theorem Graph.not_reaches_of_signature_eq (hg : g.Acyclic) (h : g.signature x = g.signature y) :
    ¬g.Reaches x y := by
  intro hxy
  obtain ⟨z, hxz, hzy⟩ := Graph.reaches_iff_tail.1 hxy
  have hprev : g.prev x = g.prev y := congrArg Prod.fst h
  have hzx : g.Adj z x := by
    rw [Graph.adj_iff_mem_prev, hprev]
    exact Graph.adj_iff_mem_prev.1 hzy
  exact hg x (Graph.reaches_iff_tail.2 ⟨z, hxz, hzx⟩)

namespace Slot

/-- The components of the slot are nodes with its signature. -/
def Holds (g : Graph) (s : Slot) : Prop :=
  ∀ d ∈ s.components, d < g.size ∧ g.signature d = s.signature

variable (hg : g.Acyclic) (hc : c < g.size)
include hg hc

theorem independent_ok (h : ∀ d ∈ ds, d < g.size ∧ g.signature d = g.signature c) :
    independent g.reachability c ds = .ok true := by
  induction ds with
  | nil => rfl
  | cons d ds ih =>
    obtain ⟨hd, hdc⟩ := h d List.mem_cons_self
    obtain ⟨b, hb, hiff⟩ := Graph.incomparable_ok hd hc
    have hbt : b = true := hiff.2 ⟨Graph.not_reaches_of_signature_eq hg hdc,
      Graph.not_reaches_of_signature_eq hg hdc.symm⟩
    rw [independent, hb, hbt, ok_bind, if_pos rfl]
    exact ih fun e he => h e (List.mem_cons_of_mem d he)

/-- **The test for independence never rejects** a component with the signature of the slot. -/
theorem Holds.independent_ok (hs : s.Holds g) (hsc : s.signature = g.signature c) :
    independent g.reachability c s.components = .ok true :=
  Slot.independent_ok hg hc fun d hd => ⟨(hs d hd).1, (hs d hd).2.trans hsc⟩

/-- **A slot takes the components of its signature.** -/
theorem admits_ok (hs : s.Holds g) :
    s.admits g g.reachability c = .ok (decide (s.signature = g.signature c)) := by
  have hiff : s.before = g.prev c ∧ s.after = g.next c ↔ s.signature = g.signature c := by
    simp [signature, Graph.signature]
  by_cases h : s.signature = g.signature c
  · rw [admits, if_pos (hiff.2 h), hs.independent_ok hg hc h]
    simp [h]
  · rw [admits, if_neg (mt hiff.1 h)]
    simp [h]

/-- **A component goes into the slot of its signature**, a new one if there is none. -/
theorem place_ok (hs : ∀ s ∈ slots, s.Holds g) :
    ∃ slots', place g g.reachability c slots =
        .ok (slots', (slots.map signature).idxOf (g.signature c)) ∧
      (slots'.map signature = if g.signature c ∈ slots.map signature then slots.map signature
        else slots.map signature ++ [g.signature c]) ∧ ∀ s ∈ slots', s.Holds g := by
  induction slots with
  | nil =>
    refine ⟨[⟨g.prev c, g.next c, [c]⟩], rfl, by simp [signature, Graph.signature], ?_⟩
    intro s hs d hd
    obtain rfl := List.mem_singleton.1 hs
    obtain rfl := List.mem_singleton.1 hd
    exact ⟨hc, rfl⟩
  | cons s slots ih =>
    have hs0 : s.Holds g := hs s List.mem_cons_self
    obtain ⟨slots', hplace, hmap, hholds⟩ := ih fun u hu => hs u (List.mem_cons_of_mem s hu)
    rw [place, admits_ok hg hc hs0, ok_bind]
    by_cases h : s.signature = g.signature c
    · -- the first slot takes `c`, and its signature stays what it is
      refine ⟨{ s with components := c :: s.components } :: slots, ?_, ?_, ?_⟩
      · simp [h]
      · rw [List.map_cons, List.map_cons, ← h, if_pos List.mem_cons_self]
        rfl
      · intro u hu
        rcases List.mem_cons.1 hu with rfl | hu
        · intro d hd
          rcases List.mem_cons.1 hd with rfl | hd
          · exact ⟨hc, h.symm⟩
          · exact hs0 d hd
        · exact hs u (List.mem_cons_of_mem s hu)
    · -- the first slot is passed over, so that the places of the others are one further on
      refine ⟨s :: slots', ?_, ?_, ?_⟩
      · rw [if_neg (by simpa using h), hplace, ok_bind, List.map_cons, List.idxOf_cons_ne _ h]
        rfl
      · rw [List.map_cons, hmap, List.map_cons]
        by_cases hmem : g.signature c ∈ slots.map signature
        · rw [if_pos hmem, if_pos (List.mem_cons_of_mem _ hmem)]
        · rw [if_neg hmem, if_neg (by simp [hmem, Ne.symm h]), List.cons_append]
      · intro u hu
        rcases List.mem_cons.1 hu with rfl | hu
        · exact hs0
        · exact hholds u hu

omit hc

/-- **The slots are numbered as their signatures are first met.** The components `ds` have been
put into slots before. -/
theorem placeAll_ok (hcs : ∀ c ∈ cs, c < g.size)
    (hmap : slots.map signature = (ds.map g.signature).eraseDups) (hs : ∀ s ∈ slots, s.Holds g) :
    ∃ slots', placeAll g g.reachability cs slots =
        .ok (slots', cs.map fun c => rank ((ds ++ cs).map g.signature) (g.signature c)) ∧
      slots'.map signature = ((ds ++ cs).map g.signature).eraseDups ∧ ∀ s ∈ slots', s.Holds g := by
  induction cs generalizing ds slots with
  | nil => exact ⟨slots, rfl, by simpa using hmap, hs⟩
  | cons c cs ih =>
    obtain ⟨slots₁, hplace, hmap₁, hs₁⟩ := place_ok hg (hcs c List.mem_cons_self) hs
    -- the slots found so far are those of the components `ds` and `c`
    have hmap₁' : slots₁.map signature = ((ds ++ [c]).map g.signature).eraseDups := by
      rw [hmap₁, hmap, List.map_append, List.map_singleton, eraseDups_concat]
      simp only [List.mem_eraseDups]
    obtain ⟨slots₂, hall, hmap₂, hs₂⟩ :=
      ih (fun e he => hcs e (List.mem_cons_of_mem c he)) hmap₁' hs₁
    have hds : ds ++ [c] ++ cs = ds ++ c :: cs := by simp
    rw [hds] at hall hmap₂
    refine ⟨slots₂, ?_, hmap₂, hs₂⟩
    have hrank : (slots.map signature).idxOf (g.signature c) =
        rank ((ds ++ c :: cs).map g.signature) (g.signature c) := by
      have hmem : g.signature c ∈ (ds ++ [c]).map g.signature := List.mem_map_of_mem (by simp)
      have hsplit : (ds ++ c :: cs).map g.signature =
          (ds ++ [c]).map g.signature ++ cs.map g.signature := by simp
      rw [hmap, ← rank_concat_self, ← List.map_singleton, ← List.map_append, hsplit,
        rank_append hmem]
    rw [placeAll, hplace, ok_bind, hrank]
    simp only [hall, ok_bind, pure_eq_ok, List.map_cons]

/-- **Putting some nodes into slots**, when there are none yet: the numbers are the ranks of their
signatures, and no two slots have the same signature. -/
theorem placeAll_begin (hcs : ∀ c ∈ cs, c < g.size) :
    ∃ slots, placeAll g g.reachability cs [] =
        .ok (slots, (Partition.ofRanks (cs.map g.signature)).numbers) ∧
      (slots.map signature).Nodup ∧ ∀ s ∈ slots, s.Holds g := by
  have hnone : ([] : List Slot).map signature = (([] : List Nat).map g.signature).eraseDups := rfl
  obtain ⟨slots, hall, hmap, hholds⟩ := placeAll_ok hg hcs hnone (by simp)
  refine ⟨slots, ?_, hmap ▸ nodup_eraseDups _, hholds⟩
  rw [hall, Partition.ofRanks, List.map_map]
  rfl

end Slot

end ChainGrammar

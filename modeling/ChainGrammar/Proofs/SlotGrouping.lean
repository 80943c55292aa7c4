import ChainGrammar.Proofs.SlotGraph

/-!
# Slots without reachability

Components with the same neighbours never reach each other, so that the test for
independence turns none away: a component goes into the one slot of its signature.
The slots are therefore the groups of components with the same neighbours, and the
table of what reaches what is not needed to find them.

* `Graph.groupedSlots`: the slots as groups of components with the same neighbours.
* `Graph.independence_redundant`: the test never rejects, and the slots are the groups.
-/

namespace ChainGrammar.Graph

/-- The slots found by the neighbours of the components alone: those with the same neighbours share
a slot, and the slots are numbered in the order of their first components. -/
def groupedSlots (g : Graph) : Except Fault Partition := do
  let c ← g.components
  let q ← g.quotient c
  c.compose q.slotsOf

/-- **The test for independence is redundant.** Different components with the same neighbours never
reach one another. After any number of components no two slots have the same signature, and the
test lets every component into the slot of its signature. So the slots are the groups of components
with the same neighbours, numbered in the order of their first components. -/
theorem independence_redundant {g : Graph} (hg : g.size < 2 ^ 63) :
    ∃ c q s, g.components = .ok c ∧ g.quotient c = .ok q ∧ g.slots = .ok s ∧
      (∀ a b, a ≠ b → q.prev a = q.prev b → q.next a = q.next b →
        ¬q.Reaches a b ∧ ¬q.Reaches b a) ∧
      (∀ k, ∃ slots numbers,
        Slot.placeAll q q.reachability (q.nodes.take k) [] = .ok (slots, numbers) ∧
          (slots.map Slot.signature).Nodup ∧
          ∀ u ∈ slots, ∀ b < q.size, u.signature = q.signature b →
            Slot.independent q.reachability b u.components = .ok true) ∧
      g.groupedSlots = .ok s ∧
      (∀ a b, a < q.size → b < q.size → (q.slotsOf.number a = q.slotsOf.number b ↔
        q.prev a = q.prev b ∧ q.next a = q.next b)) ∧
      ∀ a b, a < b → b < q.slotsOf.count →
        ∃ x ∈ q.slotsOf.members a, ∀ y ∈ q.slotsOf.members b, x < y := by
  obtain ⟨c, q, s, hcomponents, hc, hquotient, hq, -, hcompose, hslots, -⟩ :=
    slots_ok (size_le_lastNumber hg)
  have hacyclic : q.Acyclic := hc.acyclic hq
  refine ⟨c, q, s, hcomponents, hquotient, hslots, ?_, fun k => ?_, ?_, fun a b ha hb => ?_,
    fun a b hab hb => ?_⟩
  · intro a b _ hprev hnext
    have hsig : q.signature a = q.signature b := Prod.ext hprev hnext
    exact ⟨not_reaches_of_signature_eq hacyclic hsig,
      not_reaches_of_signature_eq hacyclic hsig.symm⟩
  · have htake : ∀ a ∈ q.nodes.take k, a < q.size := fun a ha =>
      mem_nodes.1 (List.mem_of_mem_take ha)
    obtain ⟨slots, hall, hnodup, hholds⟩ := Slot.placeAll_begin hacyclic htake
    refine ⟨slots, _, hall, hnodup, fun u hu b hb hub => ?_⟩
    exact (hholds u hu).independent_ok hacyclic hb hub
  · rw [groupedSlots, hcomponents, ok_bind, hquotient, ok_bind, hcompose]
  · rw [number_slotsOf_iff ha hb, signature, signature, Prod.mk.injEq]
  · exact (Partition.ordered_ofRanks _).exists_lt_members (dense_slotsOf q) hab hb

/-- With two ways from `0` to `3`, grouping by the neighbours alone merges `1` and `2`. -/
theorem independence_redundant_diamond :
    ∃ g, ofEdges 4 [(0, 1), (0, 2), (1, 3), (2, 3)] = .ok g ∧ g.size < 2 ^ 63 ∧
      g.slots = .ok ⟨[0, 1, 1, 2], 3⟩ ∧ g.groupedSlots = .ok ⟨[0, 1, 1, 2], 3⟩ := by
  obtain ⟨g, hg, hsize, -, hnumbers⟩ := exists_diamond
  have hlt : g.size < 2 ^ 63 := by omega
  obtain ⟨c, q, s, -, -, hslots, -, -, hgrouped, -⟩ := independence_redundant hlt
  obtain rfl := Except.ok.inj (hslots.symm.trans hnumbers)
  exact ⟨g, hg, hlt, hslots, hgrouped⟩

end ChainGrammar.Graph

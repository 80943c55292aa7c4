import ChainGrammar.Proofs.LowLinkSteps
import ChainGrammar.Proofs.Numbering

/-!
# The search by low links

* `LowLinks.Tracks.run`: **as many steps as there is work** bring the search to its end.
* `LowLinks.run_begin`: the search ends after the counted steps, where the search by knots ends.
* `LowLinks.Tracks.met_eq`, `LowLinks.Tracks.found_le`: the nodes and the components that it has
  counted.
-/

namespace ChainGrammar.LowLinks

open Search

variable {g : Graph} {s : LowLinks} {S : Search} {n : Nat}

theorem arrive_of_done (h : s.arrive.Done) : s.arrive = s := by
  refine arrive_of_moved ?_
  have hpath : s.arrive.path = s.path := by
    unfold arrive
    split <;> rfl
  simp [← hpath, h.2]

theorem step_of_done (h : s.Done) : step g s = .ok s := by
  obtain ⟨hroots, hpath⟩ := h
  simp [step, arrive, advance, hroots, hpath]

theorem run_of_done (h : s.Done) : ∀ n, run g n s = .ok s
  | 0 => rfl
  | n + 1 => by rw [run, step_of_done h, ok_bind, run_of_done h n]

/-- **As many steps as there is work** bring the search to its end, in a state that belongs to one
that the other search comes to. -/
theorem Tracks.run (h : Tracks g s.arrive S) (hw : work g s.arrive ≤ n) :
    ∃ t m, LowLinks.run g n s = .ok t ∧ t.Done ∧ Tracks g t (Search.run g m S) := by
  induction n generalizing s S with
  | zero =>
    by_cases hd : s.arrive.Done
    · exact ⟨s, 0, rfl, arrive_of_done hd ▸ hd, arrive_of_done hd ▸ h⟩
    · obtain ⟨t, -, S', -, -, hlt⟩ := h.advance hd
      omega
  | succ n ih =>
    by_cases hd : s.arrive.Done
    · rw [arrive_of_done hd] at h hd
      exact ⟨s, 0, run_of_done hd _, hd, h⟩
    · obtain ⟨t, ht, S', hT, hS, hlt⟩ := h.advance hd
      obtain ⟨u, m, hu, hud, hU⟩ := ih hT (by omega)
      have hrun : LowLinks.run g (n + 1) s = .ok u := by
        rw [LowLinks.run, step, ht, ok_bind, hu]
      rcases hS with rfl | rfl
      · exact ⟨u, m, hrun, hud, hU⟩
      · exact ⟨u, m + 1, hrun, hud, hU⟩

theorem tracks_begin (g : Graph) : Tracks g (begin g) (Search.begin g) where
  roots_eq := rfl
  standing_eq := rfl
  found_eq := rfl
  stack_eq := rfl
  threads := rfl
  moved := by simp [begin]
  numbered := ⟨Array.size_replicate, Array.size_replicate, by simp [begin], .nil, by simp [begin],
    by simp [begin]⟩
  sound := sound_begin g
  roots_lt _ hx := Graph.mem_nodes.1 hx
  met_add := by simp [begin]

/-- **The search ends** after the counted number of steps, in the state that the other one ends
in. -/
theorem run_begin (g : Graph) : ∃ t, (begin g).run g g.searchSteps = .ok t ∧ t.Done ∧
    Tracks g t ((Search.begin g).run g g.searchSteps) := by
  have hwork : work g (begin g) = g.searchSteps := Search.work_begin g
  obtain ⟨t, m, ht, htd, hT⟩ := (tracks_begin g).run (s := begin g) (Nat.le_of_eq hwork)
  have hend : ((Search.begin g).run g m).Done :=
    ⟨hT.roots_eq.trans htd.1, hT.threads.path_eq_nil_iff.1 htd.2⟩
  have hsame := Search.run_eq_of_done hend
    (Search.run_done (sound_begin g) (Nat.le_of_eq (Search.work_begin g)))
  exact ⟨t, ht, htd, hsame ▸ hT⟩

/-- A search that is over has met every node. -/
theorem Tracks.met_eq (h : Tracks g s S) (hd : s.Done) : s.met = g.size := by
  have hnone : s.standing.count .unseen = 0 := by
    refine Array.count_eq_zero.2 fun hmem => ?_
    obtain ⟨x, hx⟩ := Array.mem_iff_getElem?.1 hmem
    have hroot := h.sound.unseen x (h.standing_eq.symm ▸ hx)
    rw [h.roots_eq, hd.1] at hroot
    exact absurd hroot List.not_mem_nil
  simpa [hnone] using h.met_add

/-- There are no more components than nodes. -/
theorem Tracks.found_le (h : Tracks g s S) : s.found ≤ g.size := by
  have hall : ∀ c < s.found, c ∈ s.standing.toList.map Standing.component := fun c hc => by
    obtain ⟨x, hx⟩ := (h.sound.closed.found c).1 (h.found_eq.symm ▸ hc)
    rw [h.standing_eq] at hx
    exact List.mem_map.2 ⟨_, Array.mem_toList_iff.2 (Array.mem_of_getElem? hx), rfl⟩
  have hle := Partition.le_length_of_forall_mem hall
  rwa [List.length_map, Array.length_toList, h.standing_size] at hle

end ChainGrammar.LowLinks

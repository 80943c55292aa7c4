import Mathlib.Data.List.Basic

/-!
# Elements in the order in which they are met

* `rank l a`: the place of `a` among the distinct elements of `l`, in the order in which they
  occur there first.
* `rank_append`: a longer list leaves the ranks of the elements met before as they are.
* `exists_rank_before`: an element is met after one of every smaller rank.
-/

namespace ChainGrammar

variable {β : Type} [BEq β] {a b : β} {l m : List β} {r : Nat}

/-- The place of an element among the distinct elements of a list, in the order in which they are
met. -/
def rank (l : List β) (a : β) : Nat := l.eraseDups.idxOf a

variable [LawfulBEq β]

theorem nodup_eraseDups (l : List β) : l.eraseDups.Nodup := by
  match l with
  | [] => simp
  | a :: l =>
    rw [List.eraseDups_cons, List.nodup_cons]
    refine ⟨?_, nodup_eraseDups (l.filter fun b => !b == a)⟩
    simp
termination_by l.length
decreasing_by exact Nat.lt_succ_of_le (List.length_filter_le ..)

theorem length_eraseDups_le (l : List β) : l.eraseDups.length ≤ l.length :=
  (nodup_eraseDups l).length_le_of_subset fun _ ha => List.mem_eraseDups.1 ha

theorem rank_lt_iff : rank l a < l.eraseDups.length ↔ a ∈ l := by
  rw [rank, List.idxOf_lt_length_iff, List.mem_eraseDups]

/-- **Ranks tell elements apart.** -/
theorem rank_inj (ha : a ∈ l) : rank l a = rank l b ↔ a = b :=
  List.idxOf_inj (List.mem_eraseDups.2 ha)

/-- **A longer list** leaves the ranks of the elements met before as they are. -/
theorem rank_append (ha : a ∈ l) : rank (l ++ m) a = rank l a := by
  rw [rank, List.eraseDups_append, List.idxOf_append_of_mem (List.mem_eraseDups.2 ha), rank]

theorem eraseDups_concat : (l ++ [a]).eraseDups =
    if a ∈ l then l.eraseDups else l.eraseDups ++ [a] := by
  rw [List.eraseDups_append]
  by_cases ha : a ∈ l <;> simp [List.cons_removeAll, ha, List.eraseDups_cons]

/-- The last element of a list has the place it is looked up at before it is added. -/
theorem rank_concat_self : rank (l ++ [a]) a = l.eraseDups.idxOf a := by
  rw [rank, eraseDups_concat]
  split
  · rfl
  · next ha =>
    have hn : a ∉ l.eraseDups := by simpa using ha
    rw [List.idxOf_append_of_notMem hn, List.idxOf_cons_self, List.idxOf_eq_length hn, Nat.add_zero]

/-- An element has at most the rank of the first one met after the elements before it. -/
theorem rank_append_cons_le : rank (l ++ a :: m) a ≤ l.eraseDups.length := by
  by_cases ha : a ∈ l
  · rw [rank_append ha]
    exact Nat.le_of_lt (rank_lt_iff.2 ha)
  · have hn : a ∉ l.eraseDups := by simpa using ha
    have hr : (a :: m).removeAll l = a :: m.removeAll l := by
      rw [List.cons_removeAll, if_pos (by simpa using ha)]
    have heq : rank (l ++ a :: m) a = l.eraseDups.length := by
      rw [rank, List.eraseDups_append, List.idxOf_append_of_notMem hn, hr, List.eraseDups_cons,
        List.idxOf_cons_self, Nat.add_zero]
    exact Nat.le_of_eq heq

theorem exists_rank_eq (hr : r < l.eraseDups.length) : ∃ a ∈ l, rank l a = r := by
  refine ⟨l.eraseDups[r], List.mem_eraseDups.1 (List.getElem_mem hr), ?_⟩
  exact (nodup_eraseDups l).idxOf_getElem r hr

/-- The distinct elements have the ranks 0, 1, 2 and so on. -/
theorem map_rank_eraseDups (l : List β) :
    l.eraseDups.map (rank l) = List.range l.eraseDups.length := by
  refine List.ext_getElem (by simp) fun r hr _ => ?_
  rw [List.getElem_map, List.getElem_range, rank]
  exact (nodup_eraseDups l).idxOf_getElem r (by simpa using hr)

theorem getElem?_eraseDups : l.eraseDups[r]? = some a ↔ a ∈ l ∧ r = rank l a := by
  constructor
  · intro h
    obtain ⟨hr, rfl⟩ := List.getElem?_eq_some_iff.1 h
    have hrank := (nodup_eraseDups l).idxOf_getElem r hr
    exact ⟨List.mem_eraseDups.1 (List.getElem_mem hr), hrank.symm⟩
  · rintro ⟨ha, rfl⟩
    exact List.getElem?_idxOf (List.mem_eraseDups.2 ha)

/-- **An element is met after one of every smaller rank.** -/
theorem exists_rank_before {i : Nat} (hi : l[i]? = some a) (hr : r < rank l a) :
    ∃ j < i, ∃ b, l[j]? = some b ∧ rank l b = r := by
  obtain ⟨p, t, rfl, rfl⟩ : ∃ p t, l = p ++ a :: t ∧ p.length = i := by
    obtain ⟨hlt, rfl⟩ := List.getElem?_eq_some_iff.1 hi
    exact ⟨l.take i, l.drop (i + 1), by simp, List.length_take_of_le (Nat.le_of_lt hlt)⟩
  obtain ⟨b, hb, hrank⟩ := exists_rank_eq (Nat.lt_of_lt_of_le hr rank_append_cons_le)
  obtain ⟨j, hj, rfl⟩ := List.getElem_of_mem hb
  refine ⟨j, hj, p[j], ?_, ?_⟩
  · rw [List.getElem?_append_left hj, List.getElem?_eq_getElem hj]
  · rw [rank_append hb, hrank]

end ChainGrammar

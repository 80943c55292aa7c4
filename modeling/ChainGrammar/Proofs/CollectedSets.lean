import ChainGrammar.SortedSet
import ChainGrammar.Symbol
import Mathlib.Data.Finset.Card
import Mathlib.Data.List.InsertIdx
import Mathlib.Data.List.Lex

/-!
# Sets have one form

A set is the same whether its elements are added one by one, in any order, or collected at once:
both ways lead to the increasing list of the elements, and there is only one such list. It does not
matter either how a place is found in the list, or how a list is sorted, as long as the place keeps
the order and the sorting loses nothing.

* `SortedSet.Increasing`, `SortedSet.Increasing.ext`: increasing lists with the same elements are
  equal.
* `SortedSet.mem_foldl_insert`: what is in a set after some elements have been added.
* `SortedSet.Holds`: the set is that of the elements of a list; `SortedSet.Holds.insert` adds one.
* `SortedSet.Reports`: what a search of a sorted list may report; `SortedSet.insert?_of_reports`
  says that an element is put in at the place reported.
* `SortedSet.dropRepeats_eq_of_perm`: sorting in another way makes no difference.
* `SortedSet.compare_eq_lt_iff_lex`: the order of sets.
* `SortedSet.canonical`: **sets have one form.**
-/

namespace ChainGrammar.SortedSet

universe u

variable {α : Type u} [Ord α] {k l m : List α} {s t : SortedSet α} {x z : α}

/-! ## Increasing lists -/

/-- Every element is smaller than all elements after it. -/
def Increasing (l : List α) : Prop := l.Pairwise fun a b => compare a b = .lt

/-- No element is larger than an element after it. -/
def Ascending (l : List α) : Prop := l.Pairwise fun a b => notAfter a b = true

theorem Increasing.ascending (h : Increasing l) : Ascending l :=
  h.imp fun hab => by rw [notAfter, hab]; rfl

variable [Std.TransOrd α]

theorem Increasing.nodup (h : Increasing l) : l.Nodup := by
  refine h.imp fun {a b} hab hEq => ?_
  subst hEq
  rw [Std.ReflOrd.compare_self] at hab
  exact nomatch hab

variable [Std.LawfulEqOrd α]

omit [Std.TransOrd α] in
theorem Ascending.increasing (h : Ascending l) (hnodup : l.Nodup) : Increasing l := by
  refine (h.and hnodup).imp fun {a b} hab => ?_
  obtain ⟨hle, hne⟩ := hab
  cases hc : compare a b with
  | lt => rfl
  | eq => exact absurd (Std.LawfulEqOrd.eq_of_compare hc) hne
  | gt =>
    rw [notAfter, hc] at hle
    exact absurd hle (by decide)

/-- **There is one increasing list** with given elements. -/
theorem Increasing.ext (hk : Increasing k) (hl : Increasing l) (h : ∀ x, x ∈ k ↔ x ∈ l) : k = l :=
  congrArg toList (ext_mem (s := ⟨k, hk⟩) (t := ⟨l, hl⟩) h)

/-! ## The elements of a set -/

/-- **Adding some elements** one after the other keeps the others. -/
theorem mem_foldl_insert (l : List α) (s : SortedSet α) :
    z ∈ l.foldl insert s ↔ z ∈ s ∨ z ∈ l := by
  induction l generalizing s with
  | nil => simp
  | cons x l ih => rw [List.foldl_cons, ih, mem_insert, or_assoc, or_left_comm, ← List.mem_cons]

theorem mem_iff_of_contains (h : ∀ x, s.contains x = t.contains x) : x ∈ s ↔ x ∈ t := by
  rw [← contains_iff_mem, h, contains_iff_mem]

/-- The set is that of the elements of the list: it lists them in increasing order, finds them and
nothing else, and has as many as the list has different ones. -/
structure Holds [DecidableEq α] (s : SortedSet α) (l : List α) : Prop where
  increasing : Increasing s.toList
  contains_iff : ∀ x, s.contains x = true ↔ x ∈ l
  size_eq : s.size = l.toFinset.card

section Holds

variable [DecidableEq α]

theorem holds_of_mem (h : ∀ x, x ∈ s ↔ x ∈ l) : s.Holds l where
  increasing := s.sorted
  contains_iff x := contains_iff_mem.trans (h x)
  size_eq := by
    rw [size, ← List.toFinset_card_of_nodup (Increasing.nodup s.sorted), List.toFinset.ext h]

theorem holds_ofList (l : List α) : (ofList l).Holds l := holds_of_mem fun _ => mem_ofList

theorem Holds.mem_iff (h : s.Holds l) : x ∈ s ↔ x ∈ l := by
  rw [← contains_iff_mem, h.contains_iff]

/-- **Adding an element** to a set. -/
theorem Holds.insert (h : s.Holds l) (x : α) : (s.insert x).Holds (x :: l) :=
  holds_of_mem fun z => by rw [mem_insert, List.mem_cons, h.mem_iff]

end Holds

/-- Something is added if it was not there. -/
theorem isSome_insert?_iff : (s.insert? x).isSome = true ↔ x ∉ s := by
  rw [Option.isSome_iff_ne_none, ne_eq, insert?_eq_none_iff]

/-- **In any order**: adding elements one by one gives what collecting them gives. -/
theorem foldl_insert_eq_ofList (h : k.Perm l) : k.foldl insert empty = ofList l := by
  refine ext_mem fun z => ?_
  rw [mem_foldl_insert, mem_ofList, h.mem_iff]
  simp

/-! ## Searching and sorting in another way -/

/-- What a search for `x` in a sorted list may report: a place where `x` is, or, if there is none, a
place where it can be put in so that the list stays sorted. -/
def Reports (l : List α) (x : α) : Except Nat Nat → Prop
  | .ok i => l[i]? = some x
  | .error i => x ∉ l ∧ i ≤ l.length ∧ Ascending (l.insertIdx i x)

/-- The list with `x` put in at the place reported, none if it is there already. -/
def inserted (l : List α) (x : α) : Except Nat Nat → Option (List α)
  | .ok _ => none
  | .error i => some (l.insertIdx i x)

theorem contains_of_reports {r : Except Nat Nat} (h : Reports s.toList x r) :
    s.contains x = r.isOk := by
  cases r with
  | ok i => exact contains_iff_mem.2 (List.mem_of_getElem? h)
  | error i => exact Bool.eq_false_iff.2 (mt contains_iff_mem.1 h.1)

/-- **An element is put in** at the place reported. -/
theorem insert?_of_reports {r : Except Nat Nat} (h : Reports s.toList x r) :
    (s.insert? x).map toList = inserted s.toList x r := by
  cases r with
  | ok i => rw [insert?_eq_none_iff.2 (List.mem_of_getElem? h), Option.map_none, inserted]
  | error i =>
    obtain ⟨hx, hi, hsorted⟩ := h
    obtain ⟨t, ht⟩ := Option.isSome_iff_exists.1 (isSome_insert?_iff.2 hx)
    have hinsert : s.insert x = t := by rw [insert, ht, Option.getD_some]
    have hnodup : (s.toList.insertIdx i x).Nodup :=
      (List.perm_insertIdx x s.toList hi).nodup_iff.2
        (List.nodup_cons.2 ⟨hx, Increasing.nodup s.sorted⟩)
    -- both lists are increasing, the second because `x` was not there
    have hlist : t.toList = s.toList.insertIdx i x := by
      refine Increasing.ext t.sorted (hsorted.increasing hnodup) fun z => ?_
      rw [List.mem_insertIdx hi, ← hinsert, mem_toList, mem_insert, mem_toList]
    rw [ht, Option.map_some, hlist, inserted]

omit [Std.TransOrd α] [Std.LawfulEqOrd α] in
/-- Placing an element puts it in somewhere. -/
theorem exists_insertIdx_of_place? (h : place? x l = some m) :
    ∃ i, i ≤ l.length ∧ m = l.insertIdx i x := by
  induction l generalizing m with
  | nil => exact ⟨0, le_rfl, (Option.some.inj h).symm⟩
  | cons y l ih =>
    rw [place?] at h
    split at h
    · exact ⟨0, Nat.zero_le _, (Option.some.inj h).symm⟩
    · cases h
    · obtain ⟨n, hn, rfl⟩ := Option.map_eq_some_iff.1 h
      obtain ⟨i, hi, rfl⟩ := ih hn
      exact ⟨i + 1, Nat.succ_le_succ hi, List.insertIdx_succ_cons.symm⟩

/-- There is always something to report. -/
theorem exists_reports (s : SortedSet α) (x : α) : ∃ r, Reports s.toList x r := by
  by_cases hx : x ∈ s
  · obtain ⟨i, hi⟩ := List.getElem?_of_mem (mem_toList.2 hx)
    exact ⟨.ok i, hi⟩
  · cases hplace : place? x s.toList with
    | none => exact absurd ((place?_eq_none_iff s.sorted).1 hplace) hx
    | some m =>
      obtain ⟨i, hi, rfl⟩ := exists_insertIdx_of_place? hplace
      exact ⟨.error i, hx, hi, Increasing.ascending (sorted_place? s.sorted hplace)⟩

/-- **Any sorting** of the elements does for collecting them. -/
theorem dropRepeats_eq_of_perm (hm : m.Perm l) (hsorted : Ascending m) :
    dropRepeats m = (ofList l).toList := by
  refine Increasing.ext (sorted_dropRepeats hsorted) (ofList l).sorted fun z => ?_
  rw [mem_dropRepeats, hm.mem_iff, mem_toList, mem_ofList]

/-! ## The order of sets -/

omit [Std.TransOrd α] in
/-- **Lists are compared** element by element, a list before those that go on after it. -/
theorem compare_eq_lt_iff_lex :
    compare k l = .lt ↔ List.Lex (fun a b => compare a b = .lt) k l := by
  induction k generalizing l with
  | nil =>
    cases l with
    | nil => exact iff_of_false nofun nofun
    | cons b l => exact iff_of_true rfl .nil
  | cons a k ih =>
    cases l with
    | nil => exact iff_of_false nofun nofun
    | cons b l =>
      rw [List.compare_eq_compareLex, List.compareLex_cons_cons, ← List.compare_eq_compareLex,
        Ordering.then_eq_lt, ih, List.cons_lex_cons_iff, Std.compare_eq_iff_eq]

omit [Std.TransOrd α] in
theorem compare_eq_eq_iff : compare s t = .eq ↔ s = t := by
  have hlists : compare s t = .eq ↔ s.toList = t.toList :=
    Std.compare_eq_iff_eq (a := s.toList) (b := t.toList)
  rw [hlists]
  refine ⟨fun h => ?_, congrArg toList⟩
  cases s
  cases t
  congr

/-- **Sets have one form.** Whatever the order in which elements are added, the set is the one that
collecting them gives, however they are sorted for it. Adding an element changes the set exactly if
it was not there, and puts it in where any search of the list says. Sets with the same elements are
equal, and they are ordered as their lists are. -/
theorem canonical [DecidableEq α] :
    (∀ l : List α, (ofList l).Holds l ∧ (∀ k : List α, k.Perm l → k.foldl insert empty = ofList l) ∧
      ∀ m : List α, m.Perm l → Ascending m → dropRepeats m = (ofList l).toList) ∧
    (∀ (s : SortedSet α) (l : List α), s.Holds l → ∀ x,
      (s.insert x).Holds (x :: l) ∧ ((s.insert? x).isSome = true ↔ x ∉ l)) ∧
    (∀ (s : SortedSet α) (x : α), (∃ r, Reports s.toList x r) ∧
      ∀ r, Reports s.toList x r →
        s.contains x = r.isOk ∧ (s.insert? x).map toList = inserted s.toList x r) ∧
    ∀ s t : SortedSet α, (s = t ↔ ∀ x, s.contains x = t.contains x) ∧
      (compare s t = .eq ↔ s = t) ∧
      (compare s t = .lt ↔ List.Lex (fun a b => compare a b = .lt) s.toList t.toList) := by
  refine ⟨fun l => ?_, fun s l h x => ?_, fun s x => ?_, fun s t => ?_⟩
  · exact ⟨holds_ofList l, fun k hk => foldl_insert_eq_ofList hk,
      fun m hm hsorted => dropRepeats_eq_of_perm hm hsorted⟩
  · exact ⟨h.insert x, isSome_insert?_iff.trans (not_congr h.mem_iff)⟩
  · exact ⟨exists_reports s x, fun r hr => ⟨contains_of_reports hr, insert?_of_reports hr⟩⟩
  · exact ⟨⟨fun h => h ▸ fun _ => rfl, fun h => ext_mem fun _ => mem_iff_of_contains h⟩,
      compare_eq_eq_iff, compare_eq_lt_iff_lex⟩

/-- A number and the word that is written like it, which occurs twice. -/
def lookalikes : List Symbol := [.word "1", .number 1, .word "1", .number (-2)]

theorem canonical_lookalikes :
    lookalikes.reverse.Perm lookalikes ∧
      lookalikes.reverse.foldl insert empty = ofList lookalikes ∧
      (ofList lookalikes).toList = [.number (-2), .number 1, .word "1"] ∧
      (ofList lookalikes).size = 3 ∧
      Reports (ofList lookalikes).toList (.word "") (.error 2) ∧
      ((ofList lookalikes).insert? (.word "")).isSome = true ∧
      ((ofList lookalikes).insert? (.word "")).map toList =
        some [.number (-2), .number 1, .word "", .word "1"] := by
  obtain ⟨hcollect, hinsert, hsearch, -⟩ := canonical (α := Symbol)
  obtain ⟨hholds, hadded, hsorted⟩ := hcollect lookalikes
  have hperm : lookalikes.reverse.Perm lookalikes := List.reverse_perm lookalikes
  have hlist : (ofList lookalikes).toList = [.number (-2), .number 1, .word "1"] := by
    rw [← hsorted [.number (-2), .number 1, .word "1", .word "1"] (by decide)
      (by unfold Ascending; decide)]
    decide
  have hreports : Reports (ofList lookalikes).toList (.word "") (.error 2) := by
    rw [hlist]
    exact ⟨by decide, by decide, by unfold Ascending; decide⟩
  have hput := ((hsearch (ofList lookalikes) (.word "")).2 (.error 2) hreports).2
  rw [hlist] at hput
  exact ⟨hperm, hadded _ hperm, hlist, hholds.size_eq.trans (by decide), hreports,
    (hinsert (ofList lookalikes) lookalikes hholds (.word "")).2.2 (by decide), hput⟩

end ChainGrammar.SortedSet

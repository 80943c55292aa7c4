/-!
# Sets as strictly increasing lists

A finite set of an ordered type, held as the list of its elements in strictly
increasing order. The form is canonical: a set of elements has one list only, so
that sets are compared by comparing their lists.

* `SortedSet.insert?`: adds an element, `none` if it is there already.
* `SortedSet.contains`: looks an element up, stopping at the first larger one.
* `SortedSet.ofList`: collects a list by sorting it and dropping repeats.
* `SortedSet.mem_insert`, `SortedSet.contains_iff_mem`, `SortedSet.mem_ofList`:
  the three in terms of membership.
* `SortedSet.ext_mem`: sets with the same elements are equal.
-/

namespace ChainGrammar

universe u

/-- A finite set, held as the strictly increasing list of its elements. -/
structure SortedSet (α : Type u) [Ord α] where
  toList : List α
  sorted : toList.Pairwise fun a b => compare a b = .lt

namespace SortedSet

variable {α : Type u} [Ord α]

/-- Sets are compared by their lists of elements. -/
instance [DecidableEq α] : DecidableEq (SortedSet α) := fun s t =>
  if h : s.toList = t.toList then isTrue (by cases s; cases t; simp_all)
  else isFalse fun e => h (e ▸ rfl)

/-- The order of sets is the lexicographic order of their lists of elements. -/
instance : Ord (SortedSet α) := ⟨fun s t => compare s.toList t.toList⟩

instance : Membership α (SortedSet α) := ⟨fun s x => x ∈ s.toList⟩

/-- The empty set. -/
def empty : SortedSet α := ⟨[], .nil⟩

instance : Inhabited (SortedSet α) := ⟨empty⟩

/-- The number of elements. -/
def size (s : SortedSet α) : Nat := s.toList.length

/-- Whether the set has no element. -/
def isEmpty (s : SortedSet α) : Bool := s.toList.isEmpty

/-- Puts an element into its place in an increasing list, `none` if it is there already. -/
def place? (x : α) : List α → Option (List α)
  | [] => some [x]
  | y :: ys => match compare x y with
    | .lt => some (x :: y :: ys)
    | .eq => none
    | .gt => (place? x ys).map (y :: ·)

/-- Looks for an element in an increasing list. -/
def search (x : α) : List α → Bool
  | [] => false
  | y :: ys => match compare x y with
    | .lt => false
    | .eq => true
    | .gt => search x ys

/-- Drops every element that repeats the one after it. -/
def dropRepeats : List α → List α
  | [] => []
  | [x] => [x]
  | x :: y :: ys =>
    if compare x y = .eq then dropRepeats (y :: ys) else x :: dropRepeats (y :: ys)

/-- Whether `x` is in the set. -/
def contains (s : SortedSet α) (x : α) : Bool := search x s.toList

theorem mem_toList {s : SortedSet α} {x : α} : x ∈ s.toList ↔ x ∈ s := Iff.rfl

@[simp] theorem not_mem_empty (x : α) : x ∉ (empty : SortedSet α) := by simp [← mem_toList, empty]

/-! ## Keeping the order -/

variable [Std.TransOrd α]

omit [Std.TransOrd α] in
theorem mem_place? {x : α} {l m : List α} (h : place? x l = some m) (z : α) :
    z ∈ m ↔ z = x ∨ z ∈ l := by
  induction l generalizing m with
  | nil => simp_all [place?, eq_comm]
  | cons y ys ih =>
    simp only [place?] at h
    split at h
    · simp_all [eq_comm]
    · simp at h
    · obtain ⟨k, hk, rfl⟩ := Option.map_eq_some_iff.1 h
      simp [ih hk, or_left_comm]

theorem sorted_place? {x : α} {l m : List α} (hl : l.Pairwise fun a b => compare a b = .lt)
    (h : place? x l = some m) : m.Pairwise fun a b => compare a b = .lt := by
  induction l generalizing m with
  | nil => simp_all [place?, eq_comm]
  | cons y ys ih =>
    have hy := (List.pairwise_cons.1 hl).1
    have hys := (List.pairwise_cons.1 hl).2
    simp only [place?] at h
    split at h
    · next hxy =>
      obtain rfl := (Option.some.injEq _ _ ▸ h).symm
      refine List.pairwise_cons.2 ⟨fun z hz => ?_, hl⟩
      rcases List.mem_cons.1 hz with rfl | hz
      · exact hxy
      · exact Std.TransCmp.lt_trans hxy (hy z hz)
    · simp at h
    · next hxy =>
      obtain ⟨k, hk, rfl⟩ := Option.map_eq_some_iff.1 h
      refine List.pairwise_cons.2 ⟨fun z hz => ?_, ih hys hk⟩
      rcases (mem_place? hk z).1 hz with rfl | hz
      · exact Std.OrientedCmp.lt_of_gt hxy
      · exact hy z hz

/-- The set with `x` added, `none` if it is there already. -/
def insert? (s : SortedSet α) (x : α) : Option (SortedSet α) :=
  match h : place? x s.toList with
  | none => none
  | some l => some ⟨l, sorted_place? s.sorted h⟩

/-- The set with `x` added. -/
def insert (s : SortedSet α) (x : α) : SortedSet α := (s.insert? x).getD s

/-- The sorting order of `ofList`. -/
def notAfter (a b : α) : Bool := (compare a b).isLE

omit [Std.TransOrd α] in
theorem mem_of_mem_dropRepeats {z : α} {l : List α} (h : z ∈ dropRepeats l) : z ∈ l := by
  fun_induction dropRepeats l with
  | case1 => exact h
  | case2 => exact h
  | case3 x y ys _ ih => exact List.mem_cons_of_mem _ (ih h)
  | case4 x y ys _ ih => grind

theorem sorted_dropRepeats {l : List α} (hl : l.Pairwise fun a b => notAfter a b = true) :
    (dropRepeats l).Pairwise fun a b => compare a b = .lt := by
  fun_induction dropRepeats l with
  | case1 => exact .nil
  | case2 => simp
  | case3 x y ys _ ih => exact ih (List.pairwise_cons.1 hl).2
  | case4 x y ys hne ih =>
    have hx := (List.pairwise_cons.1 hl).1
    have hys := (List.pairwise_cons.1 hl).2
    refine List.pairwise_cons.2 ⟨fun z hz => ?_, ih hys⟩
    have hxy : compare x y = .lt := by
      have := hx y (List.mem_cons_self ..)
      cases hc : compare x y <;> simp_all [notAfter]
    rcases List.mem_cons.1 (mem_of_mem_dropRepeats hz) with rfl | hz
    · exact hxy
    · exact Std.TransCmp.lt_of_lt_of_isLE hxy ((List.pairwise_cons.1 hys).1 z hz)

theorem pairwise_mergeSort_notAfter (l : List α) :
    (l.mergeSort notAfter).Pairwise fun a b => notAfter a b = true := by
  refine List.pairwise_mergeSort (fun a b c => ?_) (fun a b => ?_) l
  · exact fun h1 h2 => Std.TransOrd.isLE_trans h1 h2
  · cases h : compare a b <;> simp [notAfter, h]
    rw [Std.OrientedCmp.lt_of_gt h]; rfl

/-- The set of the elements of a list. -/
def ofList (l : List α) : SortedSet α :=
  ⟨dropRepeats (l.mergeSort notAfter), sorted_dropRepeats (pairwise_mergeSort_notAfter l)⟩

/-! ## Membership -/

variable [Std.LawfulEqOrd α]

theorem place?_eq_none_iff {x : α} {l : List α} (hl : l.Pairwise fun a b => compare a b = .lt) :
    place? x l = none ↔ x ∈ l := by
  induction l with
  | nil => simp [place?]
  | cons y ys ih =>
    have hy := (List.pairwise_cons.1 hl).1
    simp only [place?]
    split
    · next hxy =>
      simp only [reduceCtorEq, List.mem_cons, false_iff, not_or]
      refine ⟨fun e => ?_, fun hx => ?_⟩
      · subst e; simp at hxy
      · have := Std.TransCmp.lt_trans hxy (hy x hx)
        simp at this
    · next hxy => simp [Std.LawfulEqOrd.eq_of_compare hxy]
    · next hxy =>
      have hne : x ≠ y := fun e => by subst e; simp at hxy
      simp [ih (List.pairwise_cons.1 hl).2, hne]

theorem search_iff_mem {x : α} {l : List α} (hl : l.Pairwise fun a b => compare a b = .lt) :
    search x l = true ↔ x ∈ l := by
  rw [← place?_eq_none_iff hl]
  clear hl
  induction l with
  | nil => simp [search, place?]
  | cons y ys ih => simp only [search, place?]; split <;> simp [ih]

theorem contains_iff_mem {s : SortedSet α} {x : α} : s.contains x = true ↔ x ∈ s :=
  search_iff_mem s.sorted

theorem insert?_eq_none_iff {s : SortedSet α} {x : α} : s.insert? x = none ↔ x ∈ s := by
  rw [← mem_toList, ← place?_eq_none_iff s.sorted]
  simp only [insert?]
  split <;> simp_all

/-- **Adding an element** adds that one and keeps the others. -/
theorem mem_insert {s : SortedSet α} {x z : α} : z ∈ s.insert x ↔ z = x ∨ z ∈ s := by
  rw [insert]
  cases h : s.insert? x with
  | none =>
    have := insert?_eq_none_iff.1 h
    simp only [Option.getD_none]
    exact ⟨.inr, fun hz => hz.elim (· ▸ this) id⟩
  | some t =>
    simp only [insert?] at h
    split at h
    · simp at h
    · next l hl =>
      obtain rfl := (Option.some.injEq _ _ ▸ h).symm
      exact mem_place? hl z

omit [Std.TransOrd α] in
theorem mem_dropRepeats {z : α} {l : List α} : z ∈ dropRepeats l ↔ z ∈ l := by
  fun_induction dropRepeats l with
  | case1 => rfl
  | case2 => rfl
  | case3 x y ys h ih => simp [ih, Std.LawfulEqOrd.eq_of_compare h]
  | case4 x y ys _ ih => rw [List.mem_cons, ih, ← List.mem_cons]

/-- **Collecting a list** keeps its elements. -/
theorem mem_ofList {l : List α} {z : α} : z ∈ ofList l ↔ z ∈ l := by
  rw [← mem_toList, ofList, mem_dropRepeats, List.mem_mergeSort]

/-- **The form is canonical**: sets with the same elements are equal. -/
theorem ext_mem {s t : SortedSet α} (h : ∀ x, x ∈ s ↔ x ∈ t) : s = t := by
  obtain ⟨l, hl⟩ := s
  obtain ⟨m, hm⟩ := t
  simp only [← mem_toList] at h
  congr
  induction l generalizing m with
  | nil =>
    cases m with
    | nil => rfl
    | cons b m => simpa using h b
  | cons a l ih =>
    cases m with
    | nil => simpa using h a
    | cons b m =>
      have ha := List.pairwise_cons.1 hl
      have hb := List.pairwise_cons.1 hm
      have hab : a = b := by
        rcases List.mem_cons.1 ((h a).1 (List.mem_cons_self ..)) with e | h1
        · exact e
        rcases List.mem_cons.1 ((h b).2 (List.mem_cons_self ..)) with e | h2
        · exact e.symm
        have := Std.TransCmp.lt_trans (hb.1 a h1) (ha.1 b h2)
        simp at this
      subst hab
      congr 1
      refine ih ha.2 _ hb.2 fun x => ?_
      have irr : ∀ k : List α, (∀ z ∈ k, compare a z = .lt) → a ∉ k := fun k hk hak => by
        simpa using hk a hak
      have hx := h x
      simp only [List.mem_cons] at hx
      constructor
      · intro hxl
        rcases hx.1 (.inr hxl) with rfl | h'
        · exact absurd hxl (irr l ha.1)
        · exact h'
      · intro hxm
        rcases hx.2 (.inr hxm) with rfl | h'
        · exact absurd hxm (irr m hb.1)
        · exact h'

end SortedSet

end ChainGrammar

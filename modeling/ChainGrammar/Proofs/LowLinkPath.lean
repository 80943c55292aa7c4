import Mathlib.Data.List.Infix
import ChainGrammar.Proofs.SearchPath

/-!
# Low links and knots

The nodes of a path fall into knots, and the low links tell where one ends: at a node such that no
low link of the path from there on is below its index.

A node passes its low link on only when it goes off the path. So the low link that shows that a node
is not the first of its knot need not be its own: it may still be that of a node further up. Here
`index` and `low` are the numbers of the nodes.

* `LowLinks.Spans`: the nodes of the path that are in one knot.
* `LowLinks.Threads`: the path as a whole, with the edges that are left.
* `LowLinks.Spans.low_eq_iff`: **the last node of the path is alone in its knot if its low link is
  its index**.
* `LowLinks.Spans.pass`: a node that is not alone passes its low link on.
* `LowLinks.threads_tie`: **an edge back into the path ties the knots** that its low link joins.
-/

namespace ChainGrammar.LowLinks

open Search

variable {g : Graph} {index low index' low' : Nat → Nat} {members nodes xs ys : List Nat}
  {path : List (Nat × Nat)} {fs rest : List (Nat × Nat)} {k : Knot} {knots : List Knot}
  {b j p r r' x y z : Nat}

/-- The nodes are listed from the last one met down to the first. -/
def Descending (index : Nat → Nat) (l : List Nat) : Prop :=
  l.Pairwise fun v w => index w < index v

/-- `nodes` is the part of the path in a knot with the given members, whose first node is `r`. No
low link there is below `b`, and for every node but the first there is one below its index, of the
node itself or of one further up. -/
structure Spans (index low : Nat → Nat) (b r : Nat) (members nodes : List Nat) : Prop where
  bottom : [r] <:+ members
  base : [r] <:+ nodes
  sublist : nodes.Sublist members
  bound_le : ∀ z ∈ nodes, b ≤ low z
  lowered : ∀ z ∈ nodes, z ≠ r → ∃ v ∈ nodes, index z ≤ index v ∧ low v < index z

/-- The ends of the edges out of the nodes of a path that are still to be followed. -/
def left (g : Graph) (fs : List (Nat × Nat)) : List Nat :=
  fs.flatMap fun f => (g.next f.1).toList.drop f.2

/-- The path goes through the knots one after the other, and the edges left to its nodes are those
left to the knots. -/
def Threads (g : Graph) (index low : Nat → Nat) : List Knot → List (Nat × Nat) → Prop
  | [], path => path = []
  | k :: knots, path => ∃ r fs rest, path = fs ++ rest ∧ k.pending = left g fs ∧
      Spans index low (index r) r k.members (fs.map Prod.fst) ∧ Threads g index low knots rest

theorem left_cons : left g ((x, j) :: path) = (g.next x).toList.drop j ++ left g path := rfl

theorem left_of_eq_some (hy : (g.next x).toList[j]? = some y) :
    left g ((x, j) :: path) = y :: left g ((x, j + 1) :: path) := by
  obtain ⟨hj, rfl⟩ := List.getElem?_eq_some_iff.1 hy
  rw [left_cons, List.drop_eq_getElem_cons hj, List.cons_append, left_cons]

theorem left_of_eq_none (hx : (g.next x).toList[j]? = none) :
    left g ((x, j) :: path) = left g path := by
  rw [left_cons, List.drop_eq_nil_of_le (List.getElem?_eq_none_iff.1 hx), List.nil_append]

/-! ## Nodes in the order in which they are met -/

theorem Descending.eq_or_lt (h : Descending index (x :: xs)) (hz : z ∈ x :: xs) :
    z = x ∨ index z < index x :=
  (List.mem_cons.1 hz).imp id ((List.pairwise_cons.1 h).1 z)

theorem Descending.le_head (h : Descending index (x :: xs)) (hz : z ∈ x :: xs) :
    index z ≤ index x := by
  rcases h.eq_or_lt hz with rfl | hlt <;> omega

theorem Descending.last_le (h : Descending index members) (hr : [r] <:+ members)
    (hz : z ∈ members) : index r ≤ index z := by
  obtain ⟨ms, rfl⟩ := hr
  rcases List.mem_append.1 hz with hz | hz
  · exact Nat.le_of_lt ((List.pairwise_append.1 h).2.2 z hz r List.mem_cons_self)
  · rw [List.mem_singleton.1 hz]

/-! ## One knot -/

theorem Spans.bottom_mem (h : Spans index low b r members nodes) : r ∈ members :=
  h.bottom.subset List.mem_cons_self

theorem Spans.base_mem (h : Spans index low b r members nodes) : r ∈ nodes :=
  h.base.subset List.mem_cons_self

theorem Spans.congr (h : Spans index low b r members nodes)
    (hindex : ∀ z ∈ members, index' z = index z) (hlow : ∀ z ∈ members, low' z = low z) :
    Spans index' low' b r members nodes := by
  have hmem : ∀ z ∈ nodes, z ∈ members := fun z hz => h.sublist.subset hz
  refine ⟨h.bottom, h.base, h.sublist, fun z hz => ?_, fun z hz hne => ?_⟩
  · rw [hlow z (hmem z hz)]
    exact h.bound_le z hz
  · obtain ⟨v, hv, hzv, hlt⟩ := h.lowered z hz hne
    refine ⟨v, hv, ?_⟩
    rw [hindex z (hmem z hz), hindex v (hmem v hv), hlow v (hmem v hv)]
    exact ⟨hzv, hlt⟩

/-- **The last node of the path is alone in its knot** if its low link is its index. -/
theorem Spans.low_eq_iff (h : Spans index low (index r) r members (x :: xs))
    (hd : Descending index members) (hx : low x ≤ index x) : low x = index x ↔ xs = [] := by
  have hd' : Descending index (x :: xs) := List.Pairwise.sublist h.sublist hd
  constructor
  · intro hlow
    by_contra hne
    -- the first node of the knot is another one, so that some low link is below the index of `x`
    have hr : r ∈ xs := by
      obtain ⟨v, vs, rfl⟩ := List.exists_cons_of_ne_nil hne
      rcases List.suffix_cons_iff.1 h.base with hb | hb
      · simp at hb
      · exact hb.subset List.mem_cons_self
    have hxr : index r < index x := (List.pairwise_cons.1 hd').1 r hr
    obtain ⟨v, hv, hxv, hlt⟩ := h.lowered x List.mem_cons_self (by rintro rfl; omega)
    rcases hd'.eq_or_lt hv with rfl | hvx <;> omega
  · rintro rfl
    obtain rfl : r = x := by simpa using h.base_mem
    exact Nat.le_antisymm hx (h.bound_le r List.mem_cons_self)

/-- The last node of the path passes its low link on to the one before it in its knot. -/
theorem Spans.pass (h : Spans index low b r members (x :: y :: xs)) (hd : Descending index members)
    (hlow : ∀ z, low' z = if z = y then min (low y) (low x) else low z) :
    Spans index low' b r members (y :: xs) := by
  have hd' : Descending index (x :: y :: xs) := List.Pairwise.sublist h.sublist hd
  have hle : ∀ z, low' z ≤ low z := fun z => by
    rw [hlow]
    split
    · next hzy => subst hzy; exact Nat.min_le_left ..
    · exact Nat.le_refl _
  have hyx : low' y ≤ low x := by
    rw [hlow, if_pos rfl]
    exact Nat.min_le_right ..
  refine ⟨h.bottom, ?_, List.Sublist.trans (List.sublist_cons_self ..) h.sublist,
    fun z hz => ?_, fun z hz hne => ?_⟩
  · rcases List.suffix_cons_iff.1 h.base with hb | hb
    · simp at hb
    · exact hb
  · have hzb := h.bound_le z (List.mem_cons_of_mem x hz)
    have hxb := h.bound_le x List.mem_cons_self
    rw [hlow]
    split
    · next hzy =>
      subst hzy
      exact Nat.le_min.2 ⟨hzb, hxb⟩
    · exact hzb
  · obtain ⟨v, hv, hzv, hlt⟩ := h.lowered z (List.mem_cons_of_mem x hz) hne
    rcases List.mem_cons.1 hv with rfl | hv
    · -- what `x` showed, the node before it shows now
      have hzy : index z ≤ index y := Descending.le_head (List.pairwise_cons.1 hd').2 hz
      exact ⟨y, List.mem_cons_self, hzy, Nat.lt_of_le_of_lt hyx hlt⟩
    · exact ⟨v, hv, hzv, Nat.lt_of_le_of_lt (hle v) hlt⟩

/-- **Two knots are spanned as one** if the low link of the last node is not above the index of a
node `y` below the first of them. -/
theorem Spans.append {A B : List Nat} (hA : Spans index low (min (index r) (index y)) r A (x :: xs))
    (hB : Spans index low (index r') r' B ys) (hd : Descending index (A ++ B))
    (hyA : ∀ z ∈ A, index y < index z) (hxy : low x ≤ index y) :
    Spans index low (min (index r') (index y)) r' (A ++ B) (x :: xs ++ ys) := by
  obtain ⟨hdA, -, hAB⟩ := List.pairwise_append.1 hd
  have hr : index r' < index r := hAB r hA.bottom_mem r' hB.bottom_mem
  refine ⟨hB.bottom.trans (List.suffix_append ..), hB.base.trans (List.suffix_append ..),
    hA.sublist.append hB.sublist, fun z hz => ?_, fun z hz hne => ?_⟩
  · rcases List.mem_append.1 hz with hz | hz
    · have := hA.bound_le z hz
      omega
    · have := hB.bound_le z hz
      omega
  · rcases List.mem_append.1 hz with hz | hz
    · have hzx : index z ≤ index x :=
        Descending.le_head (List.Pairwise.sublist hA.sublist hdA) hz
      have hyz := hyA z (hA.sublist.subset hz)
      exact ⟨x, List.mem_append_left _ List.mem_cons_self, hzx, by omega⟩
    · obtain ⟨v, hv, hzv, hlt⟩ := hB.lowered z hz hne
      exact ⟨v, List.mem_append_right _ hv, hzv, hlt⟩

/-- A new node is a knot of its own. -/
theorem spans_singleton (hx : low x = index x) : Spans index low (index x) x [x] [x] where
  bottom := List.suffix_rfl
  base := List.suffix_rfl
  sublist := .refl _
  bound_le z hz := by rw [List.mem_singleton.1 hz, hx]
  lowered z hz hne := absurd (List.mem_singleton.1 hz) hne

/-- The low link of the last node of the path is lowered to the index of `y`. -/
theorem Spans.lower (h : Spans index low (index r) r members nodes)
    (hlow : ∀ z, low' z = if z = x then min (low x) (index y) else low z) :
    Spans index low' (min (index r) (index y)) r members nodes := by
  refine ⟨h.bottom, h.base, h.sublist, fun z hz => ?_, fun z hz hne => ?_⟩
  · have hz := h.bound_le z hz
    rw [hlow]
    split
    · next hzx => subst hzx; omega
    · omega
  · obtain ⟨v, hv, hzv, hlt⟩ := h.lowered z hz hne
    refine ⟨v, hv, hzv, ?_⟩
    rw [hlow]
    split
    · next hvx => subst hvx; omega
    · exact hlt

/-! ## The path -/

theorem Threads.path_eq_nil_iff (h : Threads g index low knots path) :
    path = [] ↔ knots = [] := by
  cases knots with
  | nil => exact iff_of_true h rfl
  | cons k knots =>
    obtain ⟨r, fs, rest, rfl, -, hs, -⟩ := h
    have hne : fs ≠ [] := by
      rintro rfl
      simpa using hs.base_mem
    simp [hne]

/-- The nodes of the path are nodes of the knots. -/
theorem Threads.mem_nodesOf (h : Threads g index low knots path) {f : Nat × Nat} (hf : f ∈ path) :
    f.1 ∈ nodesOf knots := by
  induction knots generalizing path with
  | nil =>
    obtain rfl : path = [] := h
    simp at hf
  | cons k knots ih =>
    obtain ⟨r, fs, rest, rfl, -, hs, hrest⟩ := h
    rcases List.mem_append.1 hf with hf | hf
    · exact List.mem_append_left _ (hs.sublist.subset (List.mem_map_of_mem hf))
    · exact List.mem_append_right _ (ih hrest hf)

theorem Threads.congr (h : Threads g index low knots path)
    (hindex : ∀ z ∈ nodesOf knots, index' z = index z)
    (hlow : ∀ z ∈ nodesOf knots, low' z = low z) : Threads g index' low' knots path := by
  induction knots generalizing path with
  | nil => exact h
  | cons k knots ih =>
    obtain ⟨r, fs, rest, hpath, hpending, hs, hrest⟩ := h
    have hk := hs.congr (fun z hz => hindex z (List.mem_append_left _ hz))
      fun z hz => hlow z (List.mem_append_left _ hz)
    rw [← hindex r (List.mem_append_left _ hs.bottom_mem)] at hk
    exact ⟨r, fs, rest, hpath, hpending, hk, ih hrest
      (fun z hz => hindex z (List.mem_append_right _ hz))
      fun z hz => hlow z (List.mem_append_right _ hz)⟩

/-- A path that is not empty ends in a knot. -/
theorem Threads.exists_knot (h : Threads g index low knots ((x, j) :: path)) :
    ∃ k below r fs rest, knots = k :: below ∧ path = fs ++ rest ∧
      k.pending = left g ((x, j) :: fs) ∧
      Spans index low (index r) r k.members (x :: fs.map Prod.fst) ∧
      Threads g index low below rest := by
  cases knots with
  | nil => exact nomatch (show (x, j) :: path = [] from h)
  | cons k below =>
    obtain ⟨r, fs, rest, hpath, hpending, hs, hrest⟩ := h
    cases fs with
    | nil => simpa using hs.base_mem
    | cons f fs =>
      obtain ⟨rfl, rfl⟩ := List.cons.inj hpath
      exact ⟨k, below, r, fs, rest, rfl, rfl, hpending, hs, hrest⟩

/-- **An edge back into the path ties the knots** down to the one with its end `y`, if it has
lowered the low link of the last node to the index of `y`. -/
theorem threads_tie (hpending : k.pending = left g ((x, j) :: fs))
    (hs : Spans index low (min (index r) (index y)) r k.members (x :: fs.map Prod.fst))
    (hxy : low x ≤ index y) (hrest : Threads g index low knots rest)
    (hd : Descending index (nodesOf (k :: knots))) (hy : y ∈ nodesOf (k :: knots)) :
    Threads g index low (tie y k knots) ((x, j) :: fs ++ rest) := by
  induction knots generalizing k r fs rest with
  | nil =>
    have hyk : y ∈ k.members := by simpa using hy
    have hry : index r ≤ index y := by
      refine Descending.last_le ?_ hs.bottom hyk
      simpa using hd
    rw [Nat.min_eq_left hry] at hs
    exact ⟨r, (x, j) :: fs, rest, rfl, hpending, hs, hrest⟩
  | cons l knots ih =>
    obtain ⟨hdk, -, hkl⟩ := List.pairwise_append.1 hd
    rw [tie]
    split
    · next hyk =>
      have hry : index r ≤ index y := Descending.last_le hdk hs.bottom hyk
      rw [Nat.min_eq_left hry] at hs
      exact ⟨r, (x, j) :: fs, rest, rfl, hpending, hs, hrest⟩
    · next hyk =>
      obtain ⟨r', fs', rest', rfl, hpending', hs', hrest'⟩ := hrest
      have hyl : y ∈ nodesOf (l :: knots) := (List.mem_append.1 hy).resolve_left hyk
      have hd' : Descending index (k.members ++ l.members) := by
        refine List.Pairwise.sublist ?_ hd
        exact List.Sublist.append (.refl _) (List.sublist_append_left ..)
      have hboth : Spans index low (min (index r') (index y)) r' (k.members ++ l.members)
          (x :: (fs ++ fs').map Prod.fst) := by
        simpa using hs.append hs' hd' (fun z hz => hkl z hz y hyl) hxy
      rw [← List.append_assoc, List.cons_append]
      refine ih ?_ hboth hrest' (by simpa using hd) (by simpa using hy)
      rw [hpending, hpending', left, left, left, ← List.cons_append, List.flatMap_append]

end ChainGrammar.LowLinks

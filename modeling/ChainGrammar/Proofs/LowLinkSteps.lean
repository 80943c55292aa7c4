import ChainGrammar.Proofs.LowLinkPath
import ChainGrammar.Proofs.SearchSound

/-!
# The steps of the search by low links

It goes step by step with the search by knots. Both meet the nodes in the same order and follow the
same edges, and the stack holds the nodes of the knots. An edge back into the path lowers the low
link of its last node, where the other search ties knots. A node without edges left is alone on the
path in its knot if and only if its low link is its index: then both searches close the knot. If it
is not alone, it passes its low link on to the node before it and goes off the path, and the other
search stands still.

* `LowLinks.Numbered`: the indices and low links of the nodes on the stack.
* `LowLinks.Tracks`: the states of the two searches belong together.
* `LowLinks.StepsTo`: what both searches do next.
* `LowLinks.Tracks.edge`, `LowLinks.Tracks.finish`, `LowLinks.Tracks.root`: **following an edge,
  finishing a node and trying a root** keep them together.
* `LowLinks.Tracks.advance`: a search that is not over goes on.
-/

namespace ChainGrammar.LowLinks

open Search

variable {g : Graph} {s : LowLinks} {S : Search} {t index low : Array Nat} {stack ms : List Nat}
  {standing : Array Standing} {path : List (Nat × Nat)} {below : List Knot}
  {c j k n met x y z : Nat}

/-! ## Tables of numbers -/

/-- The number that a table holds for a node, 0 beyond its end. -/
def numberAt (t : Array Nat) (x : Nat) : Nat := t[x]?.getD 0

theorem entry_numberAt (hx : x < t.size) : entry t x = .ok (numberAt t x) := by
  have hget := Array.getElem?_eq_getElem hx
  rw [numberAt, hget]
  exact entry_eq_ok hget

theorem numberAt_setIfInBounds (hx : x < t.size) :
    numberAt (t.setIfInBounds x n) z = if z = x then n else numberAt t z := by
  rw [numberAt, Array.getElem?_setIfInBounds]
  by_cases hzx : z = x
  · simp [hzx, hx]
  · simp [hzx, Ne.symm hzx, numberAt]

/-- The low links with that of `x` lowered to `k`. -/
def lowered (low : Array Nat) (x k : Nat) : Array Nat :=
  low.setIfInBounds x (min (numberAt low x) k)

theorem numberAt_lowered (hx : x < low.size) :
    numberAt (lowered low x k) z = if z = x then min (numberAt low x) k else numberAt low z :=
  numberAt_setIfInBounds hx

/-- A low link that is not above `k` is not lowered. -/
theorem numberAt_lowered_of_le (hx : x < low.size) (hle : numberAt low x ≤ k) :
    numberAt (lowered low x k) z = numberAt low z := by
  rw [numberAt_lowered hx, Nat.min_eq_left hle]
  split
  · next hz => rw [hz]
  · rfl

/-- The low link of a node that is in none of the knots may be lowered. -/
theorem Threads.lowered {index : Nat → Nat} (h : Threads g index (numberAt low) below path)
    (hx : x < low.size) (hxb : x ∉ nodesOf below) :
    Threads g index (numberAt (lowered low x k)) below path := by
  refine h.congr (fun _ _ => rfl) fun z hz => ?_
  have hzx : z ≠ x := fun e => hxb (e ▸ hz)
  rw [numberAt_lowered hx, if_neg hzx]

/-- What the search knows of the numbers of the nodes on the stack. -/
structure Numbered (g : Graph) (stack : List Nat) (index low : Array Nat) (met : Nat) : Prop where
  index_size : index.size = g.size
  low_size : low.size = g.size
  lt : ∀ x ∈ stack, x < g.size
  descending : Descending (numberAt index) stack
  index_lt : ∀ x ∈ stack, numberAt index x < met
  low_le : ∀ x ∈ stack, numberAt low x ≤ numberAt index x

theorem Numbered.entry_index (h : Numbered g stack index low met) (hx : x < g.size) :
    entry index x = .ok (numberAt index x) := entry_numberAt (h.index_size.symm ▸ hx)

theorem Numbered.entry_low (h : Numbered g stack index low met) (hx : x < g.size) :
    entry low x = .ok (numberAt low x) := entry_numberAt (h.low_size.symm ▸ hx)

theorem Numbered.meet (h : Numbered g stack index low met) (hy : y < g.size) (hys : y ∉ stack) :
    Numbered g (y :: stack) (index.setIfInBounds y met) (low.setIfInBounds y met) (met + 1) := by
  have hindex : ∀ z, numberAt (index.setIfInBounds y met) z =
      if z = y then met else numberAt index z := fun z =>
    numberAt_setIfInBounds (h.index_size.symm ▸ hy)
  have hlow : ∀ z, numberAt (low.setIfInBounds y met) z =
      if z = y then met else numberAt low z := fun z =>
    numberAt_setIfInBounds (h.low_size.symm ▸ hy)
  have hne : ∀ z ∈ stack, z ≠ y := fun z hz e => hys (e ▸ hz)
  refine ⟨Array.size_setIfInBounds.trans h.index_size, Array.size_setIfInBounds.trans h.low_size,
    ?_, ?_, ?_, ?_⟩
  · exact List.forall_mem_cons.2 ⟨hy, h.lt⟩
  · refine List.pairwise_cons.2 ⟨fun z hz => ?_, h.descending.imp_of_mem fun hv hw hvw => ?_⟩
    · rw [hindex, hindex, if_neg (hne z hz), if_pos rfl]
      exact h.index_lt z hz
    · rwa [hindex, hindex, if_neg (hne _ hv), if_neg (hne _ hw)]
  · refine List.forall_mem_cons.2 ⟨?_, fun z hz => ?_⟩
    · rw [hindex, if_pos rfl]
      exact Nat.lt_succ_self met
    · rw [hindex, if_neg (hne z hz)]
      exact Nat.lt_succ_of_lt (h.index_lt z hz)
  · refine List.forall_mem_cons.2 ⟨?_, fun z hz => ?_⟩
    · rw [hindex, hlow, if_pos rfl, if_pos rfl]
    · rw [hindex, hlow, if_neg (hne z hz), if_neg (hne z hz)]
      exact h.low_le z hz

theorem Numbered.lower (h : Numbered g stack index low met) (hx : x < g.size) (k : Nat) :
    Numbered g stack index (lowered low x k) met := by
  refine ⟨h.index_size, Array.size_setIfInBounds.trans h.low_size, h.lt, h.descending, h.index_lt,
    fun z hz => ?_⟩
  have hz := h.low_le z hz
  rw [numberAt_lowered (h.low_size.symm ▸ hx)]
  split
  · next hzx =>
    subst hzx
    omega
  · exact hz

theorem Numbered.sublist (h : Numbered g stack index low met) (hl : ms.Sublist stack) :
    Numbered g ms index low met where
  index_size := h.index_size
  low_size := h.low_size
  lt x hx := h.lt x (hl.subset hx)
  descending := List.Pairwise.sublist hl h.descending
  index_lt x hx := h.index_lt x (hl.subset hx)
  low_le x hx := h.low_le x (hl.subset hx)

/-! ## Two searches -/

/-- The states of the two searches belong together, after the last node of the path has been met. -/
structure Tracks (g : Graph) (s : LowLinks) (S : Search) : Prop where
  roots_eq : S.roots = s.roots
  standing_eq : S.standing = s.standing
  found_eq : S.found = s.found
  stack_eq : nodesOf S.path = s.stack
  threads : Threads g (numberAt s.index) (numberAt s.low) S.path s.path
  moved : ∀ f ∈ s.path.tail, f.2 ≠ 0
  numbered : Numbered g s.stack s.index s.low s.met
  sound : Sound g S
  roots_lt : ∀ x ∈ s.roots, x < g.size
  met_add : s.met + s.standing.count .unseen = g.size

/-- The work that is left to the search. -/
def work (g : Graph) (s : LowLinks) : Nat :=
  s.roots.length + unseenWork g s.standing g.nodes + s.path.length + (left g s.path).length

theorem arrive_of_moved (h : ∀ f ∈ s.path, f.2 ≠ 0) : s.arrive = s := by
  unfold arrive
  split
  · next hpath => exact absurd rfl (h _ (hpath ▸ List.mem_cons_self))
  · rfl

theorem lower_ok (hx : x < s.low.size) :
    s.lower x k = .ok { s with low := lowered s.low x k } := by
  rw [lower, entry_numberAt hx]
  rfl

theorem Tracks.standing_size (h : Tracks g s S) : s.standing.size = g.size :=
  h.standing_eq ▸ h.sound.closed.size_eq

theorem Tracks.eq_of_path (h : Tracks g s S) {knots : List Knot} (hpath : S.path = knots) :
    S = ⟨s.roots, knots, s.standing, s.found⟩ := by
  obtain ⟨roots, knots', t, n⟩ := S
  obtain rfl : roots = s.roots := h.roots_eq
  obtain rfl : t = s.standing := h.standing_eq
  obtain rfl : n = s.found := h.found_eq
  obtain rfl : knots' = knots := hpath
  rfl

/-- Below the last node of the path no node is at the first edge. -/
theorem Tracks.moved_of_path (h : Tracks g s S) {f : Nat × Nat} (hpath : s.path = f :: path) :
    ∀ f ∈ path, f.2 ≠ 0 := by
  have := h.moved
  rwa [hpath] at this

section LastKnot

variable {members pending : List Nat} (h : Tracks g s S)
  (hS : S.path = ⟨members, pending⟩ :: below)
include h hS

theorem stack_eq_of_path : s.stack = members ++ nodesOf below := by
  rw [← h.stack_eq, hS, nodesOf_cons]

theorem lt_of_mem_members (hx : x ∈ members) : x < g.size := by
  refine h.numbered.lt x ?_
  rw [stack_eq_of_path h hS]
  exact List.mem_append_left _ hx

theorem nodup_of_path : (members ++ nodesOf below).Nodup := by
  have hnodup := h.sound.nodup
  rwa [hS] at hnodup

theorem not_mem_below (hx : x ∈ members) : x ∉ nodesOf below := fun hb =>
  (List.nodup_append.1 (nodup_of_path h hS)).2.2 x hx x hb rfl

theorem descending_members : Descending (numberAt s.index) members := by
  have hd := h.numbered.descending
  rw [stack_eq_of_path h hS] at hd
  exact (List.pairwise_append.1 hd).1

end LastKnot

/-- **Meeting a new node** at the end of the path. -/
theorem tracks_meet (hnum : Numbered g s.stack s.index s.low s.met)
    (hthreads : Threads g (numberAt s.index) (numberAt s.low) below path)
    (hstack : nodesOf below = s.stack) (hmoved : ∀ f ∈ path, f.2 ≠ 0)
    (hroots : ∀ x ∈ s.roots, x < g.size)
    (hmet : s.met + s.standing.count .unseen = g.size) (hnew : s.standing[y]? = some .unseen)
    {knots : List Knot} (hsound : Sound g (enter g ⟨s.roots, knots, s.standing, s.found⟩ y below)) :
    Tracks g (arrive { s with path := (y, 0) :: path })
      (enter g ⟨s.roots, knots, s.standing, s.found⟩ y below) := by
  have hnodup : (y :: nodesOf below).Nodup := hsound.nodup
  have hys : y ∉ s.stack := hstack ▸ (List.nodup_cons.1 hnodup).1
  have hy : y < g.size := by
    have hon := (hsound.mem_path y).1 List.mem_cons_self
    exact hsound.closed.size_eq ▸ (Array.getElem?_eq_some_iff.1 hon).1
  have hmet' : s.met + 1 + (s.standing.setIfInBounds y .onStack).count .unseen = g.size := by
    rw [Nat.add_assoc, Nat.add_comm 1, count_unseen_setIfInBounds hnew, hmet]
  have hne : ∀ z ∈ nodesOf below, z ≠ y := fun z hz e => hys (hstack ▸ e ▸ hz)
  have hthreads' : Threads g (numberAt (s.index.setIfInBounds y s.met))
      (numberAt (s.low.setIfInBounds y s.met)) (⟨[y], (g.next y).toList⟩ :: below)
      ((y, 0) :: path) := by
    refine ⟨y, [(y, 0)], path, rfl, by simp [left], spans_singleton ?_, hthreads.congr ?_ ?_⟩
    · rw [numberAt_setIfInBounds (hnum.low_size.symm ▸ hy), if_pos rfl,
        numberAt_setIfInBounds (hnum.index_size.symm ▸ hy), if_pos rfl]
    · intro z hz
      rw [numberAt_setIfInBounds (hnum.index_size.symm ▸ hy), if_neg (hne z hz)]
    · intro z hz
      rw [numberAt_setIfInBounds (hnum.low_size.symm ▸ hy), if_neg (hne z hz)]
  exact ⟨rfl, rfl, rfl, congrArg (y :: ·) hstack, hthreads', hmoved, hnum.meet hy hys,
    hsound, hroots, hmet'⟩

/-- Meeting a node moves its work to the path. -/
theorem work_meet (hsize : s.standing.size = g.size) (hy : s.standing[y]? = some .unseen) :
    work g (arrive { s with path := (y, 0) :: path }) =
      s.roots.length + unseenWork g s.standing g.nodes + path.length + (left g path).length := by
  have hyg : y ∈ g.nodes := by
    rw [Graph.mem_nodes, ← hsize]
    exact (Array.getElem?_eq_some_iff.1 hy).1
  have hu := unseenWork_setIfInBounds (g := g) List.nodup_range hy hyg
  have hlen : (g.next y).toList.length = (g.next y).size := rfl
  simp only [work, arrive, meet, left_cons, List.drop_zero, List.length_append, List.length_cons,
    hlen]
  unfold Graph.nodes at hu ⊢
  omega

/-- What the two searches do next: the state after a step belongs to that of the other search or to
the one after its next step, and there is less work left. -/
def StepsTo (g : Graph) (s : LowLinks) (S : Search) (t : LowLinks) : Prop :=
  ∃ S', Tracks g t.arrive S' ∧ (S' = S ∨ S' = Search.step g S) ∧ work g t.arrive < work g s

/-- A step after which no node is met. -/
theorem stepsTo_of_moved {u : LowLinks} {S' : Search} (hmoved : ∀ f ∈ u.path, f.2 ≠ 0)
    (hu : Tracks g u S') (hS : S' = S ∨ S' = Search.step g S) (hw : work g u < work g s) :
    StepsTo g s S u := by
  refine ⟨S', ?_, hS, ?_⟩ <;> rwa [arrive_of_moved hmoved]

/-! ## Following an edge -/

section Edge

variable {members : List Nat} {fs rest : List (Nat × Nat)} {r : Nat} (h : Tracks g s S)
  (hpath : s.path = (x, j) :: (fs ++ rest)) (hy : (g.next x).toList[j]? = some y)

include h hpath in
theorem moved_of_edge : ∀ f ∈ (x, j + 1) :: (fs ++ rest), f.2 ≠ 0 :=
  List.forall_mem_cons.2 ⟨Nat.succ_ne_zero j, h.moved_of_path hpath⟩

include hpath hy in
theorem work_of_edge : work g s = s.roots.length + unseenWork g s.standing g.nodes +
    ((x, j + 1) :: (fs ++ rest)).length + (left g ((x, j + 1) :: (fs ++ rest))).length + 1 := by
  rw [work, hpath, left_of_eq_some hy]
  rfl

variable (hS : S.path = ⟨members, y :: left g ((x, j + 1) :: fs)⟩ :: below)
  (hspans : Spans (numberAt s.index) (numberAt s.low) (numberAt s.index r) r members
    (x :: fs.map Prod.fst))
  (hbelow : Threads g (numberAt s.index) (numberAt s.low) below rest)
include h hpath hy hS hspans hbelow

/-- The edge enters a new node. -/
theorem stepsTo_meet (hnew : s.standing[y]? = some .unseen) :
    StepsTo g s S { s with path := (y, 0) :: (x, j + 1) :: (fs ++ rest) } := by
  obtain rfl := h.eq_of_path hS
  have hsound := (step_move (by simp [Search.Done])).sound h.sound
  simp only [Search.step, hnew] at hsound
  have hthreads : Threads g (numberAt s.index) (numberAt s.low)
      (⟨members, left g ((x, j + 1) :: fs)⟩ :: below) ((x, j + 1) :: (fs ++ rest)) :=
    ⟨r, (x, j + 1) :: fs, rest, rfl, rfl, hspans, hbelow⟩
  have hmeet := tracks_meet h.numbered hthreads h.stack_eq (moved_of_edge h hpath) h.roots_lt
    h.met_add hnew hsound
  refine ⟨_, hmeet, .inr ?_, ?_⟩
  · simp only [Search.step, hnew]
  · rw [work_meet h.standing_size hnew, work_of_edge hpath hy]
    exact Nat.lt_succ_self _

/-- The edge goes back into the path. -/
theorem stepsTo_back (hon : s.standing[y]? = some .onStack) :
    StepsTo g s S { s with
      path := (x, j + 1) :: (fs ++ rest), low := lowered s.low x (numberAt s.index y) } := by
  have hx : x ∈ members := hspans.sublist.subset List.mem_cons_self
  have hxs : x < g.size := lt_of_mem_members h hS hx
  have hxlow : x < s.low.size := h.numbered.low_size.symm ▸ hxs
  have hxb : x ∉ nodesOf below := not_mem_below h hS hx
  obtain rfl := h.eq_of_path hS
  have hsound := (step_move (by simp [Search.Done])).sound h.sound
  have hyp : y ∈ nodesOf (⟨members, left g ((x, j + 1) :: fs)⟩ :: below) :=
    (h.sound.mem_path y).2 hon
  have hxy : numberAt (lowered s.low x (numberAt s.index y)) x ≤ numberAt s.index y := by
    rw [numberAt_lowered hxlow, if_pos rfl]
    exact Nat.min_le_right ..
  -- `y` may be further down than the knot of `x`, which is then no longer spanned from its own
  -- first node on, but tied with all knots down to that of `y`
  have htie := threads_tie (k := ⟨members, left g ((x, j + 1) :: fs)⟩) rfl
    (hspans.lower fun _ => numberAt_lowered hxlow) hxy (hbelow.lowered hxlow hxb)
    (h.stack_eq.symm ▸ h.numbered.descending) hyp
  have hmoved := moved_of_edge h hpath
  refine stepsTo_of_moved hmoved ?_ (.inr rfl) ?_
  · simp only [Search.step, hon] at hsound ⊢
    exact ⟨rfl, rfl, rfl, nodesOf_tie.trans h.stack_eq, htie,
      fun f hf => hmoved f (List.mem_of_mem_tail hf), h.numbered.lower hxs _, hsound, h.roots_lt,
      h.met_add⟩
  · rw [work_of_edge hpath hy]
    exact Nat.lt_succ_self _

/-- The edge enters a closed component. -/
theorem stepsTo_leave {c : Nat} (hc : s.standing[y]? = some (.closed c)) :
    StepsTo g s S { s with path := (x, j + 1) :: (fs ++ rest) } := by
  obtain rfl := h.eq_of_path hS
  have hsound := (step_move (by simp [Search.Done])).sound h.sound
  have hthreads : Threads g (numberAt s.index) (numberAt s.low)
      (⟨members, left g ((x, j + 1) :: fs)⟩ :: below) ((x, j + 1) :: (fs ++ rest)) :=
    ⟨r, (x, j + 1) :: fs, rest, rfl, rfl, hspans, hbelow⟩
  have hmoved := moved_of_edge h hpath
  refine stepsTo_of_moved hmoved ?_ (.inr rfl) ?_
  · simp only [Search.step, hc] at hsound ⊢
    exact ⟨rfl, rfl, rfl, h.stack_eq, hthreads, fun f hf => hmoved f (List.mem_of_mem_tail hf),
      h.numbered, hsound, h.roots_lt, h.met_add⟩
  · rw [work_of_edge hpath hy]
    exact Nat.lt_succ_self _

end Edge

/-- **Following an edge** is one step of both searches. -/
theorem Tracks.edge (h : Tracks g s S) (hpath : s.path = (x, j) :: path)
    (hy : (g.next x).toList[j]? = some y) :
    ∃ t, follow { s with path := (x, j + 1) :: path } x y = .ok t ∧ StepsTo g s S t := by
  obtain ⟨⟨members, pending⟩, below, r, fs, rest, hS, rfl, hpending, hspans, hbelow⟩ :=
    (hpath ▸ h.threads).exists_knot
  obtain rfl : pending = y :: left g ((x, j + 1) :: fs) := hpending.trans (left_of_eq_some hy)
  have hadj : g.Adj x y := SortedSet.mem_toList.1 (List.mem_of_getElem? hy)
  have hys : y < s.standing.size := h.standing_size.symm ▸ hadj.lt.2
  have hget := Array.getElem?_eq_getElem hys
  simp only [follow, entry_eq_ok hget, ok_bind]
  cases hst : s.standing[y] with
  | unseen => exact ⟨_, rfl, stepsTo_meet h hpath hy hS hspans hbelow (hst ▸ hget)⟩
  | onStack =>
    refine ⟨_, ?_, stepsTo_back h hpath hy hS hspans hbelow (hst ▸ hget)⟩
    simp only [h.numbered.entry_index hadj.lt.2, ok_bind]
    exact lower_ok (h.numbered.low_size.symm ▸ hadj.lt.1)
  | closed c => exact ⟨_, rfl, stepsTo_leave h hpath hy hS hspans hbelow (hst ▸ hget)⟩

/-! ## Finishing a node -/

/-- Closing the stack down to a node closes the knot in which it is the first one met. -/
theorem closeTo_eq (hx : x ∉ ms) : closeTo c x (ms ++ x :: stack) standing =
    (stack, Search.close c (ms ++ [x]) standing) := by
  induction ms generalizing standing with
  | nil => simp [closeTo, Search.close]
  | cons m ms ih =>
    obtain ⟨hmx, hx⟩ := not_or.1 (mt List.mem_cons.2 hx)
    rw [List.cons_append, closeTo, if_neg (Ne.symm hmx), ih hx]
    rfl

section Finish

variable {members : List Nat} {fs rest : List (Nat × Nat)} {r : Nat} (h : Tracks g s S)
  (hx : (g.next x).toList[j]? = none)

include hx in
theorem work_of_finish (hpath : s.path = (x, j) :: path) :
    work g s = s.roots.length + unseenWork g s.standing g.nodes + path.length +
      (left g path).length + 1 := by
  rw [work, hpath, left_of_eq_none hx, List.length_cons]
  omega

include h hx

/-- The node is the first of its knot, which is closed. The new low links may be others, if they are
numbers for the nodes below. -/
theorem stepsTo_close (hpath : s.path = (x, j) :: rest) (hS : S.path = ⟨ms ++ [x], []⟩ :: below)
    (hbelow : Threads g (numberAt s.index) (numberAt low) below rest)
    (hnumbered : Numbered g (nodesOf below) s.index low s.met) :
    StepsTo g s S { s with
      path := rest
      stack := nodesOf below
      standing := Search.close s.found (ms ++ [x]) s.standing
      low := low
      found := s.found + 1 } := by
  obtain rfl := h.eq_of_path hS
  have hsound := (step_move (by simp [Search.Done])).sound h.sound
  have hunseen : ∀ z ∈ ms ++ [x], s.standing[z]? ≠ some .unseen := fun z hz => by
    rw [(h.sound.mem_path z).1 (List.mem_append_left _ hz)]
    simp
  have hmet := (count_unseen_close (n := s.found) hunseen).symm ▸ h.met_add
  have hmoved := h.moved_of_path hpath
  refine stepsTo_of_moved hmoved ?_ (.inr rfl) ?_
  · exact ⟨rfl, rfl, rfl, rfl, hbelow, fun f hf => hmoved f (List.mem_of_mem_tail hf), hnumbered,
      hsound, h.roots_lt, hmet⟩
  · rw [work_of_finish hx hpath, work, unseenWork_close hunseen]
    exact Nat.lt_succ_self _

/-- The node is not the first of its knot, and the node before it takes over its low link. -/
theorem stepsTo_pass {q : Nat} (hpath : s.path = (x, j) :: (y, q) :: (fs ++ rest))
    (hS : S.path = ⟨members, left g ((y, q) :: fs)⟩ :: below)
    (hspans : Spans (numberAt s.index) (numberAt s.low) (numberAt s.index r) r members
      (x :: y :: fs.map Prod.fst))
    (hbelow : Threads g (numberAt s.index) (numberAt s.low) below rest) :
    StepsTo g s S { s with
      path := (y, q) :: (fs ++ rest), low := lowered s.low y (numberAt s.low x) } := by
  have hy : y ∈ members := hspans.sublist.subset (List.mem_cons_of_mem x List.mem_cons_self)
  have hys : y < g.size := lt_of_mem_members h hS hy
  have hylow : y < s.low.size := h.numbered.low_size.symm ▸ hys
  have hbelow' := hbelow.lowered (k := numberAt s.low x) hylow (not_mem_below h hS hy)
  have hpass := hspans.pass (descending_members h hS) fun _ => numberAt_lowered hylow
  obtain rfl := h.eq_of_path hS
  have hmoved := h.moved_of_path hpath
  refine stepsTo_of_moved hmoved ?_ (.inl rfl) ?_
  · exact ⟨rfl, rfl, rfl, h.stack_eq, ⟨r, (y, q) :: fs, rest, rfl, rfl, hpass, hbelow'⟩,
      fun f hf => hmoved f (List.mem_of_mem_tail hf), h.numbered.lower hys _, h.sound, h.roots_lt,
      h.met_add⟩
  · rw [work_of_finish hx hpath]
    exact Nat.lt_succ_self _

/-- A node whose low link is its index closes its knot. The node before it on the path keeps its
low link, which is smaller already. -/
theorem finish_of_alone (hpath : s.path = (x, j) :: rest)
    (hS : S.path = ⟨ms ++ [x], []⟩ :: below)
    (hbelow : Threads g (numberAt s.index) (numberAt s.low) below rest)
    (hlow : numberAt s.low x = numberAt s.index x) :
    ∃ t, LowLinks.finish { s with path := rest } x = .ok t ∧ StepsTo g s S t := by
  have hnum := h.numbered
  have hxs : x < g.size := lt_of_mem_members h hS (List.mem_append_right _ List.mem_cons_self)
  have hstack : s.stack = ms ++ x :: nodesOf below := by simpa using stack_eq_of_path h hS
  have hxms : x ∉ ms := by
    have hnodup := (List.nodup_append.1 (nodup_of_path h hS)).1
    exact fun hx => (List.nodup_append.1 hnodup).2.2 x hx x List.mem_cons_self rfl
  have hdrop := (List.pairwise_append.1 (hstack ▸ hnum.descending)).2.1
  have hnumbelow : Numbered g (nodesOf below) s.index s.low s.met :=
    hnum.sublist (stack_eq_of_path h hS ▸ List.sublist_append_right ..)
  simp only [LowLinks.finish, hnum.entry_low hxs, hnum.entry_index hxs, ok_bind, hlow, if_true,
    LowLinks.close, hstack, closeTo_eq hxms]
  cases rest with
  | nil => exact ⟨_, rfl, stepsTo_close h hx hpath hS hbelow hnumbelow⟩
  | cons f rest =>
    have hf : f.1 ∈ nodesOf below := hbelow.mem_nodesOf List.mem_cons_self
    have hfs : f.1 < s.low.size := hnum.low_size.symm ▸ hnumbelow.lt _ hf
    -- its low link is not above its index, and `x` was met after it
    have hle : numberAt s.low f.1 ≤ numberAt s.index x :=
      Nat.le_trans (hnumbelow.low_le _ hf) (Nat.le_of_lt ((List.pairwise_cons.1 hdrop).1 _ hf))
    have hbelow' := hbelow.congr (fun _ _ => rfl) fun _ _ => numberAt_lowered_of_le hfs hle
    exact ⟨_, lower_ok hfs,
      stepsTo_close h hx hpath hS hbelow' (hnumbelow.lower (hnumbelow.lt _ hf) _)⟩

end Finish

/-- **Finishing a node** closes the last knot if the node is alone on the path in it, and is no step
of the other search if it is not. -/
theorem Tracks.finish (h : Tracks g s S) (hpath : s.path = (x, j) :: path)
    (hx : (g.next x).toList[j]? = none) :
    ∃ t, LowLinks.finish { s with path := path } x = .ok t ∧ StepsTo g s S t := by
  obtain ⟨⟨members, pending⟩, below, r, fs, rest, hS, rfl, hpending, hspans, hbelow⟩ :=
    (hpath ▸ h.threads).exists_knot
  obtain rfl : pending = left g fs := hpending.trans (left_of_eq_none hx)
  have hxm : x ∈ members := hspans.sublist.subset List.mem_cons_self
  have hxstack : x ∈ s.stack := by
    rw [stack_eq_of_path h hS]
    exact List.mem_append_left _ hxm
  have hiff := hspans.low_eq_iff (descending_members h hS) (h.numbered.low_le x hxstack)
  cases fs with
  | nil =>
    obtain rfl : r = x := by simpa using hspans.base_mem
    obtain ⟨ms, rfl⟩ := hspans.bottom
    exact finish_of_alone h hx hpath hS hbelow (hiff.2 rfl)
  | cons f fs =>
    obtain ⟨y, q⟩ := f
    have hxs : x < g.size := lt_of_mem_members h hS hxm
    have hys : y < g.size := lt_of_mem_members h hS (hspans.sublist.subset (by simp))
    have hne : numberAt s.low x ≠ numberAt s.index x := mt hiff.1 (by simp)
    simp only [LowLinks.finish, h.numbered.entry_low hxs, h.numbered.entry_index hxs, ok_bind,
      if_neg hne]
    exact ⟨_, lower_ok (h.numbered.low_size.symm ▸ hys),
      stepsTo_pass h hx hpath hS hspans hbelow⟩

/-- No root is left to be tried and the path is empty. -/
def Done (s : LowLinks) : Prop := s.roots = [] ∧ s.path = []

/-! ## Trying a root -/

section Root

variable {roots : List Nat} (h : Tracks g s S) (hpath : s.path = []) (hroots : s.roots = x :: roots)

include hpath hroots in
theorem work_of_root : work g s = roots.length + unseenWork g s.standing g.nodes + 1 := by
  simp only [work, hpath, hroots, left, List.flatMap_nil, List.length_cons, List.length_nil]
  omega

include h hpath hroots

/-- A new root starts a path. -/
theorem stepsTo_start (hnew : s.standing[x]? = some .unseen) :
    StepsTo g s S { s with roots, path := [(x, 0)] } := by
  obtain rfl := h.eq_of_path (h.threads.path_eq_nil_iff.1 hpath)
  have hsound := (step_move (by simp [Search.Done, hroots])).sound h.sound
  simp only [Search.step, hroots, if_pos hnew] at hsound
  have hthreads : Threads g (numberAt s.index) (numberAt s.low) [] [] := rfl
  have hmeet := tracks_meet (s := { s with roots }) h.numbered hthreads h.stack_eq (by simp)
    (fun z hz => h.roots_lt z (hroots ▸ List.mem_cons_of_mem x hz)) h.met_add hnew hsound
  refine ⟨_, hmeet, .inr ?_, ?_⟩
  · simp only [Search.step, hroots, if_pos hnew]
  · rw [work_of_root hpath hroots]
    exact Nat.lt_succ_of_le (Nat.le_of_eq (work_meet (s := { s with roots }) h.standing_size hnew))

/-- A root that has been met before is skipped. -/
theorem stepsTo_skip (hold : s.standing[x]? ≠ some .unseen) :
    StepsTo g s S { s with roots, path := [] } := by
  obtain rfl := h.eq_of_path (h.threads.path_eq_nil_iff.1 hpath)
  have hsound := (step_move (by simp [Search.Done, hroots])).sound h.sound
  simp only [Search.step, hroots, if_neg hold] at hsound
  refine ⟨_, ?_, .inr rfl, ?_⟩
  · simp only [Search.step, hroots, if_neg hold]
    exact ⟨rfl, rfl, rfl, h.stack_eq, rfl, by simp [arrive], h.numbered, hsound,
      fun z hz => h.roots_lt z (hroots ▸ List.mem_cons_of_mem x hz), h.met_add⟩
  · rw [work_of_root hpath hroots]
    exact Nat.lt_succ_self _

end Root

/-- **Trying a root** is one step of both searches. -/
theorem Tracks.root (h : Tracks g s S) (hpath : s.path = []) {roots : List Nat}
    (hroots : s.roots = x :: roots) : ∃ t, advance g s = .ok t ∧ StepsTo g s S t := by
  have hxs : x < s.standing.size :=
    h.standing_size.symm ▸ h.roots_lt x (hroots ▸ List.mem_cons_self)
  have hget := Array.getElem?_eq_getElem hxs
  simp only [advance, hpath, hroots, entry_eq_ok hget, ok_bind]
  cases hst : s.standing[x] with
  | unseen => exact ⟨_, rfl, stepsTo_start h hpath hroots (hst ▸ hget)⟩
  | onStack => exact ⟨_, rfl, stepsTo_skip h hpath hroots (by simp [hget, hst])⟩
  | closed c => exact ⟨_, rfl, stepsTo_skip h hpath hroots (by simp [hget, hst])⟩

/-- **A search that is not over goes on**, and the other one with it. -/
theorem Tracks.advance (h : Tracks g s S) (hd : ¬s.Done) :
    ∃ t, s.advance g = .ok t ∧ StepsTo g s S t := by
  match hpath : s.path with
  | [] =>
    match hroots : s.roots with
    | [] => exact absurd ⟨hroots, hpath⟩ hd
    | x :: roots => exact h.root hpath hroots
  | (x, j) :: path =>
    have hx : x ∈ s.stack := h.stack_eq ▸ h.threads.mem_nodesOf (hpath ▸ List.mem_cons_self)
    have hnext : g.successorsOf x = .ok (g.next x) := by
      have hget := Array.getElem?_eq_getElem (h.numbered.lt x hx : x < g.successors.size)
      rw [Graph.successorsOf, Graph.next, Neighbours.of, hget]
      exact entry_eq_ok hget
    simp only [LowLinks.advance, hpath, hnext, ok_bind]
    cases hy : (g.next x).toList[j]? with
    | some y => exact h.edge hpath hy
    | none => exact h.finish hpath hy

end ChainGrammar.LowLinks

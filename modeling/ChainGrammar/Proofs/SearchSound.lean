import ChainGrammar.Proofs.SearchPath

/-!
# The invariant of the search

* `Search.ClosedHolds`: the closed nodes are whole components with numbers of their own, and no
  edge leaves them.
* `Search.Sound`: the invariant of the search.
* `Search.Move.sound`, `Search.Move.work_lt`: **every move keeps the invariant and lowers the
  work**.
* `Search.run_begin`: the search ends sound, with no node left.
-/

namespace ChainGrammar.Search

variable {g : Graph} {s s' : Search} {t : Array Standing} {k : Knot} {path below : List Knot}
  {members pending roots : List Nat} {n x y c : Nat}

/-- What the search knows of the components that have been closed. -/
structure ClosedHolds (g : Graph) (t : Array Standing) (n : Nat) : Prop where
  size_eq : t.size = g.size
  next : ∀ x y : Nat, Closed t x → g.Adj x y → Closed t y
  joined : ∀ x y c : Nat, t[x]? = some (.closed c) → (t[y]? = some (.closed c) ↔ g.Joined x y)
  found : ∀ c : Nat, c < n ↔ ∃ x : Nat, t[x]? = some (.closed c)

/-- What the search knows at every point. -/
structure Sound (g : Graph) (s : Search) : Prop where
  closed : ClosedHolds g s.standing s.found
  path : PathHolds g s.standing [] s.path
  nodup : (nodesOf s.path).Nodup
  mem_path : ∀ x : Nat, x ∈ nodesOf s.path ↔ s.standing[x]? = some .onStack
  unseen : ∀ x : Nat, s.standing[x]? = some .unseen → x ∈ s.roots

/-- No path leaves the closed nodes. -/
theorem ClosedHolds.leads (h : ClosedHolds g t n) (hxy : g.Leads x y) (hx : Closed t x) :
    Closed t y :=
  hxy.mem_of_closed h.next hx

/-! ## Entering a node -/

theorem getElem?_enter_closed (hy : t[y]? = some .unseen) :
    (t.setIfInBounds y .onStack)[x]? = some (.closed c) ↔ t[x]? = some (.closed c) := by
  rw [getElem?_setIfInBounds_onStack hy]
  split
  · next hxy => simp [hxy, hy]
  · rfl

theorem closed_enter (hy : t[y]? = some .unseen) :
    Closed (t.setIfInBounds y .onStack) x ↔ Closed t x := by
  simp only [Closed, getElem?_enter_closed hy]

theorem ClosedHolds.enter (h : ClosedHolds g t n) (hy : t[y]? = some .unseen) :
    ClosedHolds g (t.setIfInBounds y .onStack) n where
  size_eq := Array.size_setIfInBounds.trans h.size_eq
  next v w hv hvw := by
    rw [closed_enter hy] at hv ⊢
    exact h.next v w hv hvw
  joined v w c hv := by
    rw [getElem?_enter_closed hy] at hv ⊢
    exact h.joined v w c hv
  found c := by simp only [getElem?_enter_closed hy, h.found c]

/-- **Entering a new node** on top of a path that leads to it. -/
theorem sound_enter (hclosed : ClosedHolds g t n) (hpath : PathHolds g t [y] below)
    (hbelow : ∀ l ∈ below, ∀ x ∈ l.members, g.Leads x y) (hnodup : (nodesOf below).Nodup)
    (hmem : ∀ x : Nat, x ∈ nodesOf below ↔ t[x]? = some .onStack) (hy : t[y]? = some .unseen)
    (hunseen : ∀ x : Nat, x ≠ y → t[x]? = some .unseen → x ∈ roots) :
    Sound g (enter g ⟨roots, path, t, n⟩ y below) where
  closed := hclosed.enter hy
  path := by
    refine ⟨⟨by simp, ?_, ?_, ?_⟩, ?_, ?_⟩
    · intro v hv w hw
      obtain rfl := List.mem_singleton.1 hv
      obtain rfl := List.mem_singleton.1 hw
      exact .refl g _
    · intro z hz
      exact ⟨y, by simp, hz⟩
    · intro v hv z hvz
      obtain rfl := List.mem_singleton.1 hv
      exact .inl hvz
    · intro l hl v hv w hw
      obtain rfl := List.mem_singleton.1 hw
      exact hbelow l hl v hv
    · exact hpath.mono (fun z => (closed_enter hy).2) fun z hz => .inr (by simpa using hz)
  nodup := by
    have hyb : y ∉ nodesOf below := by rw [hmem, hy]; simp
    simpa [enter, hyb] using hnodup
  mem_path v := by
    have hv := hmem v
    simp only [enter, nodesOf_cons, List.singleton_append, List.mem_cons,
      getElem?_setIfInBounds_onStack hy]
    split
    · next hvy => simp [hvy]
    · next hvy => simp [hvy, hv]
  unseen v hv := by
    simp only [enter, getElem?_setIfInBounds_onStack hy] at hv ⊢
    split at hv
    · simp at hv
    · next hvy => exact hunseen v hvy hv

/-! ## Closing a knot -/

section Close

variable (hs : Sound g ⟨roots, ⟨members, []⟩ :: path, t, n⟩)
include hs

theorem getElem?_close_of_sound :
    (close n members t)[x]? = if x ∈ members then some (.closed n) else t[x]? := by
  rw [getElem?_close]
  by_cases hx : x ∈ members
  · have hp : t[x]? = some .onStack := (hs.mem_path x).1 (List.mem_append_left _ hx)
    have hlt : x < t.size := (Array.getElem?_eq_some_iff.1 hp).1
    simp [hx, hlt]
  · simp [hx]

theorem not_closed_of_mem_members (hx : x ∈ members) : ¬Closed t x := by
  rintro ⟨c, hc⟩
  have hp : t[x]? = some .onStack := (hs.mem_path x).1 (List.mem_append_left _ hx)
  simp [hp] at hc

theorem closed_close_iff : Closed (close n members t) x ↔ x ∈ members ∨ Closed t x := by
  unfold Closed
  rw [getElem?_close_of_sound hs]
  split
  · next hx => simp [hx]
  · next hx => simp [hx]

/-- Every edge out of the last knot leads into it or to a closed node, if none is pending. -/
theorem mem_or_closed_of_adj (hx : x ∈ members) (hxy : g.Adj x y) : y ∈ members ∨ Closed t y := by
  rcases hs.path.1.followed x hx y hxy with h | h | h | h
  · simp at h
  · exact .inr h
  · exact .inl h
  · simp at h

/-- **The last knot is a component**, if no edge out of it is pending. -/
theorem joined_iff_mem_members (hx : x ∈ members) : g.Joined x y ↔ y ∈ members := by
  rw [Graph.joined_iff]
  constructor
  · rintro ⟨hxy, hyx⟩
    -- the way to `y` stays among the members and the closed nodes, and the latter are not left
    have hy : y ∈ members ∨ Closed t y := by
      refine hxy.mem_of_closed (P := fun z => z ∈ members ∨ Closed t z) ?_ (.inl hx)
      rintro v w (hv | hv) hvw
      · exact mem_or_closed_of_adj hs hv hvw
      · exact .inr (hs.closed.next v w hv hvw)
    refine hy.resolve_right fun hc => ?_
    exact not_closed_of_mem_members hs hx (hs.closed.leads hyx hc)
  · intro hy
    exact ⟨hs.path.1.joined x hx y hy, hs.path.1.joined y hy x hx⟩

theorem closedHolds_close : ClosedHolds g (close n members t) (n + 1) where
  size_eq := (size_close ..).trans hs.closed.size_eq
  next v w hv hvw := by
    rw [closed_close_iff hs] at hv ⊢
    rcases hv with hv | hv
    · exact mem_or_closed_of_adj hs hv hvw
    · exact .inr (hs.closed.next v w hv hvw)
  joined v w c hv := by
    -- the number of the new component has not been used
    have hn : ∀ z : Nat, t[z]? ≠ some (.closed n) := fun z hz =>
      Nat.lt_irrefl n ((hs.closed.found n).2 ⟨z, hz⟩)
    rw [getElem?_close_of_sound hs] at hv ⊢
    split at hv
    · next hvm =>
      obtain rfl : n = c := by simpa using hv
      rw [joined_iff_mem_members hs hvm]
      split
      · next hw => simp [hw]
      · next hw => simp [hw, hn w]
    · next hvm =>
      have hcn : n ≠ c := fun e => hn v (e ▸ hv)
      rw [← hs.closed.joined v w c hv]
      split
      · next hw =>
        have hw' := not_closed_of_mem_members hs hw
        constructor
        · intro h
          exact absurd (by simpa using h) hcn
        · intro h
          exact absurd ⟨c, h⟩ hw'
      · rfl
  found c := by
    obtain ⟨m, hm⟩ := List.exists_mem_of_ne_nil _ hs.path.1.nonempty
    constructor
    · intro hc
      rcases Nat.lt_or_eq_of_le (Nat.le_of_lt_succ hc) with hc | rfl
      · obtain ⟨z, hz⟩ := (hs.closed.found c).1 hc
        have hzm : z ∉ members := fun h => not_closed_of_mem_members hs h ⟨c, hz⟩
        exact ⟨z, by rw [getElem?_close_of_sound hs, if_neg hzm, hz]⟩
      · exact ⟨m, by rw [getElem?_close_of_sound hs, if_pos hm]⟩
    · rintro ⟨z, hz⟩
      rw [getElem?_close_of_sound hs] at hz
      split at hz
      · obtain rfl : n = c := by simpa using hz
        exact Nat.lt_succ_self n
      · exact Nat.lt_succ_of_lt ((hs.closed.found c).2 ⟨z, hz⟩)

theorem sound_close : Sound g ⟨roots, path, close n members t, n + 1⟩ where
  closed := closedHolds_close hs
  path := by
    refine hs.path.2.2.mono (fun y hy => (closed_close_iff hs).2 (.inr hy)) fun y hy => .inl ?_
    exact (closed_close_iff hs).2 (.inl (by simpa using hy))
  nodup := (List.nodup_append.1 hs.nodup).2.1
  mem_path x := by
    have hx := hs.mem_path x
    simp only [nodesOf_cons, List.mem_append] at hx ⊢
    rw [getElem?_close_of_sound hs]
    split
    · next hxm =>
      have hdisj := (List.nodup_append.1 hs.nodup).2.2 x hxm
      simp only [reduceCtorEq, Option.some.injEq, iff_false]
      exact fun h => hdisj x h rfl
    · next hxm => simpa [hxm] using hx
  unseen x hx := by
    rw [getElem?_close_of_sound hs] at hx
    split at hx
    · simp at hx
    · exact hs.unseen x hx

end Close

/-! ## Every move -/

section Follow

variable (hs : Sound g ⟨roots, ⟨members, y :: pending⟩ :: path, t, n⟩)
include hs

/-- Every node of the path leads to the end of a pending edge of its last knot. -/
theorem leads_of_pending (hx : x ∈ nodesOf (⟨members, y :: pending⟩ :: path)) : g.Leads x y := by
  obtain ⟨v, hv, hvy⟩ := hs.path.1.pending y List.mem_cons_self
  exact (hs.path.leads hx hv).trans hvy.leads

theorem sound_meet (hy : t[y]? = some .unseen) :
    Sound g (enter g ⟨roots, ⟨members, y :: pending⟩ :: path, t, n⟩ y
      (⟨members, pending⟩ :: path)) := by
  refine sound_enter hs.closed ?_ ?_ hs.nodup hs.mem_path hy fun x _ hx => hs.unseen x hx
  · -- the edge to `y` counts as followed, since `y` comes to stand above the knot
    have hup : PathHolds g t [y] (⟨members, y :: pending⟩ :: path) :=
      hs.path.mono (fun z hz => hz) (by simp)
    exact ⟨hup.1.follow (.inr (.inr (by simp))), hup.2⟩
  · intro l hl v hv
    refine leads_of_pending hs ?_
    rcases List.mem_cons.1 hl with rfl | hl
    · exact List.mem_append_left _ hv
    · exact List.mem_append_right _ (mem_nodesOf.2 ⟨l, hl, hv⟩)

theorem sound_back (hy : t[y]? = some .onStack) :
    Sound g ⟨roots, tie y ⟨members, pending⟩ path, t, n⟩ := by
  have hk := hs.path.1
  have hnodes : nodesOf (tie y ⟨members, pending⟩ path) =
      nodesOf (⟨members, y :: pending⟩ :: path) := nodesOf_tie
  refine ⟨hs.closed, ?_, hnodes ▸ hs.nodup, hnodes ▸ hs.mem_path, hs.unseen⟩
  have hexcept : HoldsExcept g t [] y ⟨members, pending⟩ := by
    refine ⟨hk.nonempty, hk.joined, fun z hz => hk.pending z (List.mem_cons_of_mem y hz), ?_⟩
    intro v hv z hvz
    rcases hk.followed v hv z hvz with hz | hz
    · exact (List.mem_cons.1 hz).imp id .inl
    · exact .inr (.inr hz)
  refine pathHolds_tie hexcept hs.path.2.1 hs.path.2.2 ((hs.mem_path y).2 hy) ?_
  exact fun v hv => leads_of_pending hs (List.mem_append_left _ hv)

theorem sound_leave (hu : t[y]? ≠ some .unseen) (hp : t[y]? ≠ some .onStack) :
    Sound g ⟨roots, ⟨members, pending⟩ :: path, t, n⟩ := by
  have hc : Closed t y := by
    obtain ⟨v, -, hvy⟩ := hs.path.1.pending y List.mem_cons_self
    have hlt : y < t.size := hs.closed.size_eq ▸ hvy.lt.2
    rw [Array.getElem?_eq_getElem hlt] at hu hp
    cases hst : t[y] with
    | unseen => simp [hst] at hu
    | onStack => simp [hst] at hp
    | closed c => exact ⟨c, by simp [hlt, hst]⟩
  exact ⟨hs.closed, ⟨hs.path.1.follow (.inl hc), hs.path.2⟩, hs.nodup, hs.mem_path, hs.unseen⟩

end Follow

/-- **Every move keeps the invariant.** -/
theorem Move.sound (h : Move g s s') (hs : Sound g s) : Sound g s' := by
  cases h with
  | @skip roots t n x hx =>
    refine ⟨hs.closed, hs.path, hs.nodup, hs.mem_path, fun v hv => ?_⟩
    refine (List.mem_cons.1 (hs.unseen v hv)).resolve_left ?_
    rintro rfl
    exact hx hv
  | start hx =>
    refine sound_enter hs.closed trivial (by simp) hs.nodup hs.mem_path hx fun v hvx hv => ?_
    exact (List.mem_cons.1 (hs.unseen v hv)).resolve_left hvx
  | finish => exact sound_close hs
  | meet hy => exact sound_meet hs hy
  | back hy => exact sound_back hs hy
  | leave hu hp => exact sound_leave hs hu hp

/-- **Every move lowers the work.** -/
theorem Move.work_lt (h : Move g s s') (hs : Sound g s) : work g s' < work g s := by
  have hsize := hs.closed.size_eq
  cases h with
  | skip hx => simp [work]
  | start hx =>
    rw [work_enter hsize hx]
    simp [work]
  | @finish roots path t n members =>
    have hu : unseenWork g (close n members t) g.nodes = unseenWork g t g.nodes := by
      refine unseenWork_close fun x hx => ?_
      rw [(hs.mem_path x).1 (List.mem_append_left _ hx)]
      simp
    simp only [work, hu, pathWork_cons]
    omega
  | meet hy =>
    rw [work_enter hsize hy]
    simp only [work, pathWork_cons, List.length_cons]
    omega
  | @back roots path t n members pending y hy =>
    have hle : pathWork (tie y ⟨members, pending⟩ path) ≤ pathWork (⟨members, pending⟩ :: path) :=
      pathWork_tie_le
    simp only [work, pathWork_cons, List.length_cons] at hle ⊢
    omega
  | leave hu hp =>
    simp only [work, pathWork_cons, List.length_cons]
    omega

/-! ## The whole search -/

/-- **As many steps as there is work** bring the search to its end. -/
theorem run_done (hs : Sound g s) (hw : work g s ≤ n) : (run g n s).Done := by
  induction n generalizing s with
  | zero =>
    by_contra hd
    have : work g (step g s) < work g s := (step_move hd).work_lt hs
    omega
  | succ n ih =>
    by_cases hd : s.Done
    · rwa [run_of_done hd]
    · have hm : Move g s (step g s) := step_move hd
      have := hm.work_lt hs
      exact ih (hm.sound hs) (by omega)

theorem getElem?_begin : (begin g).standing[x]? = if x < g.size then some .unseen else none := by
  simp [begin, Array.getElem?_replicate]

theorem sound_begin (g : Graph) : Sound g (begin g) where
  closed := by
    have hno : ∀ x c : Nat, (begin g).standing[x]? ≠ some (.closed c) := fun x c => by
      rw [getElem?_begin]
      split <;> simp
    refine ⟨by simp [begin], ?_, fun x y c hx => absurd hx (hno x c), fun c => ?_⟩
    · rintro x y ⟨c, hc⟩
      exact absurd hc (hno x c)
    · exact ⟨fun hc => absurd hc (Nat.not_lt_zero c), fun ⟨x, hx⟩ => absurd hx (hno x c)⟩
  path := trivial
  nodup := .nil
  mem_path x := by
    rw [getElem?_begin]
    split <;> simp [begin]
  unseen x hx := by
    rw [getElem?_begin] at hx
    split at hx
    · next hlt => exact Graph.mem_nodes.2 hlt
    · simp at hx

/-- At first every node is unseen, with all its edges. -/
theorem unseenWork_begin {l : List Nat} (hl : ∀ x ∈ l, x < g.size) :
    unseenWork g (begin g).standing l =
      l.length + l.foldr (fun x n => (g.next x).size + n) 0 := by
  induction l with
  | nil => rfl
  | cons x l ih =>
    have hrest := ih fun y hy => hl y (List.mem_cons_of_mem x hy)
    unfold unseenWork at hrest ⊢
    rw [List.foldr_cons, hrest, getElem?_begin, if_pos (hl x List.mem_cons_self), if_pos rfl,
      List.foldr_cons, List.length_cons]
    omega

/-- The counted number of steps is the work before the first step. -/
theorem work_begin (g : Graph) : work g (begin g) = g.searchSteps := by
  have hnodes := unseenWork_begin fun x (hx : x ∈ g.nodes) => Graph.mem_nodes.1 hx
  have hlen : g.nodes.length = g.size := by simp [Graph.nodes]
  have hroots : (begin g).roots = g.nodes := rfl
  have hpath : pathWork (begin g).path = 0 := rfl
  rw [work, hnodes, hroots, hpath, hlen, Graph.searchSteps, Graph.edgeCount]
  omega

/-- **The search ends sound**, with every node in a closed component. -/
theorem run_begin (g : Graph) :
    ClosedHolds g ((begin g).run g g.searchSteps).standing ((begin g).run g g.searchSteps).found ∧
      ∀ x < g.size, Closed ((begin g).run g g.searchSteps).standing x := by
  have hs : Sound g ((begin g).run g g.searchSteps) :=
    run_induct (fun _ _ hm hs => hm.sound hs) _ (sound_begin g)
  obtain ⟨hroots, hpath⟩ := run_done (sound_begin g) (Nat.le_of_eq (work_begin g))
  refine ⟨hs.closed, fun x hx => ?_⟩
  have hlt : x < ((begin g).run g g.searchSteps).standing.size := hs.closed.size_eq ▸ hx
  have hget := Array.getElem?_eq_getElem hlt
  cases hst : ((begin g).run g g.searchSteps).standing[x] with
  | unseen =>
    have hmem := hs.unseen x (by rw [hget, hst])
    rw [hroots] at hmem
    exact absurd hmem List.not_mem_nil
  | onStack =>
    have hmem := (hs.mem_path x).2 (by rw [hget, hst])
    rw [hpath] at hmem
    exact absurd hmem List.not_mem_nil
  | closed c => exact ⟨c, by rw [hget, hst]⟩

end ChainGrammar.Search

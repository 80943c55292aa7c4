import ChainGrammar.Proofs.Paths
import ChainGrammar.Proofs.SearchMoves

/-!
# What the path of the search knows

* `Search.Closed`: a node of a component that has been closed.
* `Knot.Holds`: the nodes of a knot lead to each other, and every edge out of them is pending or
  has been followed to a closed node, into the knot or further up the path.
* `Search.PathHolds`: all knots of a path hold, and lower knots lead to higher ones.
* `Search.HoldsExcept.merge`: two knots that lead to each other are tied into one.
* `Search.pathHolds_tie`: **tying the path at the end of an edge back into it** keeps this.
-/

namespace ChainGrammar

variable {g : Graph} {t t' : Array Standing} {k : Knot} {path : List Knot}
  {above above' members pending : List Nat} {x y : Nat}

/-- The node belongs to a component that has been closed. -/
def Search.Closed (t : Array Standing) (x : Nat) : Prop := ∃ c, t[x]? = some (.closed c)

/-- What the search knows of a knot with the nodes `above` further up the path. -/
structure Knot.Holds (g : Graph) (t : Array Standing) (above : List Nat) (k : Knot) : Prop where
  nonempty : k.members ≠ []
  joined : ∀ x ∈ k.members, ∀ y ∈ k.members, g.Leads x y
  pending : ∀ y ∈ k.pending, ∃ x ∈ k.members, g.Adj x y
  followed : ∀ x ∈ k.members, ∀ y, g.Adj x y →
    y ∈ k.pending ∨ Search.Closed t y ∨ y ∈ k.members ∨ y ∈ above

/-- Every node of the lower knot leads to every node of the upper one. -/
def Knot.LeadsTo (g : Graph) (lower upper : Knot) : Prop :=
  ∀ x ∈ lower.members, ∀ y ∈ upper.members, g.Leads x y

/-- What is known of a knot stays known while closed nodes stay closed and the nodes above it are
closed or stay there. -/
theorem Knot.Holds.mono (h : k.Holds g t above)
    (hclosed : ∀ y, Search.Closed t y → Search.Closed t' y)
    (habove : ∀ y ∈ above, Search.Closed t' y ∨ y ∈ above') : k.Holds g t' above' := by
  refine ⟨h.nonempty, h.joined, h.pending, fun x hx y hxy => ?_⟩
  rcases h.followed x hx y hxy with hy | hy | hy | hy
  · exact .inl hy
  · exact .inr (.inl (hclosed y hy))
  · exact .inr (.inr (.inl hy))
  · exact .inr ((habove y hy).elim .inl fun h => .inr (.inr h))

/-- An edge has been followed when its end is closed, in the knot or above it. -/
theorem Knot.Holds.follow (h : Knot.Holds g t above ⟨members, y :: pending⟩)
    (hy : Search.Closed t y ∨ y ∈ members ∨ y ∈ above) :
    Knot.Holds g t above ⟨members, pending⟩ := by
  refine ⟨h.nonempty, h.joined, fun z hz => h.pending z (List.mem_cons_of_mem y hz), ?_⟩
  intro x hx z hxz
  rcases h.followed x hx z hxz with hz | hz
  · rcases List.mem_cons.1 hz with rfl | hz
    · exact .inr hy
    · exact .inl hz
  · exact .inr hz

namespace Search

/-- What the search knows of a path with the nodes `above` further up. -/
def PathHolds (g : Graph) (t : Array Standing) : List Nat → List Knot → Prop
  | _, [] => True
  | above, k :: path => k.Holds g t above ∧ (∀ l ∈ path, l.LeadsTo g k) ∧
    PathHolds g t (k.members ++ above) path

/-- The nodes of a path. -/
def nodesOf (path : List Knot) : List Nat := path.flatMap Knot.members

@[simp] theorem nodesOf_nil : nodesOf [] = [] := rfl

@[simp] theorem nodesOf_cons : nodesOf (k :: path) = k.members ++ nodesOf path := rfl

theorem mem_nodesOf : x ∈ nodesOf path ↔ ∃ k ∈ path, x ∈ k.members := List.mem_flatMap

/-- What is known of a path stays known while closed nodes stay closed and the nodes above it are
closed or stay there. -/
theorem PathHolds.mono (h : PathHolds g t above path) (hclosed : ∀ y, Closed t y → Closed t' y)
    (habove : ∀ y ∈ above, Closed t' y ∨ y ∈ above') : PathHolds g t' above' path := by
  induction path generalizing above above' with
  | nil => trivial
  | cons k path ih =>
    obtain ⟨hk, hlower, hpath⟩ := h
    refine ⟨hk.mono hclosed habove, hlower, ih hpath fun y hy => ?_⟩
    rcases List.mem_append.1 hy with hy | hy
    · exact .inr (List.mem_append_left _ hy)
    · exact (habove y hy).imp id (List.mem_append_right _)

/-- A node of the path leads to every node of its last knot. -/
theorem PathHolds.leads (h : PathHolds g t above (k :: path)) (hx : x ∈ nodesOf (k :: path))
    (hy : y ∈ k.members) : g.Leads x y := by
  obtain ⟨hk, hlower, -⟩ := h
  obtain ⟨l, hl, hxl⟩ := mem_nodesOf.1 hx
  rcases List.mem_cons.1 hl with rfl | hl
  · exact hk.joined x hxl y hy
  · exact hlower l hl x hxl y hy

/-! ## Tying knots -/

/-- Tying knots keeps the nodes of the path, in their order. -/
theorem nodesOf_tie : nodesOf (tie x k path) = nodesOf (k :: path) := by
  induction path generalizing k with
  | nil => rfl
  | cons l path ih =>
    rw [tie]
    split
    · rfl
    · rw [ih]
      simp

/-- What the search knows of a knot with an edge to `x` that has not been followed. -/
structure HoldsExcept (g : Graph) (t : Array Standing) (above : List Nat) (x : Nat) (k : Knot) :
    Prop where
  nonempty : k.members ≠ []
  joined : ∀ v ∈ k.members, ∀ w ∈ k.members, g.Leads v w
  pending : ∀ y ∈ k.pending, ∃ v ∈ k.members, g.Adj v y
  followed : ∀ v ∈ k.members, ∀ y, g.Adj v y →
    y = x ∨ y ∈ k.pending ∨ Closed t y ∨ y ∈ k.members ∨ y ∈ above

/-- A knot that has `x` itself has followed the edges to it. -/
theorem HoldsExcept.holds (h : HoldsExcept g t above x k) (hx : x ∈ k.members) :
    k.Holds g t above := by
  refine ⟨h.nonempty, h.joined, h.pending, fun v hv y hvy => ?_⟩
  rcases h.followed v hv y hvy with rfl | hy
  · exact .inr (.inr (.inl hx))
  · exact hy

/-- **Two knots whose nodes lead to each other** are tied into one. -/
theorem HoldsExcept.merge {l : Knot} (hk : HoldsExcept g t above x k)
    (hl : l.Holds g t (k.members ++ above)) (hkl : k.LeadsTo g l) (hlk : l.LeadsTo g k) :
    HoldsExcept g t above x ⟨k.members ++ l.members, k.pending ++ l.pending⟩ := by
  refine ⟨by simp [hk.nonempty], ?_, ?_, ?_⟩
  · intro v hv w hw
    rcases List.mem_append.1 hv with hv | hv <;> rcases List.mem_append.1 hw with hw | hw
    · exact hk.joined v hv w hw
    · exact hkl v hv w hw
    · exact hlk v hv w hw
    · exact hl.joined v hv w hw
  · intro y hy
    rcases List.mem_append.1 hy with hy | hy
    · obtain ⟨v, hv, hvy⟩ := hk.pending y hy
      exact ⟨v, List.mem_append_left _ hv, hvy⟩
    · obtain ⟨v, hv, hvy⟩ := hl.pending y hy
      exact ⟨v, List.mem_append_right _ hv, hvy⟩
  · intro v hv y hvy
    simp only [List.mem_append]
    rcases List.mem_append.1 hv with hv | hv
    · have hy := hk.followed v hv y hvy
      tauto
    · have hy := hl.followed v hv y hvy
      rw [List.mem_append] at hy
      tauto

/-- **Tying the path at the end of an edge back into it.** The last knot may leave the edges to
that node `x` open. -/
theorem pathHolds_tie (hk : HoldsExcept g t above x k) (hlower : ∀ l ∈ path, l.LeadsTo g k)
    (hpath : PathHolds g t (k.members ++ above) path) (hx : x ∈ nodesOf (k :: path))
    (hkx : ∀ v ∈ k.members, g.Leads v x) : PathHolds g t above (tie x k path) := by
  induction path generalizing k with
  | nil => exact ⟨hk.holds (by simpa using hx), hlower, hpath⟩
  | cons l path ih =>
    rw [tie]
    split
    · next hxk => exact ⟨hk.holds hxk, hlower, hpath⟩
    · next hxk =>
      have hxl : x ∈ nodesOf (l :: path) := by
        rw [nodesOf_cons] at hx
        exact (List.mem_append.1 hx).resolve_left hxk
      -- from `k` the edge leads to `x`, and from `x` the path leads up to `l`
      have hkl : k.LeadsTo g l := fun v hv w hw => (hkx v hv).trans (hpath.leads hxl hw)
      have hlk : l.LeadsTo g k := hlower l List.mem_cons_self
      refine ih (hk.merge hpath.1 hkl hlk) ?_ ?_ (by simpa using hx) ?_
      · intro m hm v hv w hw
        rcases List.mem_append.1 hw with hw | hw
        · exact hlower m (List.mem_cons_of_mem l hm) v hv w hw
        · exact hpath.2.1 m hm v hv w hw
      · refine hpath.2.2.mono (fun y hy => hy) fun y hy => .inr ?_
        simp only [List.mem_append] at hy ⊢
        tauto
      · intro v hv
        rcases List.mem_append.1 hv with hv | hv
        · exact hkx v hv
        · obtain ⟨w, hw⟩ := List.exists_mem_of_ne_nil _ hk.nonempty
          exact (hlk v hv w hw).trans (hkx w hw)

end Search

end ChainGrammar

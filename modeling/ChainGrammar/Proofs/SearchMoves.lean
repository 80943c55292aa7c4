import Mathlib.Tactic.Common
import ChainGrammar.Proofs.Edges
import ChainGrammar.Proofs.Knots

/-!
# The moves of the search, and its end

* `Search.Move`: what a step of the search can do, one case for each kind of step.
* `Search.step_move`: a step of a search that is not over is one of these moves.
* `Search.run_eq_of_done`: a search comes to one end only.
* `Search.run_induct`: what every move keeps holds after a run.
* `Search.work`: the work that is left; `Search.work_enter` says what it takes to enter a node.
-/

namespace ChainGrammar.Search

/-- No root is left to be tried and the path is empty. -/
def Done (s : Search) : Prop := s.roots = [] ∧ s.path = []

/-- What a step of the search can do. -/
inductive Move (g : Graph) : Search → Search → Prop
  /-- A root has been met before. -/
  | skip {roots t n x} (hx : t[x]? ≠ some .unseen) :
    Move g ⟨x :: roots, [], t, n⟩ ⟨roots, [], t, n⟩
  /-- A new root starts a path. -/
  | start {roots t n x} (hx : t[x]? = some .unseen) :
    Move g ⟨x :: roots, [], t, n⟩ (enter g ⟨roots, [], t, n⟩ x [])
  /-- The last knot has no edges left. -/
  | finish {roots path t n members} :
    Move g ⟨roots, ⟨members, []⟩ :: path, t, n⟩ ⟨roots, path, close n members t, n + 1⟩
  /-- An edge enters a new node. -/
  | meet {roots path t n members pending y} (hy : t[y]? = some .unseen) :
    Move g ⟨roots, ⟨members, y :: pending⟩ :: path, t, n⟩
      (enter g ⟨roots, ⟨members, y :: pending⟩ :: path, t, n⟩ y (⟨members, pending⟩ :: path))
  /-- An edge goes back into the path. -/
  | back {roots path t n members pending y} (hy : t[y]? = some .onStack) :
    Move g ⟨roots, ⟨members, y :: pending⟩ :: path, t, n⟩
      ⟨roots, tie y ⟨members, pending⟩ path, t, n⟩
  /-- An edge enters a closed component. -/
  | leave {roots path t n members pending y} (hu : t[y]? ≠ some .unseen)
      (hp : t[y]? ≠ some .onStack) :
    Move g ⟨roots, ⟨members, y :: pending⟩ :: path, t, n⟩ ⟨roots, ⟨members, pending⟩ :: path, t, n⟩

variable {g : Graph} {s s' : Search} {t t' : Array Standing} {k : Knot} {path below : List Knot}
  {members pending roots : List Nat} {n x y : Nat}

/-- **A step** of a search that is not over is a move. -/
theorem step_move (h : ¬s.Done) : Move g s (step g s) := by
  obtain ⟨roots, path, t, n⟩ := s
  match path with
  | [] =>
    match roots with
    | [] => exact absurd ⟨rfl, rfl⟩ h
    | x :: roots =>
      simp only [step]
      split
      · next hx => exact .start hx
      · next hx => exact .skip hx
  | ⟨members, []⟩ :: path => exact .finish
  | ⟨members, y :: pending⟩ :: path =>
    simp only [step]
    split
    · next hy => exact .meet hy
    · next hy => exact .back hy
    · next hu hp => exact .leave hu hp

theorem step_done (h : s.Done) : step g s = s := by
  obtain ⟨roots, path, t, n⟩ := s
  obtain ⟨rfl, rfl⟩ : roots = [] ∧ path = [] := h
  rfl

theorem run_of_done (h : s.Done) : ∀ n, run g n s = s
  | 0 => rfl
  | n + 1 => by rw [run, step_done h, run_of_done h n]

theorem run_add (m n : Nat) : run g (m + n) s = run g n (run g m s) := by
  induction m generalizing s with
  | zero => rw [Nat.zero_add, run]
  | succ m ih => rw [Nat.succ_add, run, run, ih]

/-- A search comes to one end only. -/
theorem run_eq_of_done {m n : Nat} (hm : (run g m s).Done) (hn : (run g n s).Done) :
    run g m s = run g n s :=
  calc run g m s
    _ = run g n (run g m s) := (run_of_done hm n).symm
    _ = run g m (run g n s) := by rw [← run_add, ← run_add, Nat.add_comm]
    _ = run g n s := run_of_done hn m

/-- What every move keeps, every number of steps keeps. -/
theorem run_induct {motive : Search → Prop} (hmove : ∀ s s', Move g s s' → motive s → motive s')
    (n : Nat) (hs : motive s) : motive (run g n s) := by
  induction n generalizing s with
  | zero => exact hs
  | succ n ih =>
    by_cases hd : s.Done
    · rw [run_of_done hd]
      exact hs
    · exact ih (hmove s _ (step_move hd) hs)

/-! ## Standings -/

theorem getElem?_setIfInBounds_onStack (hy : t[y]? = some .unseen) :
    (t.setIfInBounds y .onStack)[x]? = if x = y then some .onStack else t[x]? := by
  obtain ⟨hlt, -⟩ := Array.getElem?_eq_some_iff.1 hy
  rw [Array.getElem?_setIfInBounds]
  by_cases hxy : x = y
  · simp [← hxy, hxy ▸ hlt]
  · simp [hxy, Ne.symm hxy]

theorem size_close (c : Nat) (members : List Nat) (t : Array Standing) :
    (close c members t).size = t.size := by
  induction members generalizing t with
  | nil => rfl
  | cons y ys ih => exact (ih _).trans Array.size_setIfInBounds

theorem getElem?_close (c : Nat) (members : List Nat) (t : Array Standing) (x : Nat) :
    (close c members t)[x]? =
      if x ∈ members ∧ x < t.size then some (.closed c) else t[x]? := by
  induction members generalizing t with
  | nil => simp [close]
  | cons y ys ih =>
    have hcons : close c (y :: ys) t = close c ys (t.setIfInBounds y (.closed c)) := rfl
    rw [hcons, ih, Array.size_setIfInBounds, Array.getElem?_setIfInBounds]
    by_cases hx : x < t.size <;> by_cases hxy : y = x <;> simp_all [eq_comm]

/-- Meeting a node leaves one less unseen. -/
theorem count_unseen_setIfInBounds (hy : t[y]? = some .unseen) :
    (t.setIfInBounds y .onStack).count .unseen + 1 = t.count .unseen := by
  obtain ⟨hlt, hty⟩ := Array.getElem?_eq_some_iff.1 hy
  have hpos : 0 < t.count .unseen := Array.count_pos_iff.2 (hty ▸ Array.getElem_mem hlt)
  rw [Array.setIfInBounds, dif_pos hlt, Array.count_set, hty]
  simp only [BEq.rfl, if_true, reduceCtorEq, beq_iff_eq, if_false]
  omega

theorem count_unseen_close (h : ∀ x ∈ members, t[x]? ≠ some .unseen) :
    (close n members t).count .unseen = t.count .unseen := by
  induction members generalizing t with
  | nil => rfl
  | cons y ys ih =>
    have hy := h y List.mem_cons_self
    have hset : (t.setIfInBounds y (.closed n)).count .unseen = t.count .unseen := by
      unfold Array.setIfInBounds
      split
      · next hlt =>
        have hty : t[y] ≠ .unseen := by simpa [hlt] using hy
        simp [Array.count_set, hty]
      · rfl
    refine (ih fun x hx => ?_).trans hset
    rw [Array.getElem?_setIfInBounds]
    split
    · split <;> simp
    · exact h x (List.mem_cons_of_mem y hx)

/-! ## The work that is left -/

/-- The work for the nodes of a list that have not been met: to enter them and to follow the edges
out of them. -/
def unseenWork (g : Graph) (t : Array Standing) (l : List Nat) : Nat :=
  l.foldr (fun x n => (if t[x]? = some .unseen then 1 + (g.next x).size else 0) + n) 0

/-- The work for the knots of a path: to close them and to follow the edges out of them. -/
def pathWork (path : List Knot) : Nat := path.foldr (fun k n => 1 + k.pending.length + n) 0

/-- The work that is left to a search. -/
def work (g : Graph) (s : Search) : Nat :=
  s.roots.length + unseenWork g s.standing g.nodes + pathWork s.path

theorem unseenWork_congr {l : List Nat}
    (h : ∀ x ∈ l, t[x]? = some .unseen ↔ t'[x]? = some .unseen) :
    unseenWork g t l = unseenWork g t' l :=
  Graph.weightOf_congr (fun x => 1 + (g.next x).size) h

/-- Meeting a node takes the work for it away. -/
theorem unseenWork_setIfInBounds {l : List Nat} (hl : l.Nodup) (hy : t[y]? = some .unseen)
    (hyl : y ∈ l) :
    unseenWork g (t.setIfInBounds y .onStack) l + (1 + (g.next y).size) = unseenWork g t l := by
  refine Graph.weightOf_erase (P := fun x => t[x]? = some .unseen)
    (fun x => 1 + (g.next x).size) hl hyl hy fun x => ?_
  rw [getElem?_setIfInBounds_onStack hy]
  by_cases hxy : x = y <;> simp [hxy]

theorem unseenWork_close {l : List Nat} (h : ∀ x ∈ members, t[x]? ≠ some .unseen) :
    unseenWork g (close n members t) l = unseenWork g t l := by
  refine unseenWork_congr fun x _ => ?_
  rw [getElem?_close]
  split
  · next hx => simp [h x hx.1]
  · rfl

theorem pathWork_cons : pathWork (k :: path) = 1 + k.pending.length + pathWork path := rfl

/-- Tying knots adds no work. -/
theorem pathWork_tie_le : pathWork (tie x k path) ≤ pathWork (k :: path) := by
  induction path generalizing k with
  | nil => exact Nat.le_refl _
  | cons l path ih =>
    rw [tie]
    split
    · exact Nat.le_refl _
    · refine Nat.le_trans ih ?_
      simp only [pathWork_cons, List.length_append]
      omega

/-- Entering a node moves its work to the path. -/
theorem work_enter (hg : t.size = g.size) (hy : t[y]? = some .unseen) :
    work g (enter g ⟨roots, path, t, n⟩ y below) =
      roots.length + unseenWork g t g.nodes + pathWork below := by
  have hyg : y ∈ g.nodes := by
    rw [Graph.mem_nodes, ← hg]
    exact (Array.getElem?_eq_some_iff.1 hy).1
  have hu := unseenWork_setIfInBounds (g := g) List.nodup_range hy hyg
  have hlen : (g.next y).toList.length = (g.next y).size := rfl
  unfold work enter
  simp only [pathWork_cons, hlen]
  unfold Graph.nodes
  omega

end ChainGrammar.Search

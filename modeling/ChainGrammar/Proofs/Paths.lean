import Mathlib.Data.List.Chain
import Mathlib.Logic.Relation
import ChainGrammar.Graph.Basic

/-!
# Paths

* `Graph.Reaches`: a path of one edge or more.
* `Graph.Leads`: a path of any number of edges.
* `Graph.Joined`: nodes that are the same or reach each other; `Graph.joined_iff` puts it as
  paths of any length both ways.
* `Graph.Acyclic`: no node reaches itself.
* `Graph.OnCycle`: a closed walk through a node; `Graph.onCycle_iff` says that it reaches itself.
-/

namespace ChainGrammar.Graph

open Relation

variable {g : Graph} {x y z : Nat}

/-- There is a path of at least one edge from `x` to `y`. -/
def Reaches (g : Graph) (x y : Nat) : Prop := TransGen g.Adj x y

/-- There is a path from `x` to `y`, of no edges if they are the same. -/
def Leads (g : Graph) (x y : Nat) : Prop := ReflTransGen g.Adj x y

/-- `x` and `y` are the same node, or each reaches the other. -/
def Joined (g : Graph) (x y : Nat) : Prop := x = y ∨ g.Reaches x y ∧ g.Reaches y x

/-- No node reaches itself. -/
def Acyclic (g : Graph) : Prop := ∀ x, ¬g.Reaches x x

/-- There is a closed walk of at least one edge through `x`. -/
def OnCycle (g : Graph) (x : Nat) : Prop := ∃ xs : List Nat, (x :: (xs ++ [x])).IsChain g.Adj

theorem leads_iff : g.Leads x y ↔ x = y ∨ g.Reaches x y := by
  unfold Leads Reaches
  rw [reflTransGen_iff_eq_or_transGen, eq_comm]

theorem Adj.reaches (h : g.Adj x y) : g.Reaches x y := TransGen.single h

theorem Adj.leads (h : g.Adj x y) : g.Leads x y := ReflTransGen.single h

theorem Reaches.leads (h : g.Reaches x y) : g.Leads x y := TransGen.to_reflTransGen h

theorem Reaches.trans (h : g.Reaches x y) (h' : g.Reaches y z) : g.Reaches x z :=
  TransGen.trans h h'

theorem Leads.refl (g : Graph) (x : Nat) : g.Leads x x := ReflTransGen.refl

theorem Leads.trans (h : g.Leads x y) (h' : g.Leads y z) : g.Leads x z := ReflTransGen.trans h h'

theorem Leads.reaches_of_ne (h : g.Leads x y) (hne : x ≠ y) : g.Reaches x y :=
  (leads_iff.1 h).resolve_left hne

/-- A path from `x` starts with an edge out of `x`. -/
theorem reaches_iff_head : g.Reaches x y ↔ ∃ z, g.Adj x z ∧ g.Leads z y := by
  unfold Reaches Leads
  exact TransGen.head'_iff

/-- A path into `y` ends with an edge into `y`. -/
theorem reaches_iff_tail : g.Reaches x y ↔ ∃ z, g.Leads x z ∧ g.Adj z y := by
  unfold Reaches Leads
  exact TransGen.tail'_iff

/-- A path is a list of nodes, each with an edge to the next one. -/
theorem reaches_iff_isChain :
    g.Reaches x y ↔ ∃ xs : List Nat, (x :: (xs ++ [y])).IsChain g.Adj := by
  constructor
  · intro h
    induction h using TransGen.head_induction_on with
    | single hxy => exact ⟨[], by simpa using hxy⟩
    | head hxz _ ih =>
      obtain ⟨xs, hxs⟩ := ih
      exact ⟨_ :: xs, List.isChain_cons_cons.2 ⟨hxz, hxs⟩⟩
  · rintro ⟨xs, hxs⟩
    induction xs generalizing x with
    | nil => exact Adj.reaches (List.isChain_cons_cons.1 hxs).1
    | cons z xs ih =>
      obtain ⟨hxz, hzy⟩ := List.isChain_cons_cons.1 hxs
      exact hxz.reaches.trans (ih hzy)

theorem onCycle_iff : g.OnCycle x ↔ g.Reaches x x := reaches_iff_isChain.symm

/-- Both ends of a path are nodes. -/
theorem Reaches.lt (h : g.Reaches x y) : x < g.size ∧ y < g.size := by
  obtain ⟨_, hx, -⟩ := reaches_iff_head.1 h
  obtain ⟨_, -, hy⟩ := reaches_iff_tail.1 h
  exact ⟨hx.lt.1, hy.lt.2⟩

/-- **Joined nodes** have paths of any length both ways. -/
theorem joined_iff : g.Joined x y ↔ g.Leads x y ∧ g.Leads y x := by
  rw [Joined, leads_iff, leads_iff]
  constructor
  · rintro (rfl | ⟨h, h'⟩)
    · exact ⟨.inl rfl, .inl rfl⟩
    · exact ⟨.inr h, .inr h'⟩
  · rintro ⟨rfl | h, h'⟩
    · exact .inl rfl
    · rcases h' with rfl | h'
      · exact .inl rfl
      · exact .inr ⟨h, h'⟩

/-- A set of nodes that no edge leaves is left by no path. -/
theorem Leads.mem_of_closed {P : Nat → Prop} (hP : ∀ x y, P x → g.Adj x y → P y)
    (h : g.Leads x y) (hx : P x) : P y := by
  induction h with
  | refl => exact hx
  | tail _ hyz ih => exact hP _ _ ih hyz

end ChainGrammar.Graph

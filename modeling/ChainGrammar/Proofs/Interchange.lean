import ChainGrammar.Proofs.Evidence
import ChainGrammar.Proofs.Slots

/-!
# Slots without numbers

The slots of a graph, put in terms of its edge relation alone, and those of an automaton in terms
of which symbols follow each other. Neither depends on how nodes, components or slots are numbered.

* `Linked`, `Precedes`, `Interchangeable`: elements that reach each other, an edge between two
  classes of them, and elements with the same classes before them and after them.
* `Graph.IsSlots.number_eq_iff_interchangeable`: **nodes share a slot if they are
  interchangeable**.
* `Renames.interchangeable_iff`: other names for the elements change nothing.
* `Automaton.number_rank_eq_iff`: **symbols share a slot if they are interchangeable** in what the
  sequences show.
-/

namespace ChainGrammar

open Relation

/-! ## Relations -/

section Relations

variable {β γ : Type} {R : β → β → Prop} {S : γ → γ → Prop} {D : β → Prop} {f : β → γ} {x y z : β}

/-- The elements are the same or there are paths both ways. -/
def Linked (R : β → β → Prop) (x y : β) : Prop := x = y ∨ TransGen R x y ∧ TransGen R y x

/-- The elements are not linked, and there is an edge between elements linked to them. -/
def Precedes (R : β → β → Prop) (x y : β) : Prop :=
  ¬Linked R x y ∧ ∃ v w, R v w ∧ Linked R v x ∧ Linked R w y

/-- The same elements precede both, and both precede the same elements. -/
def Interchangeable (R : β → β → Prop) (x y : β) : Prop :=
  (∀ z, Precedes R z x ↔ Precedes R z y) ∧ ∀ z, Precedes R x z ↔ Precedes R y z

/-- The elements with a property have the names that `f` gives them, and edges are named by their
ends. -/
structure Renames (f : β → γ) (D : β → Prop) (R : β → β → Prop) (S : γ → γ → Prop) : Prop where
  inj : ∀ x y, D x → D y → (f x = f y ↔ x = y)
  ends : ∀ x y, R x y → D x ∧ D y
  rel_iff : ∀ v w, S v w ↔ ∃ x y, R x y ∧ v = f x ∧ w = f y

/-- An element linked to the end of an edge is the end of an edge. -/
theorem Linked.of_ends (hR : ∀ x y, R x y → D x ∧ D y) (h : Linked R x y) (hx : D x) : D y := by
  rcases h with rfl | ⟨hxy, -⟩
  · exact hx
  · obtain ⟨z, -, hzy⟩ := TransGen.tail'_iff.1 hxy
    exact (hR z y hzy).2

/-- What precedes or is preceded is linked to the end of an edge. -/
theorem Precedes.of_ends (hR : ∀ x y, R x y → D x ∧ D y) (h : Precedes R x y) : D x ∧ D y := by
  obtain ⟨-, v, w, hvw, hvx, hwy⟩ := h
  obtain ⟨hv, hw⟩ := hR v w hvw
  exact ⟨hvx.of_ends hR hv, hwy.of_ends hR hw⟩

/-- Only the ends of edges have to be compared. -/
theorem interchangeable_iff_of_ends (hR : ∀ x y, R x y → D x ∧ D y) :
    Interchangeable R x y ↔ (∀ z, D z → (Precedes R z x ↔ Precedes R z y)) ∧
      ∀ z, D z → (Precedes R x z ↔ Precedes R y z) := by
  refine and_congr ⟨fun h z _ => h z, fun h z => ?_⟩ ⟨fun h z _ => h z, fun h z => ?_⟩
  · by_cases hz : D z
    · exact h z hz
    · exact ⟨fun hzx => absurd (hzx.of_ends hR).1 hz, fun hzy => absurd (hzy.of_ends hR).1 hz⟩
  · by_cases hz : D z
    · exact h z hz
    · exact ⟨fun hxz => absurd (hxz.of_ends hR).2 hz, fun hyz => absurd (hyz.of_ends hR).2 hz⟩

namespace Renames

variable (h : Renames f D R S)
include h

/-- A path goes from name to name. -/
theorem transGen_iff_exists (hx : D x) {v : γ} :
    TransGen S (f x) v ↔ ∃ y, D y ∧ v = f y ∧ TransGen R x y := by
  constructor
  · intro hxv
    induction hxv with
    | single hxv =>
      obtain ⟨x', y, hxy, hxx', rfl⟩ := (h.rel_iff _ _).1 hxv
      obtain ⟨hx', hy⟩ := h.ends x' y hxy
      obtain rfl := (h.inj x x' hx hx').1 hxx'
      exact ⟨y, hy, rfl, .single hxy⟩
    | tail _ hvw ih =>
      obtain ⟨y, hy, rfl, hxy⟩ := ih
      obtain ⟨y', z, hyz, hyy', rfl⟩ := (h.rel_iff _ _).1 hvw
      obtain ⟨hy', hz⟩ := h.ends y' z hyz
      obtain rfl := (h.inj y y' hy hy').1 hyy'
      exact ⟨z, hz, rfl, hxy.tail hyz⟩
  · rintro ⟨y, -, rfl, hxy⟩
    exact TransGen.lift f (fun v w hvw => (h.rel_iff _ _).2 ⟨v, w, hvw, rfl, rfl⟩) x y hxy

theorem transGen_iff (hx : D x) (hy : D y) : TransGen S (f x) (f y) ↔ TransGen R x y := by
  rw [h.transGen_iff_exists hx]
  constructor
  · rintro ⟨z, hz, hyz, hxz⟩
    rwa [(h.inj y z hy hz).1 hyz]
  · intro hxy
    exact ⟨y, hy, rfl, hxy⟩

theorem linked_iff (hx : D x) (hy : D y) : Linked S (f x) (f y) ↔ Linked R x y := by
  rw [Linked, Linked, h.inj x y hx hy, h.transGen_iff hx hy, h.transGen_iff hy hx]

theorem precedes_iff (hx : D x) (hy : D y) : Precedes S (f x) (f y) ↔ Precedes R x y := by
  rw [Precedes, Precedes, h.linked_iff hx hy]
  refine and_congr_right fun _ => ⟨?_, ?_⟩
  · rintro ⟨_, _, hnames, hvx, hwy⟩
    obtain ⟨v, w, hvw, rfl, rfl⟩ := (h.rel_iff _ _).1 hnames
    obtain ⟨hv, hw⟩ := h.ends v w hvw
    exact ⟨v, w, hvw, (h.linked_iff hv hx).1 hvx, (h.linked_iff hw hy).1 hwy⟩
  · rintro ⟨v, w, hvw, hvx, hwy⟩
    obtain ⟨hv, hw⟩ := h.ends v w hvw
    exact ⟨f v, f w, (h.rel_iff _ _).2 ⟨v, w, hvw, rfl, rfl⟩, (h.linked_iff hv hx).2 hvx,
      (h.linked_iff hw hy).2 hwy⟩

/-- The ends of edges have names. -/
theorem ends_names (v w : γ) (hvw : S v w) : (∃ x, D x ∧ v = f x) ∧ ∃ y, D y ∧ w = f y := by
  obtain ⟨x, y, hxy, rfl, rfl⟩ := (h.rel_iff v w).1 hvw
  obtain ⟨hx, hy⟩ := h.ends x y hxy
  exact ⟨⟨x, hx, rfl⟩, y, hy, rfl⟩

/-- **Other names** for the elements do not change which of them are interchangeable. -/
theorem interchangeable_iff (hx : D x) (hy : D y) :
    Interchangeable S (f x) (f y) ↔ Interchangeable R x y := by
  rw [interchangeable_iff_of_ends h.ends_names, interchangeable_iff_of_ends h.ends]
  constructor
  · rintro ⟨hbefore, hafter⟩
    refine ⟨fun z hz => ?_, fun z hz => ?_⟩
    · rw [← h.precedes_iff hz hx, ← h.precedes_iff hz hy, hbefore _ ⟨z, hz, rfl⟩]
    · rw [← h.precedes_iff hx hz, ← h.precedes_iff hy hz, hafter _ ⟨z, hz, rfl⟩]
  · rintro ⟨hbefore, hafter⟩
    refine ⟨?_, ?_⟩
    · rintro _ ⟨z, hz, rfl⟩
      rw [h.precedes_iff hz hx, h.precedes_iff hz hy, hbefore z hz]
    · rintro _ ⟨z, hz, rfl⟩
      rw [h.precedes_iff hx hz, h.precedes_iff hy hz, hafter z hz]

end Renames

end Relations

/-! ## Graphs -/

namespace Graph

variable {g q : Graph} {c s : Partition} {x y : Nat}

/-- **Edges between components** are those between classes of linked nodes. -/
theorem IsComponents.adj_iff_precedes (hc : g.IsComponents c) (hq : g.IsQuotient c q)
    (hx : x < g.size) (hy : y < g.size) :
    q.Adj (c.number x) (c.number y) ↔ Precedes g.Adj x y := by
  have hlinked : ∀ {v w : Nat}, v < g.size → w < g.size →
      (c.number v = c.number w ↔ Linked g.Adj v w) := fun hv hw => hc.number_iff _ _ hv hw
  rw [hq.adj_iff, Precedes, Ne, hlinked hx hy]
  refine and_congr_right fun _ => ⟨?_, ?_⟩
  · rintro ⟨v, w, hvw, hvx, hwy⟩
    exact ⟨v, w, hvw, (hlinked hvw.lt.1 hx).1 hvx, (hlinked hvw.lt.2 hy).1 hwy⟩
  · rintro ⟨v, w, hvw, hvx, hwy⟩
    exact ⟨v, w, hvw, (hlinked hvw.lt.1 hx).2 hvx, (hlinked hvw.lt.2 hy).2 hwy⟩

/-- Components have the same neighbours if their nodes are interchangeable. -/
theorem IsComponents.signature_eq_iff (hc : g.IsComponents c) (hq : g.IsQuotient c q)
    (hx : x < g.size) (hy : y < g.size) :
    q.signature (c.number x) = q.signature (c.number y) ↔ Interchangeable g.Adj x y := by
  have hends : ∀ x y, g.Adj x y → x < g.size ∧ y < g.size := fun _ _ hxy => hxy.lt
  rw [interchangeable_iff_of_ends hends, hc.signature_eq_iff_adj hq]
  refine and_congr (forall₂_congr fun z hz => ?_) (forall₂_congr fun z hz => ?_)
  · rw [hc.adj_iff_precedes hq hz hx, hc.adj_iff_precedes hq hz hy]
  · rw [hc.adj_iff_precedes hq hx hz, hc.adj_iff_precedes hq hy hz]

/-- **Nodes share a slot if they are interchangeable.** -/
theorem IsSlots.number_eq_iff_interchangeable (hs : g.IsSlots c q s) (hc : g.IsComponents c)
    (hq : g.IsQuotient c q) (hx : x < g.size) (hy : y < g.size) :
    s.number x = s.number y ↔ Interchangeable g.Adj x y := by
  rw [hs.number_iff x y hx hy, hc.signature_eq_iff hq hx hy]

end Graph

/-! ## Automata -/

namespace Automaton

variable {α : Type} [DecidableEq α] {ws : List (List α)} {g q : Graph} {c s : Partition} {x y : α}

/-- The nodes of the graph are named by their symbols. -/
theorem IsGraph.renames (hg : (ofSequences ws).IsGraph g) :
    Renames (rank ws.flatten) (· ∈ ws.flatten) (Follows ws) g.Adj where
  inj _ _ hx _ := rank_inj hx
  ends _ _ hxy := hxy.mem_flatten
  rel_iff _ _ := hg.adj_iff_follows

/-- **Paths between symbols** are those of the graph. -/
theorem IsGraph.reaches_rank_iff (hg : (ofSequences ws).IsGraph g) (hx : x ∈ ws.flatten)
    (hy : y ∈ ws.flatten) :
    g.Reaches (rank ws.flatten x) (rank ws.flatten y) ↔ TransGen (Follows ws) x y :=
  hg.renames.transGen_iff hx hy

/-- **Symbols share a slot if they are interchangeable** in what the sequences show. -/
theorem number_rank_eq_iff (hg : (ofSequences ws).IsGraph g) (hc : g.IsComponents c)
    (hq : g.IsQuotient c q) (hs : g.IsSlots c q s) (hx : x ∈ ws.flatten) (hy : y ∈ ws.flatten) :
    s.number (rank ws.flatten x) = s.number (rank ws.flatten y) ↔
      Interchangeable (Follows ws) x y := by
  have hr := records_ofSequences ws
  rw [hs.number_eq_iff_interchangeable hc hq (hg.rank_lt hr hx) (hg.rank_lt hr hy),
    hg.renames.interchangeable_iff hx hy]

end Automaton

end ChainGrammar

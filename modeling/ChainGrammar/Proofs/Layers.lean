import ChainGrammar.Proofs.Interchange

/-!
# Layers

A relation between elements on levels that leads from each element to itself at most and to all
elements of the next level.

* `Layered`: such a relation.
* `Layered.eq_or_lt`, `Layered.transGen_of_lt`: **paths go up**, and to every higher level.
* `Layered.precedes_iff`: what is right before an element is the level below it.
* `Layered.interchangeable_iff`: **elements are interchangeable if they are on the same level**.
-/

namespace ChainGrammar

open Relation

variable {β : Type} {R : β → β → Prop} {D : β → Prop} {level : β → Nat} {x y : β}

/-- The elements with a property are on levels without a gap. An element leads to all elements of
the next level, and besides them at most to itself. -/
structure Layered (R : β → β → Prop) (D : β → Prop) (level : β → Nat) : Prop where
  ends : ∀ x y, R x y → D x ∧ D y
  step : ∀ x y, R x y → x = y ∨ level y = level x + 1
  full : ∀ x y, D x → D y → level y = level x + 1 → R x y
  below : ∀ y, D y → 0 < level y → ∃ x, D x ∧ level y = level x + 1

namespace Layered

variable (h : Layered R D level)
include h

/-- **A path** stays at an element or goes up. -/
theorem eq_or_lt (hxy : TransGen R x y) : x = y ∨ level x < level y := by
  induction hxy with
  | single hxy =>
    rcases h.step _ _ hxy with rfl | hlevel
    · exact .inl rfl
    · right; omega
  | tail _ hyz ih =>
    rcases h.step _ _ hyz with rfl | hlevel
    · exact ih
    · right
      rcases ih with rfl | hlt <;> omega

/-- **There is a path to every higher level.** -/
theorem transGen_of_lt (hx : D x) (hy : D y) (hlt : level x < level y) : TransGen R x y := by
  -- down from `y`, a level at a time
  obtain ⟨n, hn⟩ := Nat.exists_eq_add_of_lt hlt
  induction n generalizing y with
  | zero => exact .single (h.full x y hx hy (by omega))
  | succ n ih =>
    obtain ⟨z, hz, hlevel⟩ := h.below y hy (by omega)
    have hxz : TransGen R x z := ih hz (by omega) (by omega)
    exact hxz.tail (h.full z y hz hy hlevel)

theorem linked_iff : Linked R x y ↔ x = y := by
  constructor
  · rintro (rfl | ⟨hxy, hyx⟩)
    · rfl
    · rcases h.eq_or_lt hxy with rfl | hlt
      · rfl
      · rcases h.eq_or_lt hyx with rfl | hlt'
        · rfl
        · omega
  · exact .inl

/-- Before an element are those of the level below it. -/
theorem precedes_iff : Precedes R x y ↔ D x ∧ D y ∧ level y = level x + 1 := by
  simp only [Precedes, h.linked_iff]
  constructor
  · rintro ⟨hne, v, w, hvw, rfl, rfl⟩
    obtain ⟨hv, hw⟩ := h.ends _ _ hvw
    exact ⟨hv, hw, (h.step _ _ hvw).resolve_left hne⟩
  · rintro ⟨hx, hy, hlevel⟩
    have hne : x ≠ y := by
      rintro rfl
      omega
    exact ⟨hne, x, y, h.full x y hx hy hlevel, rfl, rfl⟩

/-- Elements above the lowest level are on the same one if they have the same elements before. -/
theorem level_eq_of_precedes (hx : D x) (hpos : 0 < level x)
    (hxy : ∀ z, Precedes R z x ↔ Precedes R z y) : level x = level y := by
  obtain ⟨z, hz, hlevel⟩ := h.below x hx hpos
  have hzy : Precedes R z y := (hxy z).1 (h.precedes_iff.2 ⟨hz, hx, hlevel⟩)
  have hlevel' := (h.precedes_iff.1 hzy).2.2
  omega

/-- **Elements are interchangeable if they are on the same level.** -/
theorem interchangeable_iff (hx : D x) (hy : D y) :
    Interchangeable R x y ↔ level x = level y := by
  constructor
  · rintro ⟨hbefore, -⟩
    by_cases hposx : 0 < level x
    · exact h.level_eq_of_precedes hx hposx hbefore
    · by_cases hposy : 0 < level y
      · exact (h.level_eq_of_precedes hy hposy fun z => (hbefore z).symm).symm
      · omega
  · intro hlevel
    simp only [Interchangeable, h.precedes_iff, hx, hy, hlevel, true_and, implies_true, and_self]

end Layered

end ChainGrammar

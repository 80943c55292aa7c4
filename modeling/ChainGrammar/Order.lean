/-!
# Orders for choosing the next node

* `Descending`: a type with its order turned around.
* `Keyed`: a node with its priority; nodes of one priority go by their number.
-/

namespace ChainGrammar

universe u

/-- A value of `α` under the opposite order. -/
structure Descending (α : Type u) where
  val : α
deriving DecidableEq

namespace Descending

variable {α : Type u} [Ord α]

instance : Ord (Descending α) := ⟨fun a b => compare b.val a.val⟩

theorem compare_def (a b : Descending α) : compare a b = compare b.val a.val := rfl

instance [Std.TransOrd α] : Std.TransOrd (Descending α) where
  eq_swap {a b} := @Std.OrientedOrd.eq_swap α _ _ b.val a.val
  isLE_trans {a b c} h1 h2 := @Std.TransOrd.isLE_trans α _ _ c.val b.val a.val h2 h1

instance [Std.LawfulEqOrd α] : Std.LawfulEqOrd (Descending α) where
  compare_self {a} := @Std.ReflOrd.compare_self α _ _ a.val
  eq_of_compare {a b} h := by
    cases a; cases b
    exact congrArg _ (@Std.LawfulEqOrd.eq_of_compare α _ _ _ _ h).symm

end Descending

/-- A node with the priority by which it is chosen. -/
structure Keyed (α : Type u) where
  priority : α
  node : Nat
deriving DecidableEq

namespace Keyed

variable {α : Type u} [Ord α]

/-- By priority first, then by node. -/
instance : Ord (Keyed α) :=
  ⟨fun a b => (compare a.priority b.priority).then (compare a.node b.node)⟩

theorem compare_def (a b : Keyed α) :
    compare a b = (compare a.priority b.priority).then (compare a.node b.node) := rfl

theorem isLE_compare_iff {a b : Keyed α} :
    (compare a b).isLE = true ↔ compare a.priority b.priority = .lt ∨
      compare a.priority b.priority = .eq ∧ a.node ≤ b.node := by
  rw [compare_def]
  cases compare a.priority b.priority <;> simp [Nat.isLE_compare]

instance [Std.TransOrd α] : Std.TransOrd (Keyed α) where
  eq_swap {a b} := by
    rw [compare_def, compare_def, Ordering.swap_then, ← Std.OrientedCmp.eq_swap,
      ← Std.OrientedCmp.eq_swap]
  isLE_trans {a b c} h1 h2 := by
    rw [isLE_compare_iff] at *
    rcases h1 with h1 | ⟨h1, g1⟩ <;> rcases h2 with h2 | ⟨h2, g2⟩
    · exact .inl (Std.TransCmp.lt_trans h1 h2)
    · exact .inl (Std.TransCmp.lt_of_lt_of_eq h1 h2)
    · exact .inl (Std.TransCmp.lt_of_eq_of_lt h1 h2)
    · exact .inr ⟨Std.TransCmp.eq_trans h1 h2, Nat.le_trans g1 g2⟩

instance [Std.LawfulEqOrd α] : Std.LawfulEqOrd (Keyed α) where
  compare_self {a} := by simp [compare_def]
  eq_of_compare {a b} h := by
    rw [compare_def] at h
    cases a; cases b
    simp [Ordering.then_eq_eq] at h
    simp_all

end Keyed

end ChainGrammar

import ChainGrammar.Text.Textual

/-!
# Tagged indices

An index that carries, in its type only, the collection it points into, so that
indices into different collections are not mixed up. In every other respect it
behaves as the index it holds.

* `Tagged`: the type; `Tagged.ext_val` says that the index is all there is to it.
-/

namespace ChainGrammar

universe u v

/-- A value of `α` that belongs to the collection named by `tag`. -/
structure Tagged (tag : Type v) (α : Type u) where
  val : α

namespace Tagged

variable {tag : Type v} {α : Type u}

theorem ext_val {a b : Tagged tag α} (h : a.val = b.val) : a = b := by
  cases a; cases b; simp_all

instance [DecidableEq α] : DecidableEq (Tagged tag α) := fun a b =>
  if h : a.val = b.val then isTrue (ext_val h) else isFalse fun e => h (e ▸ rfl)

instance [Ord α] : Ord (Tagged tag α) := ⟨fun a b => compare a.val b.val⟩

instance [Ord α] [Std.TransOrd α] : Std.TransOrd (Tagged tag α) where
  eq_swap {a b} := @Std.OrientedOrd.eq_swap α _ _ a.val b.val
  isLE_trans {a b c} h1 h2 := @Std.TransOrd.isLE_trans α _ _ a.val b.val c.val h1 h2

instance [Inhabited α] : Inhabited (Tagged tag α) := ⟨⟨default⟩⟩

instance [Text.Textual α] : Text.Textual (Tagged tag α) :=
  ⟨fun a => Text.Textual.plain a.val, fun a => Text.Textual.quoted a.val⟩

/-- The larger of two indices, the second if they are equal. -/
def larger [Ord α] (a b : Tagged tag α) : Tagged tag α :=
  if compare a b = .gt then a else b

end Tagged

end ChainGrammar

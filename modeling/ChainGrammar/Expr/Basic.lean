/-!
# Expressions

Regular expressions over symbols: a symbol, a sequence or a choice of
expressions, an optional or a repeated expression. Two expressions are equal if
they are built alike, the order of the alternatives of a choice included.

* `Expr`: the type; `Expr.induct` is induction over all its children.
* `Expr.ofKind`: the expression of an operator and its children, which fails if
  an operator of one child is given another number of them.
* `Reading`, `Expr.fold`: bottom-up readings of an expression.
* `Expr.symbols`, `Expr.depth`, `Expr.visits`: the symbols from left to right, the
  height, and the places that a reading comes to with the heights below them.
-/

namespace ChainGrammar

/-- A regular expression over the symbols `α`. -/
inductive Expr (α : Type) where
  /-- The symbol itself. -/
  | symbol (s : α)
  /-- One child after the other. -/
  | sequence (children : List (Expr α))
  /-- One of the children. -/
  | choice (children : List (Expr α))
  /-- The child or nothing. -/
  | optional (child : Expr α)
  /-- The child any number of times. -/
  | repeated (child : Expr α)

namespace Expr

variable {α β : Type}

/-- **Induction over all children** of an expression. -/
theorem induct {motive : Expr α → Prop} (symbol : ∀ s, motive (.symbol s))
    (sequence : ∀ es, (∀ e ∈ es, motive e) → motive (.sequence es))
    (choice : ∀ es, (∀ e ∈ es, motive e) → motive (.choice es))
    (optional : ∀ e, motive e → motive (.optional e))
    (repeated : ∀ e, motive e → motive (.repeated e)) (e : Expr α) : motive e :=
  @Expr.rec α motive (fun es => ∀ e ∈ es, motive e) symbol sequence choice optional repeated
    (fun _ h => nomatch h)
    (fun _ _ he hes _ h => (List.mem_cons.1 h).elim (fun h => h ▸ he) (hes _)) e

/-! ## Equality -/

section Equality

variable [DecidableEq α]

mutual

/-- Whether two expressions are built alike. -/
def same : Expr α → Expr α → Bool
  | .symbol s, .symbol t => decide (s = t)
  | .sequence es, .sequence fs => sameAll es fs
  | .choice es, .choice fs => sameAll es fs
  | .optional e, .optional f => same e f
  | .repeated e, .repeated f => same e f
  | _, _ => false

/-- Whether two lists hold expressions built alike. -/
def sameAll : List (Expr α) → List (Expr α) → Bool
  | [], [] => true
  | e :: es, f :: fs => same e f && sameAll es fs
  | _, _ => false

end

mutual

theorem same_iff : ∀ e f : Expr α, same e f = true ↔ e = f
  | .symbol s, f => by cases f <;> simp [same]
  | .sequence es, f => by cases f <;> simp [same, sameAll_iff es]
  | .choice es, f => by cases f <;> simp [same, sameAll_iff es]
  | .optional e, f => by cases f <;> simp [same, same_iff e]
  | .repeated e, f => by cases f <;> simp [same, same_iff e]

theorem sameAll_iff : ∀ es fs : List (Expr α), sameAll es fs = true ↔ es = fs
  | [], fs => by cases fs <;> simp [sameAll]
  | e :: es, fs => by cases fs <;> simp [sameAll, same_iff e, sameAll_iff es]

end

instance : DecidableEq (Expr α) := fun e f => decidable_of_iff _ (same_iff e f)

end Equality

/-! ## Operators -/

/-- The operator at the root of an expression. -/
inductive Kind where
  | sequence
  | choice
  | optional
  | repeated
deriving DecidableEq

/-- The name of an operator. -/
def Kind.name : Kind → String
  | .sequence => "Sequence"
  | .choice => "Choice"
  | .optional => "Optional"
  | .repeated => "Repeated"

/-- An operator of one child was given another number of them. -/
structure ArityError where
  kind : Kind
  count : Nat
deriving DecidableEq

/-- The wording of a wrong number of children. -/
def ArityError.message (e : ArityError) : String :=
  "assertion `left == right` failed: A " ++ e.kind.name ++
    " expression must have exactly one child\n  left: " ++ e.count.repr ++ "\n right: 1"

/-- The expression with the given operator and children. -/
def ofKind (kind : Kind) (children : List (Expr α)) : Except ArityError (Expr α) :=
  match kind, children with
  | .sequence, es => .ok (.sequence es)
  | .choice, es => .ok (.choice es)
  | .optional, [e] => .ok (.optional e)
  | .repeated, [e] => .ok (.repeated e)
  | kind, es => .error ⟨kind, es.length⟩

/-- The operator of an expression, none for a symbol. -/
def kind? : Expr α → Option Kind
  | .symbol _ => none
  | .sequence _ => some .sequence
  | .choice _ => some .choice
  | .optional _ => some .optional
  | .repeated _ => some .repeated

/-- The children of an expression, none for a symbol. -/
def children : Expr α → List (Expr α)
  | .symbol _ => []
  | .sequence es => es
  | .choice es => es
  | .optional e => [e]
  | .repeated e => [e]

/-! ## Readings -/

/-- What a bottom-up reading makes of a symbol, and of an operator and the results for its
children. -/
structure Reading (α β : Type) where
  symbol : α → β
  sequence : List β → β
  choice : List β → β
  optional : β → β
  repeated : β → β

mutual

/-- The result of a reading for an expression. -/
def fold (r : Reading α β) : Expr α → β
  | .symbol s => r.symbol s
  | .sequence es => r.sequence (foldAll r es)
  | .choice es => r.choice (foldAll r es)
  | .optional e => r.optional (fold r e)
  | .repeated e => r.repeated (fold r e)

/-- The results of a reading for some expressions, from left to right. -/
def foldAll (r : Reading α β) : List (Expr α) → List β
  | [] => []
  | e :: es => fold r e :: foldAll r es

end

theorem foldAll_eq_map (r : Reading α β) (es : List (Expr α)) :
    foldAll r es = es.map (fold r) := by
  induction es with
  | nil => rfl
  | cons e es ih => rw [foldAll, ih, List.map_cons]

/-- The symbols of an expression from left to right. -/
def symbols : Expr α → List α :=
  fold ⟨fun s => [s], List.flatten, List.flatten, id, id⟩

/-- The height of an expression, 0 for a symbol. -/
def depth : Expr α → Nat :=
  let above (ds : List Nat) := 1 + ds.foldr max 0
  fold ⟨fun _ => 0, above, above, fun d => 1 + d, fun d => 1 + d⟩

/-- A place that a reading comes to, with the heights of the children. -/
inductive Visit (α : Type) where
  | symbol (s : α)
  | sequence (depths : List Nat)
  | choice (depths : List Nat)
  | optional (depth : Nat)
  | repeated (depth : Nat)

mutual

/-- The places of an expression in the order of a reading: children first, from left to right. -/
def visits : Expr α → List (Visit α)
  | .symbol s => [.symbol s]
  | .sequence es => visitsAll es ++ [.sequence (es.map depth)]
  | .choice es => visitsAll es ++ [.choice (es.map depth)]
  | .optional e => visits e ++ [.optional (depth e)]
  | .repeated e => visits e ++ [.repeated (depth e)]

/-- The places of some expressions in the order of a reading. -/
def visitsAll : List (Expr α) → List (Visit α)
  | [] => []
  | e :: es => visits e ++ visitsAll es

end

end Expr

end ChainGrammar

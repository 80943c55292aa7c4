import ChainGrammar.HiddenMarkov

/-!
# The dimensions of a model

Drawing a model anew replaces the rows of all its tables, and a look-up takes its bounds from other
tables than the one it looks into. The tables fit each other all the same, however often the model
is drawn anew, whatever the probabilities are.

* `HiddenMarkov.IsTable`, `HiddenMarkov.IsTable.answers`: look-ups in a table of rows and columns.
* `HiddenMarkov.Shaped`: the tables of a model fit its states and labels.
* `HiddenMarkov.isTable_drawRows`: **drawn tables** have the size asked for.
* `HiddenMarkov.Shaped.randomize`: **drawing anew** keeps the shape.
* `HiddenMarkov.Drawn`: the models drawn anew any number of times.
* `HiddenMarkov.Dimensions`: which look-ups a model answers, and the errors of the others.
* `HiddenMarkov.dimensions_drawn`: **the dimensions of all these models**.
-/

namespace ChainGrammar.HiddenMarkov

variable {α β : Type} {m : HiddenMarkov α} {labels : Array α} {states rows columns n x : Nat}

/-! ## Look-ups -/

/-- The look-up answers exactly if `inside` holds, and otherwise fails with the error. -/
def Answers (r : Except ModelError β) (inside : Prop) (e : ModelError) : Prop :=
  ((∃ b, r = .ok b) ↔ inside) ∧ (¬inside → r = .error e)

theorem answers_ok {inside : Prop} {e : ModelError} (b : β) (h : inside) :
    Answers (.ok b) inside e :=
  ⟨iff_of_true ⟨b, rfl⟩ h, fun hout => absurd h hout⟩

theorem answers_error {inside : Prop} {e : ModelError} (h : ¬inside) :
    Answers (.error e : Except ModelError β) inside e :=
  ⟨iff_of_false nofun h, fun _ => rfl⟩

theorem lookUp_ok {t : Array β} (h : x < t.size) (bound : Nat) : lookUp t x bound = .ok t[x] := by
  rw [lookUp, Array.getElem?_eq_getElem h]

theorem lookUp_error {t : Array β} (h : t.size ≤ x) (bound : Nat) :
    lookUp t x bound = .error (.outOfRange x bound) := by
  rw [lookUp, Array.getElem?_eq_none h]

/-- A look-up answers below the size of the table, whatever bound it names otherwise. -/
theorem answers_lookUp {t : Array β} (ht : t.size = n) (x bound : Nat) :
    Answers (lookUp t x bound) (x < n) (.outOfRange x bound) := by
  subst ht
  rcases Nat.lt_or_ge x t.size with hx | hx
  · rw [lookUp_ok hx]
    exact answers_ok _ hx
  · rw [lookUp_error hx]
    exact answers_error (Nat.not_lt.2 hx)

/-- There are so many rows, each of them with so many columns. -/
structure IsTable (rows columns : Nat) (t : Array (Array β)) : Prop where
  size_eq : t.size = rows
  size_row : ∀ row ∈ t, row.size = columns

/-- **A look-up in a row** names the row if there is none, and else the column. -/
theorem IsTable.answers {t : Array (Array β)} (h : IsTable rows columns t) (x y b c : Nat) :
    Answers (lookUp t x b >>= fun row => lookUp row y c) (x < rows ∧ y < columns)
      (if rows ≤ x then .outOfRange x b else .outOfRange y c) := by
  obtain ⟨rfl, hrow⟩ := h
  rcases Nat.lt_or_ge x t.size with hx | hx
  · have hcolumn := answers_lookUp (hrow _ (Array.getElem_mem hx)) y c
    rw [lookUp_ok hx, if_neg (Nat.not_le.2 hx), and_iff_right hx]
    exact hcolumn
  · rw [lookUp_error hx, if_pos hx]
    exact answers_error fun hin => Nat.not_lt.2 hx hin.1

/-! ## Shapes -/

/-- The tables of the model fit the number of states and the labels. -/
structure Shaped (m : HiddenMarkov α) (states : Nat) (labels : Array α) : Prop where
  labels_eq : m.labels = labels
  starts : m.starts.size = states
  transitions : IsTable states states m.transitions
  emissions : IsTable states labels.size m.emissions

theorem isTable_replicate (b : β) :
    IsTable rows columns (Array.replicate rows (Array.replicate columns b)) where
  size_eq := Array.size_replicate
  size_row row hrow := by
    rw [Array.eq_of_mem_replicate hrow, Array.size_replicate]

theorem uniform_eq_ok (hstates : 1 ≤ states) (hlabels : labels ≠ #[]) :
    ∃ m, uniform states labels = .ok m ∧ m.Shaped states labels := by
  rw [uniform, if_neg (Nat.ne_of_gt hstates), if_neg (mt Array.isEmpty_iff.1 hlabels)]
  exact ⟨_, rfl, rfl, Array.size_replicate, isTable_replicate _, isTable_replicate _⟩

/-- A model needs a state and a label. -/
theorem exists_uniform_iff :
    (∃ m, uniform states labels = .ok m) ↔ 1 ≤ states ∧ labels ≠ #[] := by
  constructor
  · rintro ⟨m, hm⟩
    rw [uniform] at hm
    split at hm
    · cases hm
    next hstates =>
      split at hm
      · cases hm
      next hlabels => exact ⟨Nat.pos_of_ne_zero hstates, mt Array.isEmpty_iff.2 hlabels⟩
  · rintro ⟨hstates, hlabels⟩
    obtain ⟨m, hm, -⟩ := uniform_eq_ok hstates hlabels
    exact ⟨m, hm⟩

/-! ## What is drawn -/

/-- One value more than the number of draws: the last one takes the remainder. -/
theorem length_breakOff (n : Nat) (left : Float) (s : RandomSource) :
    (breakOff n left s).1.length = n + 1 := by
  induction n generalizing left s with
  | zero => rfl
  | succ n ih => exact congrArg (· + 1) (ih _ _)

theorem size_drawDistribution (size : Nat) (s : RandomSource) :
    (drawDistribution size s).1.size = size := by
  cases size with
  | zero => rfl
  | succ n => exact length_breakOff n 1 s

theorem length_drawRows (size n : Nat) (s : RandomSource) : (drawRows size n s).1.length = n := by
  induction n generalizing s with
  | zero => rfl
  | succ n ih => exact congrArg (· + 1) (ih _)

theorem size_of_mem_drawRows {size : Nat} {s : RandomSource} {row : Array Float}
    (h : row ∈ (drawRows size n s).1) : row.size = size := by
  induction n generalizing s with
  | zero => cases h
  | succ n ih =>
    rcases List.mem_cons.1 h with rfl | h
    · exact size_drawDistribution size s
    · exact ih h

/-- **A drawn table** has the rows and columns asked for. -/
theorem isTable_drawRows (size n : Nat) (s : RandomSource) :
    IsTable n size (drawRows size n s).1.toArray where
  size_eq := length_drawRows size n s
  size_row _ hrow := size_of_mem_drawRows (List.mem_toArray.1 hrow)

/-- **Drawing a model anew** keeps its shape. -/
theorem Shaped.randomize (h : m.Shaped states labels) (s : RandomSource) :
    (m.randomize s).1.Shaped states labels := by
  obtain ⟨rfl, -, ⟨rfl, -⟩, hrows, -⟩ := h
  -- the rows are counted in the table that is replaced, their columns in another one
  refine ⟨rfl, size_drawDistribution _ _, isTable_drawRows _ _ s, ?_⟩
  rw [← hrows]
  exact isTable_drawRows _ _ _

/-- The models with so many states and these labels: the one in which all is equally probable,
drawn anew any number of times. -/
inductive Drawn (states : Nat) (labels : Array α) : HiddenMarkov α → Prop
  /-- The model in which all is equally probable. -/
  | uniform {m : HiddenMarkov α} (h : uniform states labels = .ok m) : Drawn states labels m
  /-- A model drawn anew, from any source. -/
  | randomize {m : HiddenMarkov α} (hm : Drawn states labels m) (s : RandomSource) :
    Drawn states labels (m.randomize s).1

/-- **However often** a model is drawn anew, it has the shape it started with. -/
theorem Drawn.shaped (h : Drawn states labels m) : m.Shaped states labels := by
  induction h with
  | uniform h =>
    obtain ⟨hstates, hlabels⟩ := exists_uniform_iff.1 ⟨_, h⟩
    obtain ⟨m, hm, hshaped⟩ := uniform_eq_ok hstates hlabels
    obtain rfl := Except.ok.inj (hm.symm.trans h)
    exact hshaped
  | randomize _ s ih => exact ih.randomize s

/-! ## Dimensions -/

/-- What a model with so many states and these labels tells: a look-up answers if its indices are
below their bounds, and else names the first one that is not, and its bound. -/
structure Dimensions (m : HiddenMarkov α) (states : Nat) (labels : Array α) : Prop where
  stateCount_eq : m.stateCount = states
  labels_eq : m.labels = labels
  transition : ∀ x y, Answers (m.transition x y) (x < states ∧ y < states)
    (.outOfRange (if states ≤ x then x else y) states)
  emission : ∀ x l, Answers (m.emission x l) (x < states ∧ l < labels.size)
    (if states ≤ x then .outOfRange x states else .outOfRange l labels.size)
  start : ∀ x, Answers (m.start x) (x < states) (.outOfRange x states)
  label : ∀ l, Answers (m.label l) (l < labels.size) (.outOfRange l labels.size)
  label_eq : ∀ (l : Nat) (h : l < labels.size), m.label l = .ok labels[l]

/-- The bounds that are named are the sizes of the tables looked into. -/
theorem Shaped.dimensions (h : m.Shaped states labels) : m.Dimensions states labels := by
  obtain ⟨rfl, hstarts, htransitions, hemissions⟩ := h
  have hcount : m.stateCount = states := htransitions.size_eq
  refine ⟨hcount, rfl, fun x y => ?_, fun x l => ?_, fun x => ?_, fun l => ?_, fun l hl => ?_⟩
  · have hlookUp := htransitions.answers x y states states
    rw [← apply_ite (ModelError.outOfRange · states)] at hlookUp
    rw [transition, hcount]
    exact hlookUp
  · rw [emission, hcount]
    exact hemissions.answers x l states m.labelCount
  · rw [start, hcount]
    exact answers_lookUp hstarts x states
  · exact answers_lookUp rfl l m.labelCount
  · exact lookUp_ok hl m.labelCount

/-- **The dimensions survive.** There is a model for every number of states and all labels, if there
is at least one of each. However often it is drawn anew, and from whatever sources, it keeps the
number of states and the labels, and its look-ups answer exactly below these bounds. -/
theorem dimensions_drawn (states : Nat) (labels : Array α) :
    ((∃ m, uniform states labels = .ok m) ↔ 1 ≤ states ∧ labels ≠ #[]) ∧
      ∀ m, Drawn states labels m → m.Dimensions states labels :=
  ⟨exists_uniform_iff, fun _ h => h.shaped.dimensions⟩

/-- Two states and three labels, so that the bounds of rows and columns differ. -/
theorem dimensions_drawn_twice :
    ∃ m : HiddenMarkov String, uniform 2 #["a", "b", "c"] = .ok m ∧
      ∃ r, r = ((m.randomize (.cycle #[7, 11])).1.randomize (.cycle #[])).1 ∧
        Drawn 2 #["a", "b", "c"] r ∧ r.stateCount = 2 ∧ r.labels = #["a", "b", "c"] ∧
        (∃ p, r.transition 1 1 = .ok p) ∧ r.transition 2 5 = .error (.outOfRange 2 2) ∧
        r.transition 1 2 = .error (.outOfRange 2 2) ∧ (∃ p, r.emission 1 2 = .ok p) ∧
        r.emission 3 3 = .error (.outOfRange 3 2) ∧ r.emission 1 3 = .error (.outOfRange 3 3) ∧
        r.start 2 = .error (.outOfRange 2 2) ∧ r.label 2 = .ok "c" ∧
        r.label 3 = .error (.outOfRange 3 3) := by
  obtain ⟨hexists, hdrawn⟩ := dimensions_drawn 2 #["a", "b", "c"]
  obtain ⟨m, hm⟩ := hexists.2 (by decide)
  have hr : Drawn 2 #["a", "b", "c"] ((m.randomize (.cycle #[7, 11])).1.randomize (.cycle #[])).1 :=
    ((Drawn.uniform hm).randomize _).randomize _
  have hdim := hdrawn _ hr
  exact ⟨m, hm, _, rfl, hr, hdim.stateCount_eq, hdim.labels_eq,
    (hdim.transition 1 1).1.2 (by decide), (hdim.transition 2 5).2 (by decide),
    (hdim.transition 1 2).2 (by decide), (hdim.emission 1 2).1.2 (by decide),
    (hdim.emission 3 3).2 (by decide), (hdim.emission 1 3).2 (by decide),
    (hdim.start 2).2 (by decide), hdim.label_eq 2 (by decide), (hdim.label 3).2 (by decide)⟩

end ChainGrammar.HiddenMarkov

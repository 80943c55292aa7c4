import ChainGrammar.Proofs.Rendering

/-!
# The symbols in a text

The text of an expression and the list of its symbols are two readings of it, and they agree: the
words of the text are the texts of the symbols, from left to right. A word is what stands between
spaces when the signs of operators are deleted. The text of a child stands between spaces or next to
signs, so that words can be found child by child: cutting a text at a space cuts its words.

* `Expr.words`: the words of a text; `Expr.words_append_space` gives those on both sides of a space.
* `Expr.Separates`, `Expr.words_intercalate`: separators have no words and keep words apart.
* `Expr.words_fold`: the words of an expression.
* `Expr.words_render`: **the words of a text are the symbols of the expression.**
-/

namespace ChainGrammar.Expr

/-- The characters of a text that belong to operators, apart from spaces. -/
def signs : List Char := ['(', ')', '+', '?', '*']

/-- The words of a text: what stands between spaces when the signs are deleted. -/
def words (l : List Char) : List (List Char) :=
  ((l.filter (· ∉ signs)).splitOn ' ').filter (· ≠ [])

/-- Words before the separator and words after it do not run together. -/
def Separates (sep : List Char) : Prop := ∀ k l, words (k ++ sep ++ l) = words k ++ words l

variable {c : Char} {l sep : List Char}

/-! ## The words of a text -/

/-- **A space** keeps words apart. -/
theorem words_append_space (k l : List Char) : words (k ++ ' ' :: l) = words k ++ words l := by
  have hspace : (' ' :: l).filter (· ∉ signs) = ' ' :: l.filter (· ∉ signs) :=
    List.filter_cons_of_pos (by decide)
  unfold words
  rw [List.filter_append, hspace, List.splitOn_append_cons_self, List.filter_append]

/-- A sign at the end is part of no word. -/
theorem words_concat_sign (hc : c ∈ signs) (l : List Char) : words (l ++ [c]) = words l := by
  have hsign : [c].filter (· ∉ signs) = [] :=
    List.filter_cons_of_neg (by rw [decide_eq_true_iff, not_not]; exact hc)
  rw [words, List.filter_append, hsign, List.append_nil, words]

/-- The text of a symbol is one word. -/
theorem words_of_forall_notMem_marks (hne : l ≠ []) (h : ∀ c ∈ l, c ∉ marks) : words l = [l] := by
  have hkeep : l.filter (· ∉ signs) = l :=
    List.filter_eq_self.2 fun c hc =>
      decide_eq_true fun hsign => h c hc (List.mem_cons_of_mem ' ' hsign)
  have hspace : ' ' ∉ l := fun hmem => h ' ' hmem List.mem_cons_self
  rw [words, hkeep, List.splitOn_eq_singleton hspace]
  exact List.filter_cons_of_pos (decide_eq_true hne)

/-! ## Separators and brackets -/

theorem separates_space : Separates [' '] := by
  intro k l
  rw [List.append_assoc, List.singleton_append, words_append_space]

theorem separates_plus : Separates [' ', '+', ' '] := by
  intro k l
  have hplus : words ['+'] = [] := by decide
  calc words (k ++ [' ', '+', ' '] ++ l) = words (k ++ ' ' :: (['+'] ++ ' ' :: l)) := by
        rw [List.append_assoc]
        rfl
    _ = words k ++ words l := by
        rw [words_append_space, words_append_space, hplus, List.nil_append]

/-- **Separated texts** have their words one after the other. -/
theorem words_intercalate (hsep : Separates sep) (ps : List (List Char)) :
    words (sep.intercalate ps) = ps.flatMap words := by
  induction ps with
  | nil => rfl
  | cons p ps ih =>
    cases ps with
    | nil => rw [List.intercalate_singleton, List.flatMap_singleton]
    | cons q qs =>
      rw [List.intercalate_cons_cons, hsep, ih]
      exact List.flatMap_cons.symm

/-- **Brackets** have no words. -/
theorem words_bracketed (l : List Char) : words (bracketed l) = words l := by
  have hopen : words ['('] = [] := by decide
  have hclose : words [')'] = [] := by decide
  calc words (bracketed l) = words (['('] ++ ' ' :: (l ++ ' ' :: [')'])) := by
        rw [bracketed, List.append_assoc]
        rfl
    _ = words l := by
        rw [words_append_space, words_append_space, hopen, hclose, List.nil_append, List.append_nil]

/-! ## The words of an expression -/

section Symbols

variable {α : Type} [Text.Textual α] {e : Expr α} {es : List (Expr α)}

/-- The characters of a symbol. -/
def letters (s : α) : List Char := (Text.Textual.plain s).toList

/-- **The words of children** with separators between them and brackets around them. -/
theorem words_operands (hsep : Separates sep)
    (h : ∀ e ∈ es, words (e.fold renderReading) = e.symbols.map letters) :
    words (bracketed (sep.intercalate (foldAll renderReading es))) =
      (es.flatMap symbols).map letters := by
  rw [words_bracketed, words_intercalate hsep, foldAll_eq_map, List.flatMap_map, List.map_flatMap]
  exact List.flatMap_congr h

/-- **The words of an expression** are its symbols, from left to right. -/
theorem words_fold (h : ∀ s ∈ e.symbols, IsWord (Text.Textual.plain s)) :
    words (e.fold renderReading) = e.symbols.map letters := by
  induction e using Expr.induct with
  | symbol s =>
    obtain ⟨hne, hmarks⟩ := h s List.mem_cons_self
    exact words_of_forall_notMem_marks hne hmarks
  | sequence es ih =>
    rw [symbols_sequence] at h ⊢
    refine words_operands separates_space fun e he => ih e he fun s hs => ?_
    exact h s (List.mem_flatMap_of_mem he hs)
  | choice es ih =>
    rw [symbols_choice] at h ⊢
    refine words_operands separates_plus fun e he => ih e he fun s hs => ?_
    exact h s (List.mem_flatMap_of_mem he hs)
  | optional e ih => exact (words_concat_sign (by decide) _).trans (ih h)
  | repeated e ih => exact (words_concat_sign (by decide) _).trans (ih h)

/-- **The words of a text are the symbols of the expression**: if the signs of operators are
deleted, what stands between spaces are the texts of the symbols, from left to right. -/
theorem words_render (e : Expr α) (h : ∀ s ∈ e.symbols, IsWord (Text.Textual.plain s)) :
    (words e.render.toList).map String.ofList = e.symbols.map Text.Textual.plain := by
  rw [render, String.toList_ofList, words_fold h, List.map_map]
  exact List.map_congr_left fun s _ => String.ofList_toList

/-- Brackets within brackets, signs behind signs, and brackets around nothing. -/
theorem words_render_nested :
    (∀ s ∈ (nested "ab").symbols, IsWord (Text.Textual.plain s)) ∧
      (nested "ab").render = "( ( ab + c )* d*? (  ) )" ∧
      (words (nested "ab").render.toList).map String.ofList = ["ab", "c", "d"] := by
  have hwords : ∀ s ∈ (nested "ab").symbols, IsWord (Text.Textual.plain s) := by
    simp [nested, symbols, fold, foldAll, IsWord, marks, Text.Textual.plain]
  exact ⟨hwords, by decide, words_render (nested "ab") hwords⟩

end Symbols

end ChainGrammar.Expr

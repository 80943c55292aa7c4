import Mathlib.Computability.Language
import ChainGrammar.Expr.Basic

/-!
# The language of an expression

* `Expr.lang`: the words of an expression: the words of its children one after the other, the words
  of any child, and so on.
* `letters`: the words over a set of symbols.
* `lang_repeated_symbol`, `lang_repeated_choice`: the words of a factor.
* `mem_prod_letters`: **a sequence of factors over disjoint sets of symbols** has the words whose
  symbols go through the factors in order.
-/

namespace ChainGrammar

open Computability

variable {α : Type} {s : α} {w : List α} {P : α → Prop}

namespace Expr

/-- The words of an expression. -/
def lang : Expr α → Language α :=
  fold ⟨fun s => {[s]}, List.prod, List.sum, fun l => 1 + l, fun l => l∗⟩

theorem mem_lang_symbol : w ∈ (symbol s).lang ↔ w = [s] := Iff.rfl

theorem lang_sequence (es : List (Expr α)) : (sequence es).lang = (es.map lang).prod :=
  congrArg List.prod (foldAll_eq_map ..)

theorem lang_choice (es : List (Expr α)) : (choice es).lang = (es.map lang).sum :=
  congrArg List.sum (foldAll_eq_map ..)

theorem lang_repeated (e : Expr α) : (repeated e).lang = e.lang∗ := rfl

theorem mem_lang_choice {es : List (Expr α)} : w ∈ (choice es).lang ↔ ∃ e ∈ es, w ∈ e.lang := by
  rw [lang_choice]
  induction es with
  | nil => simp
  | cons e es ih =>
    rw [List.map_cons, List.sum_cons, Language.mem_add, ih, List.exists_mem_cons_iff]

end Expr

/-! ## Words over a set of symbols -/

/-- The words over the symbols with a property. -/
def letters (P : α → Prop) : Language α := {w | ∀ s ∈ w, P s}

theorem mem_letters : w ∈ letters P ↔ ∀ s ∈ w, P s := Iff.rfl

/-- Any number of words of one symbol. -/
theorem kstar_eq_letters {l : Language α} (hl : ∀ w, w ∈ l ↔ ∃ s, P s ∧ w = [s]) :
    l∗ = letters P := by
  ext w
  rw [Language.mem_kstar, mem_letters]
  constructor
  · rintro ⟨ws, rfl, hws⟩ s hs
    obtain ⟨v, hv, hsv⟩ := List.mem_flatten.1 hs
    obtain ⟨t, ht, rfl⟩ := (hl v).1 (hws v hv)
    rwa [List.mem_singleton.1 hsv]
  · intro hw
    refine ⟨w.map fun s => [s], by rw [← List.flatMap_def, List.flatMap_singleton'], fun v hv => ?_⟩
    obtain ⟨s, hs, rfl⟩ := List.mem_map.1 hv
    exact (hl _).2 ⟨s, hw s hs, rfl⟩

theorem Expr.lang_repeated_symbol (s : α) :
    (repeated (symbol s)).lang = letters fun t => t = s := by
  rw [lang_repeated]
  exact kstar_eq_letters fun w => by simp only [mem_lang_symbol, exists_eq_left]

theorem Expr.lang_repeated_choice (ss : List α) :
    (repeated (choice (ss.map symbol))).lang = letters fun t => t ∈ ss := by
  rw [lang_repeated]
  exact kstar_eq_letters fun w => by
    simp only [mem_lang_choice, List.mem_map, exists_exists_and_eq_and, mem_lang_symbol]

/-! ## Words through disjoint sets of symbols -/

section Blocks

variable {block : α → Nat} {b : Nat} {o : List Nat}

/-- A word that goes through the blocks in order has the symbols of the first block first. -/
theorem exists_append_letters (hw : ∀ s ∈ w, P s ∧ block s ∈ b :: o)
    (hord : w.Pairwise fun s t => (b :: o).idxOf (block s) ≤ (b :: o).idxOf (block t)) :
    ∃ u ∈ letters fun s => P s ∧ block s = b, ∃ v, u ++ v = w ∧ ∀ s ∈ v, P s ∧ block s ∈ o := by
  induction w with
  | nil => exact ⟨[], by simp [mem_letters], [], rfl, by simp⟩
  | cons s w ih =>
    obtain ⟨hle, hord⟩ := List.pairwise_cons.1 hord
    obtain ⟨hs, hw⟩ := List.forall_mem_cons.1 hw
    by_cases hsb : block s = b
    · -- `s` goes to the front of the symbols of the first block
      obtain ⟨u, hu, v, rfl, hv⟩ := ih hw hord
      exact ⟨s :: u, List.forall_mem_cons.2 ⟨⟨hs.1, hsb⟩, hu⟩, v, rfl, hv⟩
    · -- no symbol of the first block comes after one of another block
      have hrest : ∀ t ∈ s :: w, P t ∧ block t ∈ o := by
        intro t ht
        have hbt : block t ≠ b := by
          rcases List.mem_cons.1 ht with rfl | ht
          · exact hsb
          · intro htb
            have hst := hle t ht
            rw [htb, List.idxOf_cons_self, List.idxOf_cons_ne _ (Ne.symm hsb)] at hst
            omega
        have hall : ∀ t ∈ s :: w, P t ∧ block t ∈ b :: o := List.forall_mem_cons.2 ⟨hs, hw⟩
        obtain ⟨hP, hmem⟩ := hall t ht
        exact ⟨hP, (List.mem_cons.1 hmem).resolve_left hbt⟩
      exact ⟨[], by simp [mem_letters], s :: w, rfl, hrest⟩

/-- **The words through disjoint sets of symbols** are those whose symbols go through the sets in
order. -/
theorem mem_prod_letters (ho : o.Nodup) :
    w ∈ (o.map fun b => letters fun s => P s ∧ block s = b).prod ↔
      (∀ s ∈ w, P s ∧ block s ∈ o) ∧
        w.Pairwise fun s t => o.idxOf (block s) ≤ o.idxOf (block t) := by
  induction o generalizing w with
  | nil =>
    rw [List.map_nil, List.prod_nil, Language.mem_one]
    constructor
    · rintro rfl
      simp
    · rintro ⟨hmem, -⟩
      exact List.eq_nil_iff_forall_not_mem.2 fun s hs => List.not_mem_nil (hmem s hs).2
  | cons b o ih =>
    obtain ⟨hb, ho⟩ := List.nodup_cons.1 ho
    have hidx : ∀ c ∈ o, (b :: o).idxOf c = o.idxOf c + 1 := fun c hc =>
      List.idxOf_cons_ne _ fun hbc => hb (hbc ▸ hc)
    rw [List.map_cons, List.prod_cons, Language.mem_mul]
    constructor
    · -- the symbols of `u` all have place 0, those of `v` have later places
      rintro ⟨u, hu, v, hv, rfl⟩
      obtain ⟨hmem, hord⟩ := (ih ho).1 hv
      refine ⟨fun s hs => ?_, List.pairwise_append.2 ⟨?_, ?_, fun s hs t _ => ?_⟩⟩
      · rcases List.mem_append.1 hs with hs | hs
        · exact ⟨(hu s hs).1, (hu s hs).2 ▸ List.mem_cons_self⟩
        · exact ⟨(hmem s hs).1, List.mem_cons_of_mem b (hmem s hs).2⟩
      · refine List.pairwise_of_forall_mem_list fun s hs t _ => ?_
        rw [(hu s hs).2, List.idxOf_cons_self]
        exact Nat.zero_le _
      · refine hord.imp_of_mem fun {s t} hs ht hst => ?_
        rw [hidx _ (hmem s hs).2, hidx _ (hmem t ht).2]
        exact Nat.succ_le_succ hst
      · rw [(hu s hs).2, List.idxOf_cons_self]
        exact Nat.zero_le _
    · rintro ⟨hmem, hord⟩
      obtain ⟨u, hu, v, rfl, hv⟩ := exists_append_letters hmem hord
      refine ⟨u, hu, v, (ih ho).2 ⟨hv, ?_⟩, rfl⟩
      refine (List.pairwise_append.1 hord).2.1.imp_of_mem fun {s t} hs ht hst => ?_
      rw [hidx _ (hv s hs).2, hidx _ (hv t ht).2] at hst
      exact Nat.le_of_succ_le_succ hst

end Blocks

end ChainGrammar

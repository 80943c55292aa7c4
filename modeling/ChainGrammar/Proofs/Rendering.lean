import ChainGrammar.Expr.Render
import ChainGrammar.Proofs.ChainShape

/-!
# The text determines the expression

A text is read from the outside in. Its last character tells the operator at the root. What stands
between the brackets of a sequence or a choice is cut at the spaces that are not in further
brackets, which gives back the texts of the children.

* `Expr.branches`, `Expr.IsWord`, `Expr.Legible`: the expressions whose text can be read.
* `Expr.cut`, `Expr.Unbroken`: a text up to its first space outside brackets, and texts without such
  a space; `Expr.Legible.unbroken_text` says that the texts of expressions have none.
* `Expr.joined_inj`, `Expr.joined_ne`: the texts of the children are found again, and so is the
  separator between them.
* `Automaton.branches_of_chain_eq`: every choice of a chain expression has two children or more.
* `Expr.render_determines`: **the text determines the expression.**
-/

namespace ChainGrammar

namespace Expr

/-- Whether every choice has at least two children. -/
def branches {α : Type} : Expr α → Bool :=
  fold ⟨fun _ => true, fun bs => bs.all id, fun bs => decide (2 ≤ bs.length) && bs.all id, id, id⟩

/-- The characters that a text has beside those of its symbols. -/
def marks : List Char := [' ', '(', ')', '+', '?', '*']

/-- The symbol is not empty and has none of the characters that stand between symbols. -/
def IsWord (s : String) : Prop := s.toList ≠ [] ∧ ∀ c ∈ s.toList, c ∉ marks

/-- Every choice has at least two children, and every symbol is a word. -/
def Legible (e : Expr String) : Prop := e.branches = true ∧ ∀ s ∈ e.symbols, IsWord s

/-- The characters of an expression. -/
def text (e : Expr String) : List Char := e.fold renderReading

variable {e f : Expr String} {es fs : List (Expr String)} {s : String} {c : Char} {d m n : Nat}
  {k l p q sep : List Char} {ps qs : List (List Char)}

/-! ## Texts and readable expressions, operator by operator -/

theorem text_symbol (s : String) : (symbol s).text = s.toList := rfl

theorem text_sequence (es : List (Expr String)) :
    (sequence es).text = bracketed ([' '].intercalate (es.map text)) :=
  congrArg (fun ps => bracketed ([' '].intercalate ps)) (foldAll_eq_map ..)

theorem text_choice (es : List (Expr String)) :
    (choice es).text = bracketed ([' ', '+', ' '].intercalate (es.map text)) :=
  congrArg (fun ps => bracketed ([' ', '+', ' '].intercalate ps)) (foldAll_eq_map ..)

theorem text_optional (e : Expr String) : (optional e).text = e.text ++ ['?'] := rfl

theorem text_repeated (e : Expr String) : (repeated e).text = e.text ++ ['*'] := rfl

section Branches

variable {α : Type} {e : Expr α} {es : List (Expr α)}

theorem branches_sequence : (sequence es).branches = true ↔ ∀ e ∈ es, e.branches = true := by
  have hall : (sequence es).branches = (es.map branches).all id :=
    congrArg (List.all · id) (foldAll_eq_map ..)
  rw [hall, List.all_map, List.all_eq_true]
  rfl

theorem branches_choice :
    (choice es).branches = true ↔ 2 ≤ es.length ∧ ∀ e ∈ es, e.branches = true := by
  have hall : (choice es).branches =
      (decide (2 ≤ (es.map branches).length) && (es.map branches).all id) :=
    congrArg (fun bs : List Bool => decide (2 ≤ bs.length) && bs.all id) (foldAll_eq_map ..)
  rw [hall, List.length_map, List.all_map, Bool.and_eq_true, decide_eq_true_iff, List.all_eq_true]
  rfl

end Branches

theorem legible_symbol : (symbol s).Legible ↔ IsWord s := by
  simp [Legible, branches, symbols, fold]

theorem legible_sequence : (sequence es).Legible ↔ ∀ e ∈ es, e.Legible := by
  simp only [Legible, branches_sequence, symbols_sequence, List.mem_flatMap]
  grind

theorem legible_choice : (choice es).Legible ↔ 2 ≤ es.length ∧ ∀ e ∈ es, e.Legible := by
  simp only [Legible, branches_choice, symbols_choice, List.mem_flatMap]
  grind

theorem legible_optional : (optional e).Legible ↔ e.Legible := Iff.rfl

theorem legible_repeated : (repeated e).Legible ↔ e.Legible := Iff.rfl

/-! ## Texts without a space outside brackets -/

/-- The number of open brackets after a character. -/
def opened (d : Nat) (c : Char) : Nat :=
  if c = '(' then d + 1 else if c = ')' then d - 1 else d

/-- The text up to the first space outside brackets, where `d` brackets are open before it. -/
def cut : Nat → List Char → List Char
  | _, [] => []
  | d, c :: l => if d = 0 ∧ c = ' ' then [] else c :: cut (opened d c) l

/-- The text is not cut where `m` brackets or more are open before it. -/
def Unbroken (m : Nat) (l : List Char) : Prop := ∀ d k, m ≤ d → cut d (l ++ k) = l ++ cut d k

theorem unbroken_nil : Unbroken m [] := fun _ _ _ => rfl

theorem Unbroken.mono (h : Unbroken m l) (hmn : m ≤ n) : Unbroken n l :=
  fun d k hd => h d k (Nat.le_trans hmn hd)

theorem Unbroken.append (hk : Unbroken m k) (hl : Unbroken m l) : Unbroken m (k ++ l) := by
  intro d r hd
  rw [List.append_assoc, hk d _ hd, hl d r hd, List.append_assoc]

/-- A character that is no bracket leaves the number of open brackets as it is. -/
theorem unbroken_singleton (hopen : c ≠ '(') (hclose : c ≠ ')') (hspace : 0 < m ∨ c ≠ ' ') :
    Unbroken m [c] := by
  intro d k hd
  have hnot : ¬(d = 0 ∧ c = ' ') := by
    rintro ⟨rfl, rfl⟩
    rcases hspace with hm | hc
    · omega
    · exact hc rfl
  rw [List.singleton_append, cut, if_neg hnot, opened, if_neg hopen, if_neg hclose]
  rfl

theorem unbroken_word (h : ∀ c ∈ l, c ∉ marks) : Unbroken 0 l := by
  induction l with
  | nil => exact unbroken_nil
  | cons c l ih =>
    obtain ⟨hc, hl⟩ := List.forall_mem_cons.1 h
    have hmarks : c ≠ ' ' ∧ c ≠ '(' ∧ c ≠ ')' := by
      simp only [marks, List.mem_cons, not_or] at hc
      exact ⟨hc.1, hc.2.1, hc.2.2.1⟩
    exact (unbroken_singleton hmarks.2.1 hmarks.2.2 (.inr hmarks.1)).append (ih hl)

/-- The first text is followed by the others, each with a separator before it. -/
theorem intercalate_cons (sep p : List Char) (ps : List (List Char)) :
    sep.intercalate (p :: ps) = p ++ ps.flatMap (sep ++ ·) := by
  induction ps generalizing p with
  | nil => simp
  | cons q ps ih => rw [List.intercalate_cons_cons, ih, List.flatMap_cons, List.append_assoc,
      List.append_assoc]

theorem unbroken_intercalate (hsep : Unbroken m sep) (h : ∀ p ∈ ps, Unbroken m p) :
    Unbroken m (sep.intercalate ps) := by
  have hrest : ∀ qs : List (List Char), (∀ q ∈ qs, Unbroken m q) →
      Unbroken m (qs.flatMap (sep ++ ·)) := by
    intro qs hqs
    induction qs with
    | nil => exact unbroken_nil
    | cons q qs ih =>
      obtain ⟨hq, hqs⟩ := List.forall_mem_cons.1 hqs
      rw [List.flatMap_cons]
      exact (hsep.append hq).append (ih hqs)
  cases ps with
  | nil => exact unbroken_nil
  | cons p ps =>
    obtain ⟨hp, hps⟩ := List.forall_mem_cons.1 h
    rw [intercalate_cons]
    exact hp.append (hrest ps hps)

/-- **Brackets** shield the spaces between them. -/
theorem unbroken_bracketed (h : Unbroken 1 l) : Unbroken 0 (bracketed l) := by
  intro d k _
  have hinner : Unbroken 1 ([' '] ++ l ++ [' ']) :=
    ((unbroken_singleton (by decide) (by decide) (.inl Nat.one_pos)).append h).append
      (unbroken_singleton (by decide) (by decide) (.inl Nat.one_pos))
  have hclose : cut (d + 1) (')' :: k) = ')' :: cut d k := rfl
  calc cut d (bracketed l ++ k) = '(' :: cut (d + 1) ([' '] ++ l ++ [' '] ++ ')' :: k) := by
        simp [bracketed, cut, opened]
    _ = bracketed l ++ cut d k := by
        rw [hinner _ _ (Nat.le_add_left 1 d), hclose]
        simp [bracketed]

/-- **The text of an expression** has no space outside brackets. -/
theorem Legible.unbroken_text (h : e.Legible) : Unbroken 0 e.text := by
  have hplus : Unbroken 1 ['+'] := unbroken_singleton (by decide) (by decide) (.inr (by decide))
  have hspace : Unbroken 1 [' '] := unbroken_singleton (by decide) (by decide) (.inl Nat.one_pos)
  induction e using Expr.induct with
  | symbol s => exact unbroken_word (legible_symbol.1 h).2
  | sequence es ih =>
    rw [text_sequence]
    refine unbroken_bracketed (unbroken_intercalate hspace (List.forall_mem_map.2 fun e he => ?_))
    exact (ih e he (legible_sequence.1 h e he)).mono (Nat.zero_le 1)
  | choice es ih =>
    rw [text_choice]
    refine unbroken_bracketed (unbroken_intercalate ((hspace.append hplus).append hspace)
      (List.forall_mem_map.2 fun e he => ?_))
    exact (ih e he ((legible_choice.1 h).2 e he)).mono (Nat.zero_le 1)
  | optional e ih =>
    exact (ih h).append (unbroken_singleton (by decide) (by decide) (.inr (by decide)))
  | repeated e ih =>
    exact (ih h).append (unbroken_singleton (by decide) (by decide) (.inr (by decide)))

/-! ## The first and the last character -/

/-- A text is not empty and does not start as the separator of a choice does after its space. -/
theorem Legible.exists_text_eq_cons (h : e.Legible) : ∃ c l, e.text = c :: l ∧ c ≠ '+' := by
  induction e using Expr.induct with
  | symbol s =>
    obtain ⟨hne, hword⟩ := legible_symbol.1 h
    obtain ⟨c, l, hl⟩ := List.exists_cons_of_ne_nil hne
    refine ⟨c, l, hl, ?_⟩
    rintro rfl
    exact hword '+' (hl ▸ List.mem_cons_self) (by decide)
  | sequence es => exact ⟨'(', _, text_sequence es, by decide⟩
  | choice es => exact ⟨'(', _, text_choice es, by decide⟩
  | optional e ih =>
    obtain ⟨c, l, hl, hc⟩ := ih h
    exact ⟨c, l ++ ['?'], by rw [text_optional, hl, List.cons_append], hc⟩
  | repeated e ih =>
    obtain ⟨c, l, hl, hc⟩ := ih h
    exact ⟨c, l ++ ['*'], by rw [text_repeated, hl, List.cons_append], hc⟩

/-- The last character of the text of an operator, none for a symbol. -/
def closing : Expr String → Option Char
  | .symbol _ => none
  | .sequence _ | .choice _ => some ')'
  | .optional _ => some '?'
  | .repeated _ => some '*'

/-- **The last character tells the operator**, sequences and choices apart. -/
theorem Legible.getLast?_text (h : e.Legible) :
    (e.text.getLast?.filter (· ∈ marks)) = closing e := by
  cases e with
  | symbol s =>
    obtain ⟨-, hword⟩ := legible_symbol.1 h
    rw [closing, text_symbol, Option.filter_eq_none_iff]
    intro c hc
    simpa using hword c (List.mem_of_getLast? hc)
  | sequence es =>
    rw [text_sequence, bracketed, List.getLast?_append]
    rfl
  | choice es =>
    rw [text_choice, bracketed, List.getLast?_append]
    rfl
  | optional e => simp [text_optional, closing, marks]
  | repeated e => simp [text_repeated, closing, marks]

theorem Legible.closing_eq (he : e.Legible) (hf : f.Legible) (h : e.text = f.text) :
    closing e = closing f := by
  rw [← he.getLast?_text, ← hf.getLast?_text, h]

/-! ## The texts of the children -/

/-- **A text ends before a space** that is not in its brackets. -/
theorem append_inj (hp : Unbroken 0 p) (hq : Unbroken 0 q) (hk : cut 0 k = [])
    (hl : cut 0 l = []) (h : p ++ k = q ++ l) : p = q ∧ k = l := by
  have hcut := congrArg (cut 0) h
  rw [hp 0 k le_rfl, hq 0 l le_rfl, hk, hl, List.append_nil, List.append_nil] at hcut
  subst hcut
  exact ⟨rfl, List.append_cancel_left h⟩

/-- What follows the first text is nothing, or starts with the space of a separator. -/
theorem cut_flatMap (sep : List Char) (ps : List (List Char)) :
    cut 0 (ps.flatMap (' ' :: sep ++ ·)) = [] := by
  cases ps <;> rfl

theorem flatMap_inj (hps : ∀ p ∈ ps, Unbroken 0 p) (hqs : ∀ q ∈ qs, Unbroken 0 q)
    (h : ps.flatMap (' ' :: sep ++ ·) = qs.flatMap (' ' :: sep ++ ·)) : ps = qs := by
  induction ps generalizing qs with
  | nil =>
    cases qs with
    | nil => rfl
    | cons q qs => exact nomatch h
  | cons p ps ih =>
    cases qs with
    | nil => exact nomatch h
    | cons q qs =>
      obtain ⟨hp, hps⟩ := List.forall_mem_cons.1 hps
      obtain ⟨hq, hqs⟩ := List.forall_mem_cons.1 hqs
      rw [List.flatMap_cons, List.flatMap_cons, List.append_assoc, List.append_assoc] at h
      obtain ⟨hfirst, hrest⟩ := append_inj hp hq (cut_flatMap ..) (cut_flatMap ..)
        (List.append_cancel_left h)
      rw [hfirst, ih hps hqs hrest]

/-- **The texts of the children** are found again. -/
theorem joined_inj (hes : ∀ e ∈ es, e.Legible) (hfs : ∀ f ∈ fs, f.Legible)
    (h : (' ' :: sep).intercalate (es.map text) = (' ' :: sep).intercalate (fs.map text)) :
    es.map text = fs.map text := by
  have hnil : ∀ e : Expr String, ∀ es, e.Legible →
      (' ' :: sep).intercalate ((e :: es).map text) ≠ [] := by
    intro e es he hempty
    obtain ⟨c, l, hl, -⟩ := he.exists_text_eq_cons
    rw [List.map_cons, intercalate_cons, hl] at hempty
    exact nomatch hempty
  cases es with
  | nil =>
    cases fs with
    | nil => rfl
    | cons f fs => exact absurd h.symm (hnil f fs (hfs f List.mem_cons_self))
  | cons e es =>
    cases fs with
    | nil => exact absurd h (hnil e es (hes e List.mem_cons_self))
    | cons f fs =>
      obtain ⟨he, hes⟩ := List.forall_mem_cons.1 hes
      obtain ⟨hf, hfs⟩ := List.forall_mem_cons.1 hfs
      rw [List.map_cons, List.map_cons, intercalate_cons, intercalate_cons] at h
      obtain ⟨hfirst, hrest⟩ := append_inj he.unbroken_text hf.unbroken_text (cut_flatMap ..)
        (cut_flatMap ..) h
      have htexts := flatMap_inj (List.forall_mem_map.2 fun e he => (hes e he).unbroken_text)
        (List.forall_mem_map.2 fun f hf => (hfs f hf).unbroken_text) hrest
      rw [List.map_cons, List.map_cons, hfirst, htexts]

/-- **The separator** is found again where there are two children or more. -/
theorem joined_ne (hes : ∀ e ∈ es, e.Legible) (hfs : ∀ f ∈ fs, f.Legible) (hlen : 2 ≤ fs.length) :
    [' '].intercalate (es.map text) ≠ [' ', '+', ' '].intercalate (fs.map text) := by
  intro h
  obtain ⟨f, g, fs, rfl⟩ : ∃ f g gs, fs = f :: g :: gs := by
    match fs, hlen with
    | f :: g :: gs, _ => exact ⟨f, g, gs, rfl⟩
  have hf := hfs f List.mem_cons_self
  rw [List.map_cons, intercalate_cons] at h
  cases es with
  | nil =>
    obtain ⟨c, l, hl, -⟩ := hf.exists_text_eq_cons
    rw [hl] at h
    exact nomatch h
  | cons e es =>
    rw [List.map_cons, intercalate_cons] at h
    obtain ⟨-, hrest⟩ := append_inj (hes e List.mem_cons_self).unbroken_text hf.unbroken_text
      (cut_flatMap [] _) (cut_flatMap ['+', ' '] _) h
    cases es with
    | nil => exact nomatch hrest
    | cons e' es =>
      -- the second child would start with the separator
      obtain ⟨c, l, hl, hc⟩ := (hes e' (by simp)).exists_text_eq_cons
      simp only [List.map_cons, List.flatMap_cons, hl, List.cons_append, List.nil_append,
        List.cons.injEq, true_and] at hrest
      exact hc hrest.1

/-! ## Reading back -/

theorem map_text_inj
    (ih : ∀ e ∈ es, ∀ f : Expr String, e.Legible → f.Legible → e.text = f.text → e = f)
    (hes : ∀ e ∈ es, e.Legible) (hfs : ∀ f ∈ fs, f.Legible) (h : es.map text = fs.map text) :
    es = fs := by
  induction es generalizing fs with
  | nil => exact (List.map_eq_nil_iff.1 h.symm).symm
  | cons e es ih' =>
    cases fs with
    | nil => exact nomatch h
    | cons f fs =>
      obtain ⟨he, hes⟩ := List.forall_mem_cons.1 hes
      obtain ⟨hf, hfs⟩ := List.forall_mem_cons.1 hfs
      obtain ⟨ihe, ihes⟩ := List.forall_mem_cons.1 ih
      obtain ⟨hfirst, hrest⟩ := List.cons.inj h
      rw [ihe f he hf hfirst, ih' ihes hes hfs hrest]

theorem bracketed_inj (h : bracketed k = bracketed l) : k = l := by
  unfold bracketed at h
  exact List.append_cancel_left (List.append_cancel_right h)

/-- **The text of a readable expression determines it.** -/
theorem Legible.text_inj (he : e.Legible) (hf : f.Legible) (h : e.text = f.text) : e = f := by
  induction e using Expr.induct generalizing f with
  | symbol s =>
    cases f with
    | symbol t =>
      have hst : s = t := String.toList_inj.1 h
      rw [hst]
    | _ => exact absurd (he.closing_eq hf h) (by simp [closing])
  | sequence es ih =>
    cases f with
    | sequence fs =>
      rw [text_sequence, text_sequence] at h
      have htexts := joined_inj (legible_sequence.1 he) (legible_sequence.1 hf) (bracketed_inj h)
      rw [map_text_inj (fun e he f => ih e he (f := f)) (legible_sequence.1 he)
        (legible_sequence.1 hf) htexts]
    | choice fs =>
      obtain ⟨hlen, hfs⟩ := legible_choice.1 hf
      rw [text_sequence, text_choice] at h
      exact absurd (bracketed_inj h) (joined_ne (legible_sequence.1 he) hfs hlen)
    | _ => exact absurd (he.closing_eq hf h) (by simp [closing])
  | choice es ih =>
    obtain ⟨hlen, hes⟩ := legible_choice.1 he
    cases f with
    | sequence fs =>
      rw [text_sequence, text_choice] at h
      exact absurd (bracketed_inj h).symm (joined_ne (legible_sequence.1 hf) hes hlen)
    | choice fs =>
      obtain ⟨-, hfs⟩ := legible_choice.1 hf
      rw [text_choice, text_choice] at h
      have htexts := joined_inj hes hfs (bracketed_inj h)
      rw [map_text_inj (fun e he f => ih e he (f := f)) hes hfs htexts]
    | _ => exact absurd (he.closing_eq hf h) (by simp [closing])
  | optional e ih =>
    cases f with
    | optional f =>
      rw [text_optional, text_optional] at h
      have hchild := List.append_cancel_right h
      rw [ih (legible_optional.1 he) (legible_optional.1 hf) hchild]
    | _ => exact absurd (he.closing_eq hf h) (by simp [closing])
  | repeated e ih =>
    cases f with
    | repeated f =>
      rw [text_repeated, text_repeated] at h
      have hchild := List.append_cancel_right h
      rw [ih (legible_repeated.1 he) (legible_repeated.1 hf) hchild]
    | _ => exact absurd (he.closing_eq hf h) (by simp [closing])

end Expr

/-! ## Chain expressions -/

namespace Automaton

variable {α : Type} {a : Automaton α} {e : Expr α}

/-- The choice of a factor has the symbols of two nodes or more. -/
theorem branches_of_factor_eq {xs : List Nat} (hne : xs ≠ []) (h : a.factor xs = .ok e) :
    e.branches = true := by
  match xs with
  | [] => exact absurd rfl hne
  | [x] =>
    obtain ⟨t, -, h⟩ := bind_eq_ok.1 h
    obtain rfl : Expr.repeated (.symbol t) = e := Except.ok.inj h
    rfl
  | x :: y :: xs =>
    obtain ⟨ts, hts, h⟩ := bind_eq_ok.1 h
    obtain rfl : Expr.repeated (.choice (ts.map .symbol)) = e := Except.ok.inj h
    have hlen : ts.length = xs.length + 2 := (forall₂_of_mapM_eq_ok hts).length_eq.symm
    have hchoice : (Expr.choice (ts.map Expr.symbol)).branches = true := by
      rw [Expr.branches_choice, List.length_map, List.forall_mem_map]
      exact ⟨by omega, fun t _ => rfl⟩
    exact hchoice

/-- **Every choice of a chain expression** has at least two children. -/
theorem branches_of_chain_eq (h : a.chain = .ok e) : e.branches = true := by
  obtain ⟨g, -, h⟩ := bind_eq_ok.1 h
  obtain ⟨s, -, h⟩ := bind_eq_ok.1 h
  obtain ⟨q, -, h⟩ := bind_eq_ok.1 h
  obtain ⟨m, -, h⟩ := bind_eq_ok.1 h
  split at h
  · exact nomatch h
  rename_i hnil
  obtain ⟨o, -, h⟩ := bind_eq_ok.1 h
  obtain ⟨fs, hfs, h⟩ := bind_eq_ok.1 h
  obtain rfl : Expr.sequence fs = e := Except.ok.inj h
  rw [Expr.branches_sequence]
  intro f hf
  obtain ⟨i, hi, rfl⟩ := List.getElem_of_mem hf
  have hall := forall₂_of_mapM_eq_ok hfs
  have hfactor := hall.get (hall.length_eq ▸ hi) hi
  obtain ⟨xs, hxs, hfactor⟩ := bind_eq_ok.1 hfactor
  refine branches_of_factor_eq (fun hempty => hnil ?_) hfactor
  rw [← hempty]
  exact Array.mem_toList_iff.2 (Array.mem_of_getElem? (getElem?_of_entry_eq_ok hxs))

end Automaton

/-- **The text determines the expression**, if every choice has at least two children and every
symbol is a word. Chain expressions always meet the condition on choices. -/
theorem Expr.render_determines {α : Type} [DecidableEq α] :
    (∀ r₁ r₂ : Expr String, r₁.branches = true → r₂.branches = true →
      (∀ s ∈ r₁.symbols, IsWord s) → (∀ s ∈ r₂.symbols, IsWord s) → r₁.render = r₂.render →
        r₁ = r₂) ∧
      (∀ (a : Automaton α) (e : Expr α), a.chain = .ok e → e.branches = true) ∧
      ∀ ws : List (List α), ws.flatten.length < 2 ^ 63 →
        ∃ e, (Automaton.ofSequences ws).chain = .ok e ∧ e.branches = true := by
  refine ⟨fun r₁ r₂ hb₁ hb₂ hs₁ hs₂ h => ?_, fun a e => Automaton.branches_of_chain_eq, ?_⟩
  · have h₁ : r₁.Legible := ⟨hb₁, hs₁⟩
    exact h₁.text_inj ⟨hb₂, hs₂⟩ (String.ofList_injective h)
  · intro ws hws
    obtain ⟨_, _, _, _, _, _, _, fs, hsteps⟩ := Automaton.chainSteps_of_length hws
    exact ⟨_, hsteps.chain_eq, Automaton.branches_of_chain_eq hsteps.chain_eq⟩

/-- The expression `( ( s + c )* d*? (  ) )`. -/
def Expr.nested (s : String) : Expr String :=
  .sequence [.repeated (.choice [.symbol s, .symbol "c"]), .optional (.repeated (.symbol "d")),
    .sequence []]

theorem Expr.render_determines_nested :
    (nested "ab").branches = true ∧ (∀ s ∈ (nested "ab").symbols, IsWord s) ∧
      (nested ("a" ++ "b")).render = (nested "ab").render ∧ nested ("a" ++ "b") = nested "ab" ∧
      [[1, 2, 1, 3], [1, 4], []].flatten.length < 2 ^ 63 ∧
      ∃ e, (Automaton.ofSequences [[1, 2, 1, 3], [1, 4], []]).chain = .ok e ∧
        e.branches = true := by
  obtain ⟨hreads, hchains, htotal⟩ := render_determines (α := Nat)
  have hsymbols : ∀ s ∈ (nested "ab").symbols, IsWord s := by
    simp [nested, symbols, fold, foldAll, IsWord, marks]
  have hsymbols' : ∀ s ∈ (nested ("a" ++ "b")).symbols, IsWord s := by
    simp [nested, symbols, fold, foldAll, IsWord, marks]
  have hrender : (nested ("a" ++ "b")).render = (nested "ab").render := by decide
  have hlen : [[1, 2, 1, 3], [1, 4], []].flatten.length < 2 ^ 63 := by decide
  obtain ⟨e, he, -⟩ := htotal _ hlen
  exact ⟨rfl, hsymbols, hrender, hreads _ _ rfl rfl hsymbols' hsymbols hrender, hlen, e, he,
    hchains _ e he⟩

end ChainGrammar

import ChainGrammar.Proofs.Reading
import Mathlib.Data.List.Basic

/-!
# Reading undoes writing

Sequences are written one on a line, their symbols with a separator between them. A symbol comes
back if no separator stands in it and its ends are not blank, a line if it is not a comment.

* `Text.IsTidy`: the texts that trimming leaves as they are; `Text.IsTidy.intercalate` says that a
  line is such a text if its symbols are.
* `Sample.lineOf`, `Sample.textOf`: sequences as text.
* `Sample.splitOnP_intercalate`: splitting a line finds its symbols.
* `Sample.Returns`: the sequence comes back from its line; `Sample.read_text` then gives the
  sequences of a text, with its last line end or without.
* `Sample.read_written`: **reading undoes writing.**
-/

namespace ChainGrammar

/-! ## Texts without blanks at their ends -/

namespace Text

/-- The text is not empty and neither starts nor ends with a blank. -/
def IsTidy (l : List Char) : Prop :=
  l ≠ [] ∧ (∀ c ∈ l.head?, isBlank c = false) ∧ ∀ c ∈ l.getLast?, isBlank c = false

/-- The text is not empty and has no blanks. -/
def IsSolid (l : List Char) : Prop := l ≠ [] ∧ ∀ c ∈ l, isBlank c = false

variable {k l m sep : List Char} {ps : List (List Char)}

theorem IsSolid.isTidy (h : IsSolid l) : IsTidy l :=
  ⟨h.1, fun c hc => h.2 c (List.mem_of_mem_head? hc), fun c hc => h.2 c (List.mem_of_getLast? hc)⟩

theorem dropWhile_isBlank_of_head? (h : ∀ c ∈ l.head?, isBlank c = false) :
    l.dropWhile isBlank = l := by
  cases l with
  | nil => rfl
  | cons c l => rw [List.dropWhile_cons_of_neg (Bool.eq_false_iff.1 (h c rfl))]

/-- **Trimming** leaves a tidy text as it is. -/
theorem IsTidy.trim_eq (h : IsTidy l) : trim l = l := by
  have hend : l.reverse.dropWhile isBlank = l.reverse :=
    dropWhile_isBlank_of_head? (by rw [List.head?_reverse]; exact h.2.2)
  rw [trim, dropWhile_isBlank_of_head? h.2.1, trimEnd, hend, List.reverse_reverse]

theorem IsTidy.append (hk : IsTidy k) (hl : IsTidy l) (m : List Char) : IsTidy (k ++ m ++ l) := by
  refine ⟨List.append_ne_nil_of_right_ne_nil _ hl.1, ?_, ?_⟩
  · rw [List.append_assoc, List.head?_append_of_ne_nil _ hk.1]
    exact hk.2.1
  · rw [List.getLast?_append_of_ne_nil _ hl.1]
    exact hl.2.2

/-- **Tidy texts** make a tidy text, whatever stands between them. -/
theorem IsTidy.intercalate (h : ∀ p ∈ ps, IsTidy p) (hne : ps ≠ []) :
    IsTidy (sep.intercalate ps) := by
  induction ps with
  | nil => exact absurd rfl hne
  | cons p ps ih =>
    obtain ⟨hp, hps⟩ := List.forall_mem_cons.1 h
    cases ps with
    | nil => rwa [List.intercalate_singleton]
    | cons q qs =>
      rw [List.intercalate_cons_cons]
      exact hp.append (ih hps (List.cons_ne_nil q qs)) sep

theorem head?_intercalate {p : List Char} (hp : p ≠ []) (ps : List (List Char)) :
    (sep.intercalate (p :: ps)).head? = p.head? := by
  cases ps with
  | nil => rw [List.intercalate_singleton]
  | cons q qs =>
    rw [List.intercalate_cons_cons, List.append_assoc, List.head?_append_of_ne_nil _ hp]

theorem mem_of_mem_intercalate {c : Char} (h : c ∈ sep.intercalate ps) :
    c ∈ sep ∨ ∃ p ∈ ps, c ∈ p := by
  induction ps with
  | nil => exact nomatch h
  | cons p ps ih =>
    cases ps with
    | nil =>
      rw [List.intercalate_singleton] at h
      exact .inr ⟨p, List.mem_cons_self, h⟩
    | cons q qs =>
      rw [List.intercalate_cons_cons, List.mem_append, List.mem_append] at h
      obtain (hp | hsep) | hrest := h
      · exact .inr ⟨p, List.mem_cons_self, hp⟩
      · exact .inl hsep
      · exact (ih hrest).imp_right fun ⟨r, hr, hc⟩ => ⟨r, List.mem_cons_of_mem p hr, hc⟩

end Text

namespace Sample

open Text

variable {d : Option Char} {sep : Char} {l : List Char} {ps : List (List Char)} {w : List String}
  {ws : List (List String)}

/-! ## Writing -/

/-- The symbols of a sequence with the separator between them. -/
def lineOf (sep : Char) (w : List String) : List Char := [sep].intercalate (w.map String.toList)

/-- The lines of the sequences, a line end after each. -/
def textOf (sep : Char) (ws : List (List String)) : List Char :=
  ws.flatMap fun w => lineOf sep w ++ ['\n']

theorem textOf_cons (sep : Char) (w : List String) (ws : List (List String)) :
    textOf sep (w :: ws) = lineOf sep w ++ '\n' :: textOf sep ws := by
  rw [textOf, List.flatMap_cons, List.append_assoc]
  rfl

theorem textOf_cons_ne_nil (sep : Char) (w : List String) (ws : List (List String)) :
    textOf sep (w :: ws) ≠ [] := by
  rw [textOf_cons]
  exact List.append_ne_nil_of_right_ne_nil _ (List.cons_ne_nil _ _)

/-- Without its last line end, a text still has the one after its first line, if that is not all. -/
theorem dropLast_textOf_cons_cons (sep : Char) (v w : List String) (ws : List (List String)) :
    (textOf sep (v :: w :: ws)).dropLast =
      lineOf sep v ++ '\n' :: (textOf sep (w :: ws)).dropLast := by
  rw [textOf_cons, List.dropLast_append_of_ne_nil (List.cons_ne_nil _ _),
    List.dropLast_cons_of_ne_nil (textOf_cons_ne_nil sep w ws)]

/-! ## A line -/

/-- **Splitting a line** finds its symbols. -/
theorem splitOnP_intercalate {p : Char → Bool} (hsep : p sep = true)
    (h : ∀ q ∈ ps, ∀ c ∈ q, p c = false) (hne : ps ≠ []) :
    ([sep].intercalate ps).splitOnP p = ps := by
  induction ps with
  | nil => exact absurd rfl hne
  | cons q qs ih =>
    obtain ⟨hq, hqs⟩ := List.forall_mem_cons.1 h
    cases qs with
    | nil => rw [List.intercalate_singleton, List.splitOnP_eq_singleton hq]
    | cons r rs =>
      rw [List.intercalate_cons_cons, List.append_assoc, List.singleton_append,
        List.splitOnP_append_cons_of_forall_mem hq sep hsep, ih hqs (List.cons_ne_nil r rs)]

/-- Symbols without blanks are found between blanks. -/
theorem symbolsOf_none (hsep : isBlank sep = true) (h : ∀ p ∈ ps, IsSolid p) (hne : ps ≠ []) :
    symbolsOf none ([sep].intercalate ps) = ps := by
  rw [symbolsOf, splitOnP_intercalate hsep (fun p hp => (h p hp).2) hne]
  exact List.filter_eq_self.2 fun p hp => decide_eq_true (h p hp).1

/-- Tidy symbols without the delimiter are found between delimiters. -/
theorem symbolsOf_some (h : ∀ p ∈ ps, IsTidy p) (hsep : ∀ p ∈ ps, sep ∉ p) (hne : ps ≠ []) :
    symbolsOf (some sep) ([sep].intercalate ps) = ps := by
  have htrim : ps.map trim = ps :=
    (List.map_congr_left fun p hp => (h p hp).trim_eq).trans (List.map_id' ps)
  rw [symbolsOf, List.splitOn_intercalate sep hsep hne, htrim]
  exact List.filter_eq_self.2 fun p hp => decide_eq_true (h p hp).1

/-- A tidy line that is not a comment holds its symbols. -/
theorem sequenceOf_eq (h : IsTidy l) (hcomment : l.head? ≠ some '#') :
    sequenceOf d l = some ((symbolsOf d l).map String.ofList) := by
  rw [sequenceOf, h.trim_eq]
  split
  · exact absurd rfl h.1
  · exact absurd List.head?_cons hcomment
  · rfl

/-- The line of the sequence holds the sequence. -/
def Returns (d : Option Char) (sep : Char) (w : List String) : Prop :=
  '\n' ∉ lineOf sep w ∧ sequenceOf d (lineOf sep w) = some w

/-- **A sequence comes back** if its symbols do and its line is not a comment. -/
theorem returns_of_symbolsOf (hne : w ≠ []) (hcomment : ∀ s ∈ w.head?, s.toList.head? ≠ some '#')
    (htidy : ∀ s ∈ w, IsTidy s.toList) (hend : ∀ s ∈ w, '\n' ∉ s.toList) (hsep : sep ≠ '\n')
    (hsymbols : symbolsOf d (lineOf sep w) = w.map String.toList) : Returns d sep w := by
  have hline : IsTidy (lineOf sep w) :=
    IsTidy.intercalate (List.forall_mem_map.2 htidy) (mt List.map_eq_nil_iff.1 hne)
  have hhead : (lineOf sep w).head? ≠ some '#' := by
    obtain ⟨s, v, rfl⟩ := List.exists_cons_of_ne_nil hne
    rw [lineOf, List.map_cons, head?_intercalate (htidy s List.mem_cons_self).1]
    exact hcomment s rfl
  have hback : (w.map String.toList).map String.ofList = w := by
    simp only [List.map_map, Function.comp_def, String.ofList_toList, List.map_id']
  refine ⟨fun hmem => ?_, ?_⟩
  · obtain hmem | ⟨p, hp, hmem⟩ := mem_of_mem_intercalate hmem
    · exact hsep (List.mem_singleton.1 hmem).symm
    · obtain ⟨s, hs, rfl⟩ := List.mem_map.1 hp
      exact hend s hs hmem
  · rw [sequenceOf_eq hline hhead, hsymbols, hback]

/-- Symbols without blanks come back from between spaces. -/
theorem returns_none (hne : w ≠ []) (hcomment : ∀ s ∈ w.head?, s.toList.head? ≠ some '#')
    (h : ∀ s ∈ w, IsSolid s.toList) : Returns none ' ' w := by
  have hend : ∀ s ∈ w, '\n' ∉ s.toList := fun s hs hmem =>
    absurd ((h s hs).2 '\n' hmem) (by decide)
  exact returns_of_symbolsOf hne hcomment (fun s hs => (h s hs).isTidy) hend (by decide)
    (symbolsOf_none rfl (List.forall_mem_map.2 h) (mt List.map_eq_nil_iff.1 hne))

/-- Tidy symbols come back from between delimiters, whatever the delimiter is. -/
theorem returns_some (hne : w ≠ []) (hcomment : ∀ s ∈ w.head?, s.toList.head? ≠ some '#')
    (hsep : sep ≠ '\n') (h : ∀ s ∈ w, IsTidy s.toList ∧ sep ∉ s.toList ∧ '\n' ∉ s.toList) :
    Returns (some sep) sep w :=
  returns_of_symbolsOf hne hcomment (fun s hs => (h s hs).1) (fun s hs => (h s hs).2.2) hsep
    (symbolsOf_some (List.forall_mem_map.2 fun s hs => (h s hs).1)
      (List.forall_mem_map.2 fun s hs => (h s hs).2.1) (mt List.map_eq_nil_iff.1 hne))

/-! ## A text -/

theorem read_lineOf (h : Returns d sep w) : read d (.ofText (lineOf sep w)) = .ok [w] := by
  rw [read_line h.1, h.2]
  rfl

/-- **The sequences of a text**, whose last line ends as the others do. -/
theorem read_textOf (h : ∀ w ∈ ws, Returns d sep w) :
    read d (.ofText (textOf sep ws)) = .ok ws := by
  induction ws with
  | nil => rfl
  | cons w ws ih =>
    obtain ⟨hw, hws⟩ := List.forall_mem_cons.1 h
    rw [textOf_cons]
    exact read_append_text (read_lineOf hw) (ih hws)

/-- **The last line end** may be missing. -/
theorem read_dropLast_textOf (h : ∀ w ∈ ws, Returns d sep w) :
    read d (.ofText (textOf sep ws).dropLast) = .ok ws := by
  induction ws with
  | nil => rfl
  | cons v ws ih =>
    obtain ⟨hv, hws⟩ := List.forall_mem_cons.1 h
    cases ws with
    | nil =>
      have hline : (textOf sep [v]).dropLast = lineOf sep v := by
        rw [textOf_cons]
        exact List.dropLast_concat
      rw [hline]
      exact read_lineOf hv
    | cons w ws =>
      rw [dropLast_textOf_cons_cons]
      exact read_append_text (read_lineOf hv) (ih hws)

/-- The text of sequences that come back, with its last line end or without. -/
theorem read_text (h : ∀ w ∈ ws, Returns d sep w) :
    ∀ text ∈ [textOf sep ws, (textOf sep ws).dropLast], read d (.ofText text) = .ok ws :=
  List.forall_mem_cons.2 ⟨read_textOf h, List.forall_mem_singleton.2 (read_dropLast_textOf h)⟩

/-- **Reading undoes writing**, for sequences that are not empty and whose lines are no comments:
symbols without blanks are found again between spaces, and symbols without blanks at their ends
between delimiters of any kind, whether or not the last line is ended. -/
theorem read_written (ws : List (List String)) (hne : ∀ w ∈ ws, w ≠ [])
    (hcomment : ∀ w ∈ ws, ∀ s ∈ w.head?, s.toList.head? ≠ some '#') :
    ((∀ w ∈ ws, ∀ s ∈ w, IsSolid s.toList) →
      ∀ text ∈ [textOf ' ' ws, (textOf ' ' ws).dropLast], read none (.ofText text) = .ok ws) ∧
    ∀ d : Char, d ≠ '\n' →
      (∀ w ∈ ws, ∀ s ∈ w, IsTidy s.toList ∧ d ∉ s.toList ∧ '\n' ∉ s.toList) →
        ∀ text ∈ [textOf d ws, (textOf d ws).dropLast], read (some d) (.ofText text) = .ok ws := by
  constructor
  · intro hsolid
    exact read_text fun w hw => returns_none (hne w hw) (hcomment w hw) (hsolid w hw)
  · intro d hd htidy
    exact read_text fun w hw => returns_some (hne w hw) (hcomment w hw) hd (htidy w hw)

/-- A comment sign that starts no line separates symbols or is part of one. -/
theorem read_written_signs :
    read none (.ofText "a b#\nc\n".toList) = .ok [["a", "b#"], ["c"]] ∧
      read (some '#') (.ofText "a b#c\rd\ne".toList) = .ok [["a b", "c\rd"], ["e"]] := by
  have hspaced : textOf ' ' [["a", "b#"], ["c"]] = "a b#\nc\n".toList := by
    simp [textOf, lineOf, List.intercalate_cons_cons]
  have hdelimited : (textOf '#' [["a b", "c\rd"], ["e"]]).dropLast = "a b#c\rd\ne".toList := by
    simp [textOf, lineOf, List.intercalate_cons_cons]
  have hsolid : ∀ w ∈ [["a", "b#"], ["c"]], ∀ s ∈ w, IsSolid s.toList := by
    simp [IsSolid, isBlank, blankRanges]
  have htidy : ∀ w ∈ [["a b", "c\rd"], ["e"]], ∀ s ∈ w,
      IsTidy s.toList ∧ '#' ∉ s.toList ∧ '\n' ∉ s.toList := by
    simp [IsTidy, isBlank, blankRanges]
  rw [← hspaced, ← hdelimited]
  exact ⟨(read_written [["a", "b#"], ["c"]] (by simp) (by simp)).1 hsolid _ List.mem_cons_self,
    (read_written [["a b", "c\rd"], ["e"]] (by simp) (by simp)).2 '#' (by decide) htidy _
      (List.mem_cons_of_mem _ List.mem_cons_self)⟩

end Sample

end ChainGrammar

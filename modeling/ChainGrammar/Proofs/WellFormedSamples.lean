import ChainGrammar.Proofs.RoundTrip
import ChainGrammar.Proofs.ValidTexts

/-!
# What is read is well formed

Whatever a text is, the symbols that are read from it are not empty, stand on one line and have no
blanks at their ends. Between blanks they have none at all, and no sequence is empty or looks like a
comment; between delimiters they are without the delimiter, which may be any character.

* `Text.isTidy_trim`: trimming leaves no blanks at the ends.
* `Sample.of_mem_symbolsOf`: the symbols of a line, between blanks or delimiters.
* `Sample.exists_symbolsOf_eq_cons`: between blanks, the first symbol starts as the line does.
* `Sample.WellFormed`: what holds of a sequence that was read.
* `Sample.read_wellFormed`: **everything read is well formed.**
-/

namespace ChainGrammar

/-! ## Trimming -/

namespace Text

variable {l : List Char} {c : Char}

theorem not_isBlank_of_head?_dropWhile (l : List Char) :
    ∀ c ∈ (l.dropWhile isBlank).head?, isBlank c = false := by
  intro c hc
  have h := List.head?_dropWhile_not isBlank l
  rw [Option.mem_def.1 hc] at h
  exact h

theorem trimEnd_isPrefix (l : List Char) : trimEnd l <+: l := by
  have h := List.reverse_prefix.2 (List.dropWhile_suffix isBlank (l := l.reverse))
  rwa [List.reverse_reverse] at h

theorem mem_of_mem_trim (h : c ∈ trim l) : c ∈ l :=
  (List.dropWhile_suffix isBlank).subset ((trimEnd_isPrefix _).subset h)

/-- **Trimming** leaves no blanks at the ends. -/
theorem isTidy_trim (h : trim l ≠ []) : IsTidy (trim l) := by
  obtain ⟨rest, hrest⟩ := trimEnd_isPrefix (l.dropWhile isBlank)
  refine ⟨h, ?_, ?_⟩
  · have hhead : (trim l ++ rest).head? = (trim l).head? := List.head?_append_of_ne_nil _ h
    rw [← hhead, trim, hrest]
    exact not_isBlank_of_head?_dropWhile l
  · rw [trim, trimEnd, List.getLast?_reverse]
    exact not_isBlank_of_head?_dropWhile _

end Text

namespace Sample

open Text

variable {d : Option Char} {c : Char} {l p : List Char} {w : List String}
  {ws : List (List String)} {i : Input}

/-! ## The symbols of a line -/

/-- **The symbols of a line** have no blanks at their ends, between blanks none at all, and between
delimiters they are without the delimiter. -/
theorem of_mem_symbolsOf (h : p ∈ symbolsOf d l) :
    IsTidy p ∧ (∀ c ∈ p, c ∈ l) ∧ (d = none → IsSolid p) ∧ ∀ sep, d = some sep → sep ∉ p := by
  cases d with
  | none =>
    obtain ⟨hp, hne⟩ := List.mem_filter.1 h
    have hsolid : IsSolid p := ⟨of_decide_eq_true hne, fun c hc => (of_mem_splitOnP hp hc).2⟩
    exact ⟨hsolid.isTidy, fun c hc => (of_mem_splitOnP hp hc).1, fun _ => hsolid, nofun⟩
  | some e =>
    obtain ⟨hp, hne⟩ := List.mem_filter.1 h
    obtain ⟨q, hq, rfl⟩ := List.mem_map.1 hp
    have hmem : ∀ c ∈ trim q, c ∈ l ∧ c ≠ e := fun c hc => of_mem_splitOn hq (mem_of_mem_trim hc)
    exact ⟨isTidy_trim (of_decide_eq_true hne), fun c hc => (hmem c hc).1, nofun,
      fun sep hd hsep => (hmem sep hsep).2 (Option.some.inj hd).symm⟩

/-- Between blanks, the first symbol starts as the line does. -/
theorem exists_symbolsOf_eq_cons (hc : isBlank c = false) (l : List Char) :
    ∃ p ps, symbolsOf none (c :: l) = (c :: p) :: ps := by
  obtain ⟨q, qs, hqs⟩ := List.exists_cons_of_ne_nil (List.splitOnP_ne_nil isBlank l)
  refine ⟨q, qs.filter (· ≠ []), ?_⟩
  rw [symbolsOf, List.splitOnP_cons_eq_if_modifyHead, if_neg (Bool.eq_false_iff.1 hc), hqs,
    List.modifyHead_cons]
  exact List.filter_cons_of_pos (decide_eq_true (List.cons_ne_nil c q))

/-- A line with a sequence is neither blank nor a comment. -/
theorem of_sequenceOf_eq_some (h : sequenceOf d l = some w) :
    IsTidy (trim l) ∧ (trim l).head? ≠ some '#' ∧
      w = (symbolsOf d (trim l)).map String.ofList := by
  unfold sequenceOf at h
  split at h
  · exact nomatch h
  · exact nomatch h
  · next hne hcomment =>
    refine ⟨isTidy_trim hne, fun hhead => ?_, (Option.some.inj h).symm⟩
    obtain ⟨r, hr⟩ := List.head?_eq_some_iff.1 hhead
    exact hcomment r hr

/-! ## What is read -/

/-- What holds of a sequence that is read with the delimiter, or between blanks if none is given. -/
structure WellFormed (d : Option Char) (w : List String) : Prop where
  /-- No symbol is empty or has a blank at an end. -/
  tidy : ∀ s ∈ w, IsTidy s.toList
  /-- No symbol goes over a line end. -/
  oneLine : ∀ s ∈ w, '\n' ∉ s.toList
  /-- Between blanks, there is a symbol, none has a blank, and the first starts no comment. -/
  spaced : d = none →
    w ≠ [] ∧ (∀ s ∈ w, IsSolid s.toList) ∧ ∀ s ∈ w.head?, s.toList.head? ≠ some '#'
  /-- Between delimiters, no symbol has the delimiter. -/
  delimited : ∀ sep, d = some sep → ∀ s ∈ w, sep ∉ s.toList

/-- **The sequence of a line** is well formed. -/
theorem wellFormed_of_sequenceOf (hl : '\n' ∉ l) (h : sequenceOf d l = some w) :
    WellFormed d w := by
  obtain ⟨htidy, hcomment, rfl⟩ := of_sequenceOf_eq_some h
  have hsymbol : ∀ s ∈ (symbolsOf d (trim l)).map String.ofList,
      IsTidy s.toList ∧ (∀ c ∈ s.toList, c ∈ trim l) ∧ (d = none → IsSolid s.toList) ∧
        ∀ sep, d = some sep → sep ∉ s.toList := by
    refine List.forall_mem_map.2 fun p hp => ?_
    rw [String.toList_ofList]
    exact of_mem_symbolsOf hp
  constructor
  case tidy => exact fun s hs => (hsymbol s hs).1
  case oneLine => exact fun s hs hend => hl (mem_of_mem_trim ((hsymbol s hs).2.1 _ hend))
  case delimited => exact fun sep hd s hs => (hsymbol s hs).2.2.2 sep hd
  case spaced =>
    rintro rfl
    obtain ⟨c, r, hline⟩ := List.exists_cons_of_ne_nil htidy.1
    obtain ⟨p, ps, hps⟩ := exists_symbolsOf_eq_cons (htidy.2.1 c (hline ▸ rfl)) r
    refine ⟨?_, fun s hs => (hsymbol s hs).2.2.1 rfl, ?_⟩
    · rw [hline, hps]
      exact List.cons_ne_nil _ _
    · intro s hs
      rw [hline, hps, List.map_cons, List.head?_cons, Option.mem_some_iff] at hs
      rw [← hs, String.toList_ofList, List.head?_cons, ← List.head?_cons (l := r), ← hline]
      exact hcomment

/-- What is read is the text of a complete input. -/
theorem exists_text_of_read (h : read d i = .ok ws) : ∃ l, i = .ofText l := by
  obtain ⟨bytes, failure⟩ := i
  cases failure with
  | some e =>
    rcases read_failing d bytes e with ⟨-, herror⟩ | ⟨-, herror⟩
    · exact nomatch herror.symm.trans h
    · exact nomatch herror.symm.trans h
  | none =>
    obtain ⟨l, rfl, -⟩ := read_eq_ok_iff.1 h
    exact ⟨l, rfl⟩

/-- **Everything read is well formed**, whatever the text and the delimiter are. -/
theorem read_wellFormed (h : read d i = .ok ws) : ∀ w ∈ ws, WellFormed d w := by
  obtain ⟨l, rfl⟩ := exists_text_of_read h
  obtain rfl : (l.splitOn '\n').filterMap (sequenceOf d) = ws :=
    Except.ok.inj ((read_ofText d l).symm.trans h)
  intro w hw
  obtain ⟨line, hline, hsequence⟩ := List.mem_filterMap.1 hw
  exact wellFormed_of_sequenceOf (fun hend => (of_mem_splitOn hline hend).2 rfl) hsequence

/-- Signs of comments and blanks inside of lines, and a line of delimiters alone. -/
theorem read_wellFormed_signs :
    read none (.ofText "a#\u2003#b\r\n\n # c\nd".toList) = .ok [["a#", "#b"], ["d"]] ∧
      (∀ w ∈ [["a#", "#b"], ["d"]], WellFormed none w) ∧
      read (some ',') (.ofText "#\n a , ,\u00a0b#\r\n,#c,,\n,,".toList) =
        .ok [["a", "b#"], ["#c"], []] ∧
      ∀ w ∈ [["a", "b#"], ["#c"], []], WellFormed (some ',') w := by
  have hspaced : read none (.ofText "a#\u2003#b\r\n\n # c\nd".toList) =
      .ok [["a#", "#b"], ["d"]] := by decide
  have hdelimited : read (some ',') (.ofText "#\n a , ,\u00a0b#\r\n,#c,,\n,,".toList) =
      .ok [["a", "b#"], ["#c"], []] := by decide
  exact ⟨hspaced, read_wellFormed hspaced, hdelimited, read_wellFormed hdelimited⟩

end Sample

end ChainGrammar

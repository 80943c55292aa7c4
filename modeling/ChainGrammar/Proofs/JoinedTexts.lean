import ChainGrammar.Proofs.Reading
import Mathlib.Data.List.Basic

/-!
# Joined texts

What is read from two texts with a line end between them is what is read from the one and then from
the other, whatever the bytes are. The line end may be a carriage return and a line feed. The
carriage return then belongs to the last line of the first text, where it is neither part of
another character nor of a symbol: it is a character of its own and blank. An invalid line stays
one, because the lines of the two texts are the lines of the whole.

* `Text.trim_concat`, `Sample.decode_concat_return`: a blank at the end of a line is cut, and a
  carriage return is a character of its own.
* `Sample.lines_induction`, `Sample.lines_concat`: induction along the lines of a text, and a byte
  at the end of a text is one at the end of its last line.
* `Sample.read_delivered`: the lines that a buffered reader hands on, without carriage returns
  before line ends and without an empty last line, are read as the lines of the text are.
* `Sample.read_joined`: **joined texts are read one after the other.**
-/

namespace ChainGrammar

/-! ## The end of a line -/

/-- A blank at the end of a line is cut. -/
theorem Text.trim_concat {c : Char} (hc : Text.isBlank c = true) (l : List Char) :
    Text.trim (l ++ [c]) = Text.trim l := by
  have hend : ∀ k : List Char, Text.trimEnd (k ++ [c]) = Text.trimEnd k := by
    intro k
    rw [Text.trimEnd, List.reverse_append, List.reverse_singleton, List.singleton_append,
      List.dropWhile_cons_of_pos hc, Text.trimEnd]
  unfold Text.trim
  rw [List.dropWhile_append]
  split
  · next hempty =>
    -- the whole line is blank
    rw [List.isEmpty_iff.1 hempty, List.dropWhile_cons_of_pos hc, List.dropWhile_nil]
  · exact hend _

namespace Sample

variable {line : List UInt8} {m : List Char}

/-- The byte that may stand before the byte that ends a line. -/
def carriageReturn : UInt8 := 13

theorem encode_concat_return (l : List Char) :
    encode (l ++ ['\r']) = encode l ++ [carriageReturn] := by
  rw [encode_append]
  rfl

/-- A carriage return at the end of encoded characters is the last of them. -/
theorem exists_encode_of_concat_return (h : line ++ [carriageReturn] = encode m) :
    ∃ l, line = encode l := by
  obtain rfl | ⟨l, c, rfl⟩ := List.eq_nil_or_concat' m
  · exact absurd h (List.append_ne_nil_of_right_ne_nil _ (List.cons_ne_nil _ _))
  · have hbytes : encode (l ++ [c]) = encode l ++ String.utf8EncodeChar c := by
      rw [encode_append, encode_cons]
      exact congrArg (encode l ++ ·) (List.append_nil _)
    have hne : String.utf8EncodeChar c ≠ [] := by
      rw [← List.length_pos_iff, String.length_utf8EncodeChar]
      exact c.utf8Size_pos
    have hlast : (String.utf8EncodeChar c).getLast? = some carriageReturn := by
      rw [← List.getLast?_append_of_ne_nil (encode l) hne, ← hbytes, ← h, List.getLast?_concat]
    have hc : c = '\r' :=
      Char.toNat_inj.1 ((mem_utf8EncodeChar_iff (by decide) c).1 (List.mem_of_getLast? hlast))
    rw [hc, encode_concat_return] at h
    exact ⟨l, List.append_cancel_right h⟩

/-- **A carriage return is a character of its own.** -/
theorem decode_concat_return (line : List UInt8) :
    decode (line ++ [carriageReturn]) = (· ++ ['\r']) <$> decode line := by
  rcases decode_cases line with ⟨l, rfl, hl⟩ | ⟨hinvalid, hl⟩
  · rw [hl, ← encode_concat_return, decode_encode]
    rfl
  · rw [hl]
    rcases decode_cases (line ++ [carriageReturn]) with ⟨m, hm, -⟩ | ⟨-, herror⟩
    · obtain ⟨l, hl⟩ := exists_encode_of_concat_return hm
      exact absurd hl (hinvalid l)
    · rw [herror]
      rfl

theorem sequenceOf_concat_return (d : Option Char) (l : List Char) :
    sequenceOf d (l ++ ['\r']) = sequenceOf d l := by
  rw [sequenceOf, Text.trim_concat (by decide), sequenceOf]

/-- A carriage return at the end of a line makes no difference. -/
theorem readLines_concat_return (d : Option Char) (line : List UInt8) :
    readLines d [line ++ [carriageReturn]] = readLines d [line] := by
  rw [readLines_singleton, readLines_singleton, decode_concat_return]
  cases decode line with
  | error e => rfl
  | ok l => exact congrArg (Except.ok ·.toList) (sequenceOf_concat_return d l)

/-! ## Lines -/

/-- Induction along the lines of a text. -/
theorem lines_induction {P : List UInt8 → Prop} (one : ∀ l, lineEnd ∉ l → P l)
    (cons : ∀ l a, lineEnd ∉ l → P a → P (l ++ lineEnd :: a)) (a : List UInt8) : P a := by
  by_cases h : lineEnd ∈ a
  · obtain ⟨l, rest, hrest, hl⟩ := List.eq_append_cons_of_mem h
    have hshorter : rest.length < a.length := by
      rw [hrest, List.length_append, List.length_cons]
      omega
    rw [hrest]
    exact cons l rest hl (lines_induction one cons rest)
  · exact one a h
termination_by a.length

/-- **A byte at the end of a text** is one at the end of its last line. -/
theorem lines_concat {b : UInt8} (hb : b ≠ lineEnd) (a : List UInt8) :
    ∃ ls l, lines a = ls ++ [l] ∧ lines (a ++ [b]) = ls ++ [l ++ [b]] := by
  induction a using lines_induction with
  | one l hl =>
    have hlb : lineEnd ∉ l ++ [b] := by
      simp only [List.mem_append, List.mem_singleton, hl, hb.symm, or_self, not_false_iff]
    exact ⟨[], l, lines_of_notMem hl, lines_of_notMem hlb⟩
  | cons l a hl ih =>
    obtain ⟨ls, m, ha, hab⟩ := ih
    refine ⟨l :: ls, m, ?_, ?_⟩
    · rw [lines_append, lines_of_notMem hl, ha]
      rfl
    · rw [List.append_assoc, List.cons_append, lines_append, lines_of_notMem hl, hab]
      rfl

/-- **A carriage return at the end of a text** makes no difference. -/
theorem read_concat_return (d : Option Char) (a : List UInt8) :
    read d ⟨a ++ [carriageReturn], none⟩ = read d ⟨a, none⟩ := by
  obtain ⟨ls, l, ha, hreturn⟩ := lines_concat (b := carriageReturn) (by decide) a
  rw [read_complete, read_complete, ha, hreturn, readLines_append, readLines_append,
    readLines_concat_return]

/-- A line without the carriage return at its end. -/
def chomp (line : List UInt8) : List UInt8 :=
  if line.getLast? = some carriageReturn then line.dropLast else line

/-- The lines of a text as a buffered reader hands them on. A carriage return before a line end is
part of the line end, and what follows the last line end is a line if there is something. -/
def deliveredLines (a : List UInt8) : List (List UInt8) :=
  (lines a).dropLast.map chomp ++ (lines a).getLast?.toList.filter (· ≠ [])

theorem readLines_chomp (d : Option Char) (line : List UInt8) :
    readLines d [chomp line] = readLines d [line] := by
  unfold chomp
  split
  · next h =>
    rw [← readLines_concat_return, List.dropLast_append_getLast? _ h]
  · rfl

theorem readLines_map_chomp (d : Option Char) (ls : List (List UInt8)) :
    readLines d (ls.map chomp) = readLines d ls := by
  induction ls with
  | nil => rfl
  | cons line ls ih =>
    rw [List.map_cons, ← List.singleton_append, readLines_append, readLines_chomp, ih,
      ← readLines_append, List.singleton_append]

/-- **The lines that a buffered reader hands on** are read as the lines of the text are. -/
theorem read_delivered (d : Option Char) (a : List UInt8) :
    read d ⟨a, none⟩ = readLines d (deliveredLines a) := by
  obtain ⟨ls, l, hlines⟩ := (List.eq_nil_or_concat' (lines a)).resolve_left (lines_ne_nil a)
  have hlast : readLines d ([l].filter (· ≠ [])) = readLines d [l] := by
    by_cases hl : l = []
    · subst hl
      rfl
    · have hkeep : [l].filter (· ≠ []) = [l] := List.filter_cons_of_pos (decide_eq_true hl)
      rw [hkeep]
  rw [read_complete, deliveredLines, hlines, List.dropLast_concat, List.getLast?_concat,
    readLines_append, readLines_append, readLines_map_chomp]
  exact congrArg _ (funext fun xs => congrArg (· >>= _) hlast.symm)

/-! ## Joined texts -/

/-- **Joined texts are read one after the other**, and an invalid one makes the whole invalid. -/
theorem read_joined (d : Option Char) (a b : List UInt8) :
    ∀ seam ∈ [[lineEnd], [carriageReturn, lineEnd]],
      (∀ xs ys, read d ⟨a, none⟩ = .ok xs → read d ⟨b, none⟩ = .ok ys →
        read d ⟨a ++ seam ++ b, none⟩ = .ok (xs ++ ys)) ∧
      (read d ⟨a, none⟩ = .error .invalidText ∨ read d ⟨b, none⟩ = .error .invalidText →
        read d ⟨a ++ seam ++ b, none⟩ = .error .invalidText) := by
  intro seam hseam
  have hread : read d ⟨a ++ seam ++ b, none⟩ = (do
      let xs ← read d ⟨a, none⟩
      let ys ← read d ⟨b, none⟩
      return xs ++ ys) := by
    rcases List.mem_pair.1 hseam with rfl | rfl
    · rw [List.append_assoc, List.singleton_append, read_append]
    · have hbytes :
          a ++ [carriageReturn, lineEnd] ++ b = (a ++ [carriageReturn]) ++ lineEnd :: b := by
        simp only [List.append_assoc, List.cons_append, List.nil_append]
      rw [hbytes, read_append, read_concat_return]
  rw [hread]
  constructor
  · intro xs ys ha hb
    rw [ha, hb]
    rfl
  · rintro (ha | hb)
    · rw [ha]
      rfl
    · rcases readLines_cases d (lines a) with ⟨xs, ha⟩ | ha <;>
      · rw [read_complete d a, ha, hb]
        rfl

/-- A carriage return of the first text stands before the seam, and a line end cuts a character. -/
theorem read_joined_return :
    read (some '\r') ⟨[97, 13, 98, 13] ++ [carriageReturn, lineEnd] ++ [99], none⟩ =
        .ok ([["a", "b"]] ++ [["c"]]) ∧
      read none ⟨[97, 195] ++ [lineEnd] ++ [169], none⟩ = .error .invalidText :=
  ⟨(read_joined (some '\r') [97, 13, 98, 13] [99] [carriageReturn, lineEnd] (by decide)).1
      [["a", "b"]] [["c"]] (by decide) (by decide),
    (read_joined none [97, 195] [169] [lineEnd] (by decide)).2 (.inl (by decide))⟩

end Sample

end ChainGrammar

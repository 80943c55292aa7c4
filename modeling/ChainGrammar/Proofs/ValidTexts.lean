import ChainGrammar.Proofs.Reading
import Mathlib.Data.List.Basic

/-!
# Texts that can be read

A text is read line by line, and still it can be read exactly if all its bytes together are UTF-8:
a line end is part of no other character, so that cutting the text there cuts no character, and
lines that are UTF-8 make a text that is. What is read are then the sequences of all its lines.

* `Text.of_mem_splitOnP`: the pieces of a text have its characters less the separators.
* `Sample.lines_encode`: the lines of the bytes are the bytes of the lines.
* `Sample.eq_map_encode_of_mapM_decode`: only encoded lines can be decoded.
* `Sample.read_eq_ok_iff`: **what is read** are the sequences of the lines of the whole text.
* `Sample.read_isValidUTF8`: **reading fails** exactly if the text is not UTF-8.
-/

namespace ChainGrammar

/-- A piece of a text has characters of the text, and none that separates pieces. -/
theorem Text.of_mem_splitOnP {p : Char → Bool} {l q : List Char} {c : Char}
    (hq : q ∈ l.splitOnP p) (hc : c ∈ q) : c ∈ l ∧ p c = false := by
  induction l generalizing q with
  | nil =>
    rw [List.splitOnP_nil, List.mem_singleton] at hq
    subst hq
    exact nomatch hc
  | cons x l ih =>
    rw [List.splitOnP_cons_eq_if_modifyHead] at hq
    split at hq
    · rcases List.mem_cons.1 hq with rfl | hq
      · exact nomatch hc
      · exact (ih hq hc).imp_left (List.mem_cons_of_mem x)
    · next hx =>
      -- the first piece goes on to the left with `x`
      obtain ⟨r, rs, hrs⟩ := List.exists_cons_of_ne_nil (List.splitOnP_ne_nil p l)
      rw [hrs, List.modifyHead_cons] at hq
      rw [hrs] at ih
      rcases List.mem_cons.1 hq with rfl | hq
      · rcases List.mem_cons.1 hc with rfl | hc
        · exact ⟨List.mem_cons_self, Bool.eq_false_iff.2 hx⟩
        · exact (ih List.mem_cons_self hc).imp_left (List.mem_cons_of_mem x)
      · exact (ih (List.mem_cons_of_mem r hq) hc).imp_left (List.mem_cons_of_mem x)

/-- A piece of a text has characters of the text, and not the separator. -/
theorem Text.of_mem_splitOn {l q : List Char} {c d : Char} (hq : q ∈ l.splitOn d) (hc : c ∈ q) :
    c ∈ l ∧ c ≠ d := by
  rw [List.splitOn_eq_splitOnP] at hq
  exact (Text.of_mem_splitOnP hq hc).imp_right beq_eq_false_iff_ne.1

namespace Sample

variable {d : Option Char} {bytes line : List UInt8} {ls : List (List UInt8)} {l : List Char}
  {ps : List (List Char)} {ws : List (List String)}

/-! ## The lines of a text -/

theorem encode_intercalate (sep : List Char) (ps : List (List Char)) :
    encode (sep.intercalate ps) = (encode sep).intercalate (ps.map encode) := by
  induction ps with
  | nil => rfl
  | cons p ps ih =>
    cases ps with
    | nil => rw [List.map_singleton, List.intercalate_singleton, List.intercalate_singleton]
    | cons q qs =>
      rw [List.intercalate_cons_cons, encode_append, encode_append, ih]
      exact List.intercalate_cons_cons.symm

/-- The bytes of lines with a line end between them. -/
theorem encode_intercalate_lineEnd (ps : List (List Char)) :
    encode (['\n'].intercalate ps) = [lineEnd].intercalate (ps.map encode) :=
  encode_intercalate ['\n'] ps

/-- **The lines of the bytes** are the bytes of the lines. -/
theorem lines_encode (l : List Char) : lines (encode l) = (l.splitOn '\n').map encode := by
  have hjoin : encode l = [lineEnd].intercalate ((l.splitOn '\n').map encode) := by
    rw [← encode_intercalate_lineEnd, List.intercalate_splitOn]
  have hinner : ∀ p ∈ (l.splitOn '\n').map encode, lineEnd ∉ p := by
    refine List.forall_mem_map.2 fun q hq hmem => ?_
    exact (Text.of_mem_splitOn hq (lineEnd_mem_encode.1 hmem)).2 rfl
  have hne : (l.splitOn '\n').map encode ≠ [] := mt List.map_eq_nil_iff.1 (List.splitOn_ne_nil _ l)
  rw [lines, hjoin, List.splitOn_intercalate lineEnd hinner hne]

/-! ## Lines that can be decoded -/

theorem eq_encode_of_decode (h : decode line = .ok l) : line = encode l := by
  rcases decode_cases line with ⟨m, hm, hok⟩ | ⟨-, herror⟩
  · rw [hok] at h
    rw [hm, Except.ok.inj h]
  · rw [herror] at h
    exact nomatch h

theorem mapM_decode_encode (ps : List (List Char)) : (ps.map encode).mapM decode = .ok ps := by
  induction ps with
  | nil => rfl
  | cons p ps ih =>
    rw [List.map_cons, List.mapM_cons, decode_encode, ih]
    rfl

/-- **Only encoded lines** can be decoded. -/
theorem eq_map_encode_of_mapM_decode (h : ls.mapM decode = .ok ps) : ls = ps.map encode := by
  induction ls generalizing ps with
  | nil =>
    obtain rfl : [] = ps := Except.ok.inj h
    rfl
  | cons line ls ih =>
    rw [List.mapM_cons] at h
    cases hline : decode line with
    | error e =>
      rw [hline] at h
      exact nomatch h
    | ok p =>
      cases hls : ls.mapM decode with
      | error e =>
        rw [hline, hls] at h
        exact nomatch h
      | ok qs =>
        rw [hline, hls] at h
        obtain rfl : p :: qs = ps := Except.ok.inj h
        rw [List.map_cons, ← eq_encode_of_decode hline, ← ih hls]

/-! ## Whole texts -/

theorem isValidUTF8_iff : bytes.toByteArray.IsValidUTF8 ↔ ∃ l, bytes = encode l := by
  constructor
  · rintro ⟨l, hl⟩
    exact ⟨l, List.toByteArray_inj.1 hl⟩
  · rintro ⟨l, rfl⟩
    exact ByteArray.isValidUTF8_utf8Encode (l := l)

/-- **What is read** from a text are the sequences of its lines. -/
theorem read_ofText (d : Option Char) (l : List Char) :
    read d (.ofText l) = .ok ((l.splitOn '\n').filterMap (sequenceOf d)) := by
  rw [Input.ofText, read_complete, lines_encode, readLines, mapM_decode_encode]
  rfl

/-- **Nothing else is read**: the bytes are a text, and none of its lines is left out. -/
theorem read_eq_ok_iff : read d ⟨bytes, none⟩ = .ok ws ↔
    ∃ l, bytes = encode l ∧ ws = (l.splitOn '\n').filterMap (sequenceOf d) := by
  constructor
  · intro h
    obtain ⟨l, rfl⟩ : ∃ l, bytes = encode l := by
      rw [read_complete, readLines] at h
      cases hls : (lines bytes).mapM decode with
      | error e =>
        rw [hls] at h
        cases h
      | ok ps =>
        -- the decoded lines are joined to the text whose encoding the bytes are
        refine ⟨['\n'].intercalate ps, ?_⟩
        rw [encode_intercalate_lineEnd, ← eq_map_encode_of_mapM_decode hls]
        exact (List.intercalate_splitOn lineEnd).symm
    exact ⟨l, rfl, Except.ok.inj (h.symm.trans (read_ofText d l))⟩
  · rintro ⟨l, rfl, rfl⟩
    exact read_ofText d l

/-- **Reading fails exactly on bad text**: it gives the sequences of all lines if the bytes are
UTF-8 as a whole, and nothing but the failure if they are not. -/
theorem read_isValidUTF8 (d : Option Char) (bytes : List UInt8) :
    ((∃ ws, read d ⟨bytes, none⟩ = .ok ws) ↔ bytes.toByteArray.IsValidUTF8) ∧
      (read d ⟨bytes, none⟩ = .error .invalidText ↔ ¬bytes.toByteArray.IsValidUTF8) ∧
      ∀ ws, read d ⟨bytes, none⟩ = .ok ws ↔
        ∃ l, bytes = encode l ∧ ws = (l.splitOn '\n').filterMap (sequenceOf d) := by
  have hok : (∃ ws, read d ⟨bytes, none⟩ = .ok ws) ↔ bytes.toByteArray.IsValidUTF8 := by
    rw [isValidUTF8_iff]
    constructor
    · rintro ⟨ws, h⟩
      obtain ⟨l, hl, -⟩ := read_eq_ok_iff.1 h
      exact ⟨l, hl⟩
    · rintro ⟨l, rfl⟩
      exact ⟨_, read_ofText d l⟩
  refine ⟨hok, ?_, fun ws => read_eq_ok_iff⟩
  rw [← hok, read_complete]
  rcases readLines_cases d (lines bytes) with ⟨ws, h⟩ | h
  · rw [h]
    exact iff_of_false nofun fun hnone => hnone ⟨ws, rfl⟩
  · rw [h]
    exact iff_of_true rfl nofun

/-- Neither a comment nor a line end in the middle of a character makes bad text good. -/
example : read none ⟨[35, 255, 10, 97], none⟩ = .error .invalidText ∧
    read none ⟨[97, 195, 10, 169], none⟩ = .error .invalidText := by decide

end Sample

end ChainGrammar

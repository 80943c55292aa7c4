import ChainGrammar.Sample.Reader

/-!
# Reading, line by line

A text is read in the pieces that its line ends leave: what is read from two texts with a line end
between them is what is read from the one and then from the other. Encoded characters keep this
apart from UTF-8, because the byte of a line end occurs in the encoding of no other character.

* `Sample.readLines`, `Sample.read_complete`: what is read from some lines, one after the other, and
  from a text.
* `Sample.read_append`: **reading goes line by line.**
* `Sample.encode`, `Sample.Input.ofText`: characters as bytes, and the complete input made of them.
* `Sample.decode_encode`: decoding undoes encoding; `Sample.decode_cases` says that it does nothing
  else.
* `Sample.readLines_cases`: lines fail to be read only if one of them is invalid.
* `Sample.read_failing`: the error of a reader is passed on.
* `Sample.lineEnd_mem_encode`: the bytes have a line end where the characters do.
* `Sample.read_append_text`, `Sample.read_line`: reading a text, line by line and one line.
-/

namespace ChainGrammar.Sample

variable {d : Option Char} {a b : List UInt8} {k l : List Char}

/-! ## Bytes -/

theorem lines_append (a b : List UInt8) : lines (a ++ lineEnd :: b) = lines a ++ lines b := by
  simp only [lines, List.splitOn_eq_splitOnP]
  exact List.splitOnP_append_cons a b (beq_self_eq_true lineEnd)

theorem lines_of_notMem (h : lineEnd ∉ a) : lines a = [a] := by
  rw [lines, List.splitOn_eq_splitOnP]
  refine List.splitOnP_eq_singleton fun c hc => ?_
  rw [beq_eq_false_iff_ne]
  rintro rfl
  exact h hc

theorem lines_ne_nil (a : List UInt8) : lines a ≠ [] := by
  rw [lines, List.splitOn_eq_splitOnP]
  exact List.splitOnP_ne_nil _ a

/-- What is read from some lines, one after the other. -/
def readLines (d : Option Char) (ls : List (List UInt8)) :
    Except ReadError (List (List String)) :=
  (fun texts => texts.filterMap (sequenceOf d)) <$> ls.mapM decode

theorem readLines_append (d : Option Char) (ls ms : List (List UInt8)) :
    readLines d (ls ++ ms) = (do
      let xs ← readLines d ls
      let ys ← readLines d ms
      return xs ++ ys) := by
  simp only [readLines, List.mapM_append, map_eq_pure_bind, bind_assoc, pure_bind,
    List.filterMap_append]

/-- A line holds at most one sequence. -/
theorem readLines_singleton (d : Option Char) (line : List UInt8) :
    readLines d [line] = (fun l => (sequenceOf d l).toList) <$> decode line := by
  rw [readLines, List.mapM_cons, List.mapM_nil]
  cases decode line with
  | error e => rfl
  | ok l =>
    have hone : [l].filterMap (sequenceOf d) = (sequenceOf d l).toList := by
      cases hseq : sequenceOf d l <;> simp [hseq]
    exact congrArg Except.ok hone

/-- An input that comes to an end is read by reading its lines. -/
theorem read_complete (d : Option Char) (a : List UInt8) :
    read d ⟨a, none⟩ = readLines d (lines a) := by
  rw [readLines, map_eq_pure_bind]
  rfl

/-- **Reading goes line by line.** -/
theorem read_append (d : Option Char) (a b : List UInt8) :
    read d ⟨a ++ lineEnd :: b, none⟩ = (do
      let xs ← read d ⟨a, none⟩
      let ys ← read d ⟨b, none⟩
      return xs ++ ys) := by
  rw [read_complete, lines_append, readLines_append, ← read_complete, ← read_complete]

theorem read_append_of_ok {xs ys : List (List String)} (ha : read d ⟨a, none⟩ = .ok xs)
    (hb : read d ⟨b, none⟩ = .ok ys) : read d ⟨a ++ lineEnd :: b, none⟩ = .ok (xs ++ ys) := by
  rw [read_append, ha, hb]
  rfl

/-! ## Characters -/

/-- The characters in UTF-8. -/
def encode (l : List Char) : List UInt8 := l.flatMap String.utf8EncodeChar

/-- The input that yields the characters and then comes to an end. -/
def Input.ofText (l : List Char) : Input := ⟨encode l, none⟩

theorem encode_cons (c : Char) (l : List Char) :
    encode (c :: l) = String.utf8EncodeChar c ++ encode l := List.flatMap_cons

theorem encode_append (k l : List Char) : encode (k ++ l) = encode k ++ encode l :=
  List.flatMap_append

/-- **Decoding undoes encoding.** -/
theorem decode_encode (l : List Char) : decode (encode l) = .ok l := by
  have hbytes : (encode l).toByteArray = (String.ofList l).toByteArray :=
    String.toByteArray_ofList.symm
  have hvalid : (encode l).toByteArray.IsValidUTF8 := ByteArray.isValidUTF8_utf8Encode (l := l)
  have hread : String.fromUTF8? (encode l).toByteArray = some (String.ofList l) := by
    rw [String.fromUTF8?, dif_pos hvalid, Option.some_inj, ← String.toByteArray_inj]
    exact hbytes
  rw [decode, hread]
  exact congrArg Except.ok (String.toList_ofList (l := l))

/-- **What is decoded** are the encoded characters and nothing else. -/
theorem decode_cases (line : List UInt8) :
    (∃ l, line = encode l ∧ decode line = .ok l) ∨
      (∀ l, line ≠ encode l) ∧ decode line = .error .invalidText := by
  by_cases h : ∃ l, line = encode l
  · obtain ⟨l, rfl⟩ := h
    exact .inl ⟨l, rfl, decode_encode l⟩
  · refine .inr ⟨fun l hl => h ⟨l, hl⟩, ?_⟩
    have hinvalid : ¬line.toByteArray.IsValidUTF8 := by
      rintro ⟨m, hm⟩
      exact h ⟨m, List.toByteArray_inj.1 hm⟩
    rw [decode, String.fromUTF8?, dif_neg hinvalid]

/-- Lines can only fail to be read because one of them is invalid. -/
theorem readLines_cases (d : Option Char) (ls : List (List UInt8)) :
    (∃ xs, readLines d ls = .ok xs) ∨ readLines d ls = .error .invalidText := by
  induction ls with
  | nil => exact .inl ⟨[], rfl⟩
  | cons line ls ih =>
    rw [← List.singleton_append, readLines_append, readLines_singleton]
    rcases decode_cases line with ⟨l, -, hl⟩ | ⟨-, hl⟩
    · rcases ih with ⟨xs, hls⟩ | hls
      · rw [hl, hls]
        exact .inl ⟨_, rfl⟩
      · rw [hl, hls]
        exact .inr rfl
    · rw [hl]
      exact .inr rfl

/-- **The error of a reader** is passed on as it is, unless a line that was complete before it is
invalid. -/
theorem read_failing (d : Option Char) (a : List UInt8) (e : SystemError) :
    (∃ xs, readLines d (lines a).dropLast = .ok xs) ∧
        read d ⟨a, some e⟩ = .error (.readerFailed e) ∨
      readLines d (lines a).dropLast = .error .invalidText ∧
        read d ⟨a, some e⟩ = .error .invalidText := by
  have hread : read d ⟨a, some e⟩ = (do
      let _ ← readLines d (lines a).dropLast
      throw (.readerFailed e)) := by
    rw [readLines, map_eq_pure_bind, bind_assoc]
    rfl
  rw [hread]
  rcases readLines_cases d (lines a).dropLast with ⟨xs, hlines⟩ | hlines
  · rw [hlines]
    exact .inl ⟨⟨xs, rfl⟩, rfl⟩
  · rw [hlines]
    exact .inr ⟨rfl, rfl⟩

/-- A byte below 128 occurs in the encoding of the character with this number, and of no other. -/
theorem mem_utf8EncodeChar_iff {b : UInt8} (hb : b.toNat < 128) (c : Char) :
    b ∈ String.utf8EncodeChar c ↔ c.toNat = b.toNat := by
  have hchar : c.toNat = c.val.toNat := rfl
  have hbyte : ∀ n, b = UInt8.ofNat n ↔ n % 256 = b.toNat := by
    intro n
    rw [← UInt8.toNat_inj, UInt8.toNat_ofNat', eq_comm]
  rw [hchar, String.utf8EncodeChar]
  -- a byte of a longer encoding is 128 or more
  repeat' split
  all_goals
    simp only [List.mem_cons, List.not_mem_nil, hbyte, or_false]
    omega

/-- The byte of a line end occurs in the encoding of no other character. -/
theorem lineEnd_mem_utf8EncodeChar (c : Char) : lineEnd ∈ String.utf8EncodeChar c ↔ c = '\n' := by
  rw [mem_utf8EncodeChar_iff (by decide), ← Char.toNat_inj]
  rfl

theorem lineEnd_mem_encode : lineEnd ∈ encode l ↔ '\n' ∈ l := by
  simp only [encode, List.mem_flatMap, lineEnd_mem_utf8EncodeChar, exists_eq_right]

/-- **A line** holds at most one sequence. -/
theorem read_line (h : '\n' ∉ l) : read d (.ofText l) = .ok (sequenceOf d l).toList := by
  rw [Input.ofText, read_complete, lines_of_notMem (mt lineEnd_mem_encode.1 h), readLines_singleton,
    decode_encode]
  rfl

theorem read_append_text {xs ys : List (List String)} (hk : read d (.ofText k) = .ok xs)
    (hl : read d (.ofText l) = .ok ys) : read d (.ofText (k ++ '\n' :: l)) = .ok (xs ++ ys) := by
  have hbytes : encode (k ++ '\n' :: l) = encode k ++ lineEnd :: encode l := by
    rw [encode_append, encode_cons]
    rfl
  rw [Input.ofText, hbytes]
  exact read_append_of_ok hk hl

end ChainGrammar.Sample

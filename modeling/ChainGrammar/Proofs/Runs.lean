import ChainGrammar.CommandLine.Run
import ChainGrammar.Proofs.ChainLanguage
import ChainGrammar.Proofs.SymbolCounts

/-!
# How a run ends

A run that the parser of the command line lets begin ends in one of two ways. If its input cannot be
opened, breaks off or is not UTF-8, it reports that and writes nothing else. Otherwise it writes one
line, the text of an expression that accepts all sequences of the input: no step from the sequences
to the expression can fail, since there are no more symbols than bytes.

* `Sample.exists_read_iff`: an input is read if it comes to its end and is UTF-8.
* `CommandLine.infer_eq`: **some sequences always have an expression** that accepts them.
* `CommandLine.learn_exitCode_eq_one_iff`: **an input is refused** exactly if it cannot be read.
* `CommandLine.run_eq`: **what a run writes** for an input that can be read.
* `CommandLine.run_exitCode`: **how a run ends**, whatever the parser and the files are.
-/

namespace ChainGrammar

namespace Sample

/-- The reader comes to its end, and what it yields is UTF-8. -/
structure Input.IsText (i : Input) : Prop where
  complete : i.failure = none
  valid : i.bytes.toByteArray.IsValidUTF8

variable {d : Option Char} {i : Input}

/-- An input is read if it comes to its end and is UTF-8. -/
theorem exists_read_iff : (∃ ws, read d i = .ok ws) ↔ i.IsText := by
  constructor
  · rintro ⟨ws, h⟩
    obtain ⟨l, rfl⟩ := exists_text_of_read h
    exact ⟨rfl, isValidUTF8_iff.2 ⟨l, rfl⟩⟩
  · intro hi
    obtain ⟨bytes, failure⟩ := i
    obtain rfl : failure = none := hi.complete
    obtain ⟨l, rfl⟩ := isValidUTF8_iff.1 hi.valid
    exact ⟨_, read_ofText d l⟩

end Sample

namespace CommandLine

open Automaton

variable {o : Options} {i : Sample.Input} {ws : List (List String)}

/-! ## From an input to an expression -/

/-- **Some sequences always have an expression.** It accepts them, and the run ends with its
text. -/
theorem infer_eq (o : Options) (hws : ws.flatten.length < 2 ^ 63) :
    ∃ e, (ofSequences ws).chain = .ok e ∧ (∀ w ∈ ws, w ∈ e.lang) ∧
      infer o ws = ⟨0, e.render ++ "\n", diagnostics o ws⟩ := by
  obtain ⟨g, c, q, s, h, m, order, fs, hc⟩ := chainSteps_of_length hws
  refine ⟨.sequence fs, hc.chain_eq, fun w hw => hc.mem_lang_of_mem hw, ?_⟩
  rw [infer, hc.chain_eq]

/-- Whether or not there is an expression, the sequences were read. -/
theorem infer_exitCode_ne_one (o : Options) (ws : List (List String)) :
    (infer o ws).exitCode ≠ 1 := by
  unfold infer
  split <;> simp

/-- **An input that can be read** gives an expression that accepts its sequences. -/
theorem learn_eq (o : Options) (hi : i.IsText) (hlen : i.bytes.length < 2 ^ 63) :
    ∃ ws e, Sample.read o.delimiter i = .ok ws ∧ (ofSequences ws).chain = .ok e ∧
      (∀ w ∈ ws, w ∈ e.lang) ∧ learn o i = ⟨0, e.render ++ "\n", diagnostics o ws⟩ := by
  obtain ⟨ws, hread⟩ := Sample.exists_read_iff.2 hi
  have hws := Nat.lt_of_le_of_lt (Sample.length_flatten_le_of_read hread) hlen
  obtain ⟨e, hchain, haccepts, hinfer⟩ := infer_eq o hws
  refine ⟨ws, e, hread, hchain, haccepts, ?_⟩
  rw [learn, hread]
  exact hinfer

/-- **An input is refused** exactly if it cannot be read. -/
theorem learn_exitCode_eq_one_iff : (learn o i).exitCode = 1 ↔ ¬i.IsText := by
  rw [← Sample.exists_read_iff (d := o.delimiter), learn]
  cases Sample.read o.delimiter i with
  | ok ws => exact iff_of_false (infer_exitCode_ne_one o ws) fun hnone => hnone ⟨ws, rfl⟩
  | error e => exact iff_of_true rfl nofun

/-- What a reader that fails says is what the run reports, unless a line before is invalid. -/
theorem learn_failing (o : Options) (bytes : List UInt8) (e : SystemError) :
    learn o ⟨bytes, some e⟩ = .failure e ∨
      learn o ⟨bytes, some e⟩ = .failure Sample.ReadError.invalidText.systemError := by
  rcases Sample.read_failing o.delimiter bytes e with ⟨-, hread⟩ | ⟨-, hread⟩
  · exact .inl (by rw [learn, hread]; rfl)
  · exact .inr (by rw [learn, hread])

theorem learn_exitCode (o : Options) (hlen : i.bytes.length < 2 ^ 63) :
    (learn o i).exitCode = 0 ∧ i.IsText ∨ (learn o i).exitCode = 1 ∧ ¬i.IsText := by
  by_cases hi : i.IsText
  · obtain ⟨ws, e, -, -, -, hlearn⟩ := learn_eq o hi hlen
    exact .inl ⟨by rw [hlearn], hi⟩
  · exact .inr ⟨learn_exitCode_eq_one_iff.2 hi, hi⟩

/-! ## Whole runs -/

section Run

variable {parse : List String → Except Refusal Options}
  {file : String → Except SystemError Sample.Input} {standard : Sample.Input}
  {arguments : List String}

/-- **What a run writes** for an input that can be read: the text of an expression that accepts all
sequences of the input. -/
theorem run_eq (hparse : parse arguments = .ok o) (hinput : o.input file standard = .ok i)
    (hi : i.IsText) (hlen : i.bytes.length < 2 ^ 63) :
    ∃ ws e, Sample.read o.delimiter i = .ok ws ∧ (ofSequences ws).chain = .ok e ∧
      (∀ w ∈ ws, w ∈ e.lang) ∧
      run parse file standard arguments = ⟨0, e.render ++ "\n", diagnostics o ws⟩ := by
  obtain ⟨ws, e, hread, hchain, haccepts, hlearn⟩ := learn_eq o hi hlen
  refine ⟨ws, e, hread, hchain, haccepts, ?_⟩
  simp only [run, hparse, hinput, hlearn]

/-- **How a run ends**, whatever the parser and the files are. The parser may end it, for help or
for wrong arguments. Otherwise the exit code says whether the input can be opened and read; there is
no other one. -/
theorem run_exitCode (hstandard : standard.bytes.length < 2 ^ 63)
    (hfile : ∀ name i, file name = .ok i → i.bytes.length < 2 ^ 63) :
    (∃ t, parse arguments = .error (.help t) ∧
      (run parse file standard arguments).exitCode = 0) ∨
    (∃ t, parse arguments = .error (.usage t) ∧
      (run parse file standard arguments).exitCode = 2) ∨
    ∃ o, parse arguments = .ok o ∧
      ((run parse file standard arguments).exitCode = 0 ∧
          (∃ i, o.input file standard = .ok i ∧ i.IsText) ∨
        (run parse file standard arguments).exitCode = 1 ∧
          ∀ i, o.input file standard = .ok i → ¬i.IsText) := by
  rw [run]
  cases hparse : parse arguments with
  | error r =>
    cases r with
    | help t => exact .inl ⟨t, rfl, rfl⟩
    | usage t => exact .inr (.inl ⟨t, rfl, rfl⟩)
  | ok o =>
    refine .inr (.inr ⟨o, rfl, ?_⟩)
    cases hinput : o.input file standard with
    | error e =>
      simp only [hinput]
      exact .inr ⟨rfl, nofun⟩
    | ok i =>
      have hlen : i.bytes.length < 2 ^ 63 := by
        unfold Options.input at hinput
        split at hinput
        · exact Except.ok.inj hinput ▸ hstandard
        · exact hfile _ i hinput
      simp only [hinput]
      rcases learn_exitCode o hlen with ⟨hcode, hi⟩ | ⟨hcode, hi⟩
      · exact .inl ⟨hcode, i, rfl, hi⟩
      · exact .inr ⟨hcode, fun j hj => Except.ok.inj hj ▸ hi⟩

end Run

end CommandLine

end ChainGrammar

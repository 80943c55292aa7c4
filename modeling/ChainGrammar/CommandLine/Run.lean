import ChainGrammar.Automaton.Listing
import ChainGrammar.Chain
import ChainGrammar.CommandLine.Verbosity
import ChainGrammar.Expr.Render
import ChainGrammar.Sample.Reader

/-!
# A run of the program

The program reads sample sequences from a file or from its standard input and
writes their chain expression. Everything that a run depends on is an argument
here: the parser of the command line, the files, the standard input and the
arguments.

* `Options`, `Refusal`: what the parser makes of the arguments.
* `run`: the outcome of a run.
* `Outcome`: its exit code and what it writes.
-/

namespace ChainGrammar.CommandLine

/-- What the command line asks for. Without a file the standard input is read, and without a
delimiter blanks separate the symbols. -/
structure Options where
  verbosity : Verbosity
  file : Option String
  delimiter : Option Char
  stats : Bool

/-- The text with which the parser ends a run instead. -/
inductive Refusal where
  /-- Help was asked for. -/
  | help (text : String)
  /-- The arguments are wrong. -/
  | usage (text : String)

/-- The exit code of a run, and what it writes to the standard output and to the standard error. -/
structure Outcome where
  exitCode : Nat
  output : String
  diagnostics : String
deriving DecidableEq

/-- A text that was asked for goes to the standard output, any other to the standard error. -/
def Refusal.outcome : Refusal → Outcome
  | .help text => ⟨0, text, ""⟩
  | .usage text => ⟨2, "", text⟩

/-- The outcome of a run that an error ends. -/
def Outcome.failure (e : SystemError) : Outcome := ⟨1, "", "Error: " ++ e.describe ++ "\n"⟩

/-- What a run says about the sequences it has read. -/
def progress (o : Options) (sequences : List (List String)) : String :=
  if o.verbosity.level.reports .info then
    "Learning " ++ sequences.length.repr ++ " example sequences\n"
  else ""

/-- All that a run with an expression writes to the standard error. -/
def diagnostics (o : Options) (sequences : List (List String)) : String :=
  progress o sequences ++ if o.stats then (Automaton.ofSequences sequences).statistics else ""

/-- The outcome for some sequences. -/
def infer (o : Options) (sequences : List (List String)) : Outcome :=
  match (Automaton.ofSequences sequences).chain with
  | .ok e => ⟨0, e.render ++ "\n", diagnostics o sequences⟩
  | .error e => ⟨101, "", diagnostics o sequences ++ e.message ++ "\n"⟩

/-- The outcome for an input. -/
def learn (o : Options) (i : Sample.Input) : Outcome :=
  match Sample.read o.delimiter i with
  | .ok sequences => infer o sequences
  | .error e => .failure e.systemError

/-- The input that the options name. A file may not open. -/
def Options.input (o : Options) (file : String → Except SystemError Sample.Input)
    (standard : Sample.Input) : Except SystemError Sample.Input :=
  match o.file with
  | none => .ok standard
  | some name => file name

/-- The outcome of a run with the given parser, files, standard input and arguments. -/
def run (parse : List String → Except Refusal Options)
    (file : String → Except SystemError Sample.Input) (standard : Sample.Input)
    (arguments : List String) : Outcome :=
  match parse arguments with
  | .error r => r.outcome
  | .ok o =>
    match o.input file standard with
    | .ok i => learn o i
    | .error e => .failure e

end ChainGrammar.CommandLine

import ChainGrammar.CommandLine.Run

/-!
# The program

Reads the file or the standard input, and writes what the run yields. The parser
of the command line is left open.

* `program`: the program with a parser.
-/

namespace ChainGrammar.CommandLine

/-- The number of a system error, which some system calls report with a minus sign. -/
def errorNumber (code : UInt32) : Nat := (min code (-code)).toNat

/-- The kind of a system error. -/
def errorKind : Nat → String
  | 2 => "NotFound"
  | 13 => "PermissionDenied"
  | 20 => "NotADirectory"
  | 21 => "IsADirectory"
  | 36 => "InvalidFilename"
  | _ => "Uncategorized"

/-- The error of a system call. -/
def systemErrorOf : IO.Error → SystemError
  | .noFileOrDirectory _ code details | .permissionDenied _ code details
  | .inappropriateType _ code details | .invalidArgument _ code details =>
    ⟨some (errorNumber code), errorKind (errorNumber code), details⟩
  | e => ⟨none, "Other", e.toString⟩

/-- What a stream yields up to its end, after some bytes that it has yielded already. -/
partial def readStream (stream : IO.FS.Stream) (bytes : ByteArray) : IO Sample.Input := do
  try
    let more ← stream.read 65536
    if more.isEmpty then return ⟨bytes.toList, none⟩ else readStream stream (bytes ++ more)
  catch e =>
    return ⟨bytes.toList, some (systemErrorOf e)⟩

/-- What a file yields. -/
def readFile (name : String) : IO (Except SystemError Sample.Input) := do
  try
    return .ok ⟨(← IO.FS.readBinFile name).toList, none⟩
  catch e =>
    return .error (systemErrorOf e)

/-- The program with a parser of the command line. It reads only the input that the arguments
name. -/
def program (parse : List String → Except Refusal Options) (arguments : List String) :
    IO UInt32 := do
  let outcome ← match parse arguments with
    | .ok { file := some name, .. } =>
      let content ← readFile name
      pure (run parse (fun _ => content) ⟨[], none⟩ arguments)
    | .ok _ =>
      let standard ← readStream (← IO.getStdin) .empty
      pure (run parse (fun _ => .ok standard) standard arguments)
    | .error r => pure r.outcome
  (← IO.getStdout).putStr outcome.output
  (← IO.getStderr).putStr outcome.diagnostics
  return outcome.exitCode.toUInt32

end ChainGrammar.CommandLine

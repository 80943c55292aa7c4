import ChainGrammar.Text.Quoted

/-!
# Errors of the system

What a file or a reader reports when it has no bytes to give. The program passes
such an error on as it is.

* `SystemError`: an error, with what it says about itself.
* `SystemError.describe`: its description.
-/

namespace ChainGrammar

/-- An error with its kind and its wording. An error of the operating system has a number. -/
structure SystemError where
  code : Option Nat
  kind : String
  message : String
deriving DecidableEq

/-- The description of an error. -/
def SystemError.describe (e : SystemError) : String :=
  let head := match e.code with
    | some code => "Os \x7b code: " ++ code.repr ++ ", "
    | none => "Error \x7b "
  head ++ "kind: " ++ e.kind ++ ", message: " ++ Text.quote e.message ++ " \x7d"

end ChainGrammar

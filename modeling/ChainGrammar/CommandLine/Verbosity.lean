/-!
# How much is reported

* `Level`: the amounts of reporting.
* `Verbosity.level`: the amount that the switches ask for.
-/

namespace ChainGrammar.CommandLine

/-- How much a run reports, from nothing to everything. -/
inductive Level where
  | off
  | warn
  | info
  | debug
  | trace
deriving DecidableEq

/-- The rank of a level; a level includes those of lower rank. -/
def Level.rank : Level → Nat
  | .off => 0
  | .warn => 1
  | .info => 2
  | .debug => 3
  | .trace => 4

/-- Whether a message of level `m` is reported at the level. -/
def Level.reports (l m : Level) : Bool := m.rank ≤ l.rank

/-- The name of a level. -/
def Level.name : Level → String
  | .off => "OFF"
  | .warn => "WARN"
  | .info => "INFO"
  | .debug => "DEBUG"
  | .trace => "TRACE"

/-- The switches that choose the level. -/
structure Verbosity where
  quiet : Bool
  verbose : Bool
  debug : Bool
  trace : Bool
deriving DecidableEq

/-- Quiet wins; otherwise the switch that asks for most. Without switches, warnings are
reported. -/
def Verbosity.level (v : Verbosity) : Level :=
  if v.quiet then .off
  else if v.trace then .trace
  else if v.debug then .debug
  else if v.verbose then .info
  else .warn

end ChainGrammar.CommandLine

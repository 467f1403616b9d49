/-!
# Settings

How a session runs. Every setting has a default, so that a settings file may leave any of them out.
-/

set_option autoImplicit false

namespace Lox

/-- How durations are reported. -/
inductive TimingsFormat where
  | human
  | json
deriving DecidableEq, Repr

/-- The settings of a session. -/
structure Settings where
  /-- Log the stack and the instruction before each step. -/
  traceExecution : Bool := false
  /-- Log the listing of a script before it runs. -/
  dumpBytecode : Bool := false
  /-- Report durations after a run. -/
  timings : Option TimingsFormat := none
  /-- Install native functions. -/
  natives : Bool := true
deriving DecidableEq, Repr

end Lox

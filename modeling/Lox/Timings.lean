import Lox.Settings

/-!
# Timings

How long it took to compile and to execute a script, in microseconds. Durations are numbers of 128
bits; the report for programs keeps the low 64 bits of each.
-/

set_option autoImplicit false

namespace Lox

/-- The durations of the two phases, in microseconds. -/
structure Timings where
  compile : Nat
  execute : Nat
deriving DecidableEq, Repr

namespace Timings

/-- The durations of two phases given in nanoseconds; fractions of a microsecond are dropped. -/
def ofNanoseconds (compile execute : Nat) : Timings :=
  { compile := compile / 1000, execute := execute / 1000 }

/-- The duration of both phases together, modulo the range of durations. -/
def total (t : Timings) : Nat := (t.compile + t.execute) % Nat.pow 2 128

/-- The low 64 bits of a number. -/
def low64 (n : Nat) : Nat := n % Nat.pow 2 64

/-- The report of the durations. -/
def render (t : Timings) : TimingsFormat → String
  | .human =>
    "compile: " ++ toString t.compile ++ "us\nexecute: " ++ toString t.execute
      ++ "us\ntotal:   " ++ toString t.total ++ "us"
  | .json =>
    r#"{"compile_us":"# ++ toString (low64 t.compile) ++ r#","execute_us":"#
      ++ toString (low64 t.execute) ++ r#","total_us":"# ++ toString (low64 t.total) ++ r"}"

end Timings

end Lox

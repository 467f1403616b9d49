import Lox.Compiler
import Lox.Machine.Run
import Lox.Native
import Lox.Timings

/-!
# Sessions

A session compiles and runs one source text after the other on one machine, so globals and strings
persist. `Session.load` and `Session.close` stand before and after a run, for hosts that run the
machine in slices; `Session.interpret` is all of it at once.
-/

set_option autoImplicit false

namespace Lox

/-- A machine with its settings. -/
structure Session where
  settings : Settings := {}
  machine : Machine := {}
  /-- The durations of the last run. -/
  timings : Option Timings := none
  /-- Why flushing the output fails, if it does. -/
  flushError : Option String := none
  /-- What the host was warned of, newest first. -/
  warnings : List String := []

/-- What came of a source text. -/
inductive Outcome where
  | ok
  | rejected (problems : List Diagnostic)
  | failed (error : RuntimeError)
  /-- Tracing was asked for an instruction outside the code. -/
  | crashed
  /-- The fuel was used up. -/
  | unfinished
deriving DecidableEq, Repr

/-- The text of an outcome that is reported. -/
def Outcome.text? : Outcome → Option String
  | ok => none
  | rejected problems => some (Diagnostic.textOfAll problems)
  | failed error => some error.text
  | crashed => some "tracing outside the code"
  | unfinished => some "out of fuel"

/-- The exit code that reports an outcome. -/
def Outcome.exitCode : Outcome → Nat
  | ok => 0
  | rejected _ => 65
  | failed _ => 70
  | crashed => 101
  | unfinished => 1

namespace Session

/-- A new session; its machine writes to the given output. -/
def create (settings : Settings) (output : Output) : Session :=
  let machine : Machine := { output }
  { settings
    machine := if settings.natives then machine.defineNative "clock" 0 .clock else machine }

/-- Compiles a source text and pushes the script, ready to run in the frame returned. -/
def load (s : Session) (source : String) : Except (List Diagnostic) Frame × Session :=
  let { settings, machine, timings, flushError, warnings } := s
  let (result, heap) := compile source machine.heap
  let machine := { machine with heap }
  match result with
  | .error problems => (.error problems, { settings, machine, timings, flushError, warnings })
  | .ok f =>
    let machine :=
      if settings.dumpBytecode then { machine with log := machine.log ++ f.tree } else machine
    let frame : Frame := { function := f, ip := 0, base := machine.stack.size }
    let machine := machine.push (.object (.function f))
    (.ok frame, { settings, machine, timings, flushError, warnings })

/-- Notes the durations of a run that has come to its end, and flushes the output. A flush that fails is
worth a warning and nothing more. -/
def close (s : Session) (machine : Machine) (timings : Timings) : Session :=
  { s with machine, timings := some timings, warnings := s.flushError.toList ++ s.warnings }

/-- Compiles and runs a source text with at most `fuel` instructions. Time is the host's to measure:
here both phases take none. -/
def interpret (s : Session) (source : String) (fuel : Nat) : Outcome × Session :=
  match s.load source with
  | (.error problems, s) => (.rejected problems, s)
  | (.ok frame, s) =>
    let { settings, machine, timings, flushError, warnings } := s
    match machine.run settings.traceExecution fuel frame with
    | .finished machine => (.ok, close { settings, timings, flushError, warnings } machine ⟨0, 0⟩)
    | .failed machine error =>
      (.failed error, close { settings, timings, flushError, warnings } machine ⟨0, 0⟩)
    | .crashed machine => (.crashed, { settings, machine, timings, flushError, warnings })
    | .running machine _ => (.unfinished, { settings, machine, timings, flushError, warnings })

end Session

end Lox

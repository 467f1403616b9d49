import Lox.Bytecode.Listing
import Lox.Machine.Step

/-!
# Runs

`Machine.run` executes instructions until the script returns, fails, or its fuel is used up; then it
can be run on. A failed run leaves the stack empty, so that the machine can run again. With tracing
on, the stack and the next instruction are logged before each step; there must be an instruction to
log.
-/

set_option autoImplicit false

namespace Lox

/-- How far a run has come. -/
inductive Progress where
  /-- The fuel is used up. -/
  | running (m : Machine) (frame : Frame)
  | finished (m : Machine)
  | failed (m : Machine) (error : RuntimeError)
  /-- Tracing was asked for an instruction outside the code. -/
  | crashed (m : Machine)

/-- The line that a call has reached. -/
def Frame.tracePoint (frame : Frame) : TracePoint :=
  { line := frame.function.chunk.lineAt (frame.ip - 1)
    name := frame.function.name.map (·.text) }

namespace Machine

/-- Ends a failed run: takes down the calls in progress and clears the stack. -/
def abort (m : Machine) (frame : Frame) (fault : Fault) : Machine × RuntimeError :=
  ({ m with stack := #[], callers := [] },
    { fault, trace := frame.tracePoint :: m.callers.map Frame.tracePoint })

/-- Logs the stack and the next instruction; fails when there is none. -/
def trace (m : Machine) (frame : Frame) : Bool × Machine :=
  let stack := stackText m.stack ++ "\n"
  match frame.function.chunk.listingLine? frame.ip with
  | some (line, _) => (true, { m with log := m.log ++ stack ++ line ++ "\n" })
  | none => (false, { m with log := m.log ++ stack })

/-- Executes at most `fuel` instructions. -/
def run (tracing : Bool) : Nat → Machine → Frame → Progress
  | 0, m, frame => .running m frame
  | fuel + 1, m, frame =>
    let (traced, m) := if tracing then m.trace frame else (true, m)
    if traced then
      match m.step frame with
      | .next m frame => run tracing fuel m frame
      | .halt m => .finished m
      | .fail m frame fault =>
        let (m, error) := m.abort frame fault
        .failed m error
    else .crashed m

end Machine

end Lox

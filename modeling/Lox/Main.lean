import Lox.Command.Task

/-!
# The command line

Reads files and input, writes output as it comes, and measures time. All that is decided is decided in
`Lox.Command`.
-/

set_option autoImplicit false

namespace Lox.Command

/-- The number of instructions between two looks at the clock. -/
def slice : Nat := 100000

/-- Why the system could not read a file. -/
def fileError : IO.Error → FileError
  | .noFileOrDirectory .. | .noSuchThing .. => .missing
  | .inappropriateType .. => .isDirectory
  | e => .other (toString e)

/-- Reads a file. -/
def readFile (path : String) : IO Contents := do
  try
    return .ok (← IO.FS.readBinFile path)
  catch e => return .error (fileError e)

/-- The files that a command may read. -/
def paths : Command → List String
  | .run options =>
    options.settingsFile.getD defaultSettingsFile :: options.file.toList
  | .repl settingsFile => [settingsFile.getD defaultSettingsFile]
  | .disassemble path | .check path => [path]
  | .help _ => []

/-- Reads the files that a command may read. -/
def gather (command : Command) : IO Files := do
  let found ← command.paths.mapM fun path => do return (path, ← readFile path)
  return { directory := (← IO.currentDir).toString
           read := fun path => (found.lookup path).getD (.error .missing) }

/-- Writes what a machine has printed and logged since the last time. -/
def flush (m : Machine) : IO Machine := do
  let (written, output) := m.output.take
  let out ← IO.getStdout
  out.write written
  out.flush
  IO.eprint m.log
  return { m with output, log := "" }

/-- Seconds since a moment given in nanoseconds. -/
def secondsSince (start : Nat) : IO Float := do
  return Float.ofNat ((← IO.monoNanosNow) - start) / 1000000000

/-- Runs a machine to its end. -/
partial def drive (start : Nat) (tracing : Bool) (m : Machine) (frame : Frame) :
    IO (Outcome × Machine) := do
  let now ← secondsSince start
  match { m with now }.run tracing slice frame with
  | .running m frame => drive start tracing (← flush m) frame
  | .finished m => return (.ok, ← flush m)
  | .failed m error => return (.failed error, ← flush m)
  | .crashed m => return (.crashed, ← flush m)

/-- Compiles and runs a source text. -/
def interpret (start : Nat) (s : Session) (source : String) : IO (Outcome × Session) := do
  let began ← IO.monoNanosNow
  let (result, s) := s.load source
  match result with
  | .error problems => return (.rejected problems, s)
  | .ok frame =>
    let compiled ← IO.monoNanosNow
    let (outcome, machine) ← drive start s.settings.traceExecution s.machine frame
    let ended ← IO.monoNanosNow
    return (outcome, s.close machine (.ofNanoseconds (compiled - began) (ended - compiled)))

/-- Reads bytes up to and including the next line feed. At the end of the input there are none. -/
partial def readLine (input : IO.FS.Stream) (line : ByteArray) : IO ByteArray := do
  let byte ← input.read 1
  if byte.isEmpty || byte.data.back? = some 10 then return line ++ byte
  else readLine input (line ++ byte)

/-- Runs the lines of the standard input, after a prompt each where a person types them. -/
partial def converse (start : Nat) (interactive : Bool) (s : Session) : IO Nat := do
  if interactive then
    IO.print "> "
    (← IO.getStdout).flush
  let line ← try
      readLine (← IO.getStdin) .empty
    catch e =>
      IO.eprint (inputUnread (fileError e))
      return inputUnreadCode
  if line.isEmpty then
    if interactive then IO.println ""
    return 0
  match String.fromUTF8? ((Text.lines line).headD .empty) with
  | none =>
    IO.eprint (inputUnread .notText)
    return inputUnreadCode
  | some source =>
    let (outcome, s) ← interpret start s source
    if let some text := outcome.text? then IO.eprintln text
    converse start interactive s

/-- Does a task and returns its exit code. -/
def perform : Task → IO Nat
  | .run settings source => do
    let start ← IO.monoNanosNow
    let (outcome, s) ← interpret start (Session.create settings {}) source
    IO.eprint (runReport s outcome)
    return outcome.exitCode
  | .repl settings => do
    let start ← IO.monoNanosNow
    converse start (← (← IO.getStdin).isTty) (Session.create settings {})
  | .say text => do
    IO.print text
    return 0

end Lox.Command

/-- The program. -/
def main (args : List String) : IO UInt32 := do
  match Lox.Command.parse? args with
  | none =>
    IO.eprint Lox.Command.misuse
    return Lox.Command.misuseCode.toUInt32
  | some command =>
    match command.prepare (← command.gather) with
    | .error stop =>
      IO.eprint stop.message
      return stop.exitCode.toUInt32
    | .ok task => return (← Lox.Command.perform task).toUInt32

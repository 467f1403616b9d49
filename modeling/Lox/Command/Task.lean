import Lox.Command
import Lox.Command.Files
import Lox.Session
import Lox.Text.Utf8

/-!
# Tasks

`Command.prepare` reads the files of a command and gives the task that is left to do, or the reason to
stop. `Task.execute` does a task, with all output kept; a host that writes output as it comes does the
same in steps.
-/

set_option autoImplicit false

namespace Lox

namespace Command

/-- Why a command stops before it runs anything. -/
inductive Stop where
  | settingsUnread (path : String) (error : FileError)
  | settingsInvalid (path : String)
  | sourceUnread (path : String) (error : FileError)
  | noSource
  | rejected (problems : List Diagnostic)
deriving DecidableEq, Repr

/-- The report of a reason to stop. -/
def Stop.message : Stop → String
  | settingsUnread path e => "error: failed to read " ++ path ++ ": " ++ e.message ++ "\n"
  | settingsInvalid path => "error: failed to parse " ++ path ++ ": TOML parse error\n"
  | sourceUnread path e => "error: could not read " ++ path ++ ": " ++ e.message ++ "\n"
  | noSource => "error: no file specified\nusage: lox run <file> or lox run -c <code>\n"
  | rejected problems => Diagnostic.textOfAll problems ++ "\n"

/-- The exit code of a reason to stop. -/
def Stop.exitCode : Stop → Nat
  | settingsUnread .. | settingsInvalid _ => 78
  | sourceUnread .. => 74
  | noSource => 64
  | rejected _ => 65

/-- What is left to do when all files are read. -/
inductive Task where
  | run (settings : Settings) (source : String)
  | repl (settings : Settings)
  | say (text : String)
deriving DecidableEq, Repr

/-- The settings file that is read where none is named. -/
def defaultSettingsFile : String := "lox.toml"

/-- The settings in a file. -/
def settingsIn (path : String) (contents : Contents) : Except Stop Settings :=
  match contents.text with
  | .error e => .error (.settingsUnread path e)
  | .ok text =>
    match Settings.parse? text with
    | some settings => .ok settings
    | none => .error (.settingsInvalid path)

/-- A name in a directory. -/
def joinPath (directory name : String) : String :=
  if directory.endsWith "/" then directory ++ name else directory ++ "/" ++ name

/-- The settings in the file that is named; else those in the working directory's settings file, if there
is one; else the default settings. -/
def settings (files : Files) : Option String → Except Stop Settings
  | some path => settingsIn path (files.read path)
  | none =>
    let contents := files.read defaultSettingsFile
    if contents.isFile then
      settingsIn (joinPath files.directory defaultSettingsFile) contents
    else .ok {}

/-- The source text in a file. -/
def sourceIn (files : Files) (path : String) : Except Stop String :=
  (files.read path).text.mapError (.sourceUnread path)

/-- The source text of a run. -/
def source (files : Files) (o : RunOptions) : Except Stop String :=
  match o.code, o.file with
  | some code, _ => .ok code
  | none, some path => sourceIn files path
  | none, none => .error .noSource

/-- Reads the files of a command, settings first. -/
def prepare (files : Files) : Command → Except Stop Task
  | .run options => do
    let settings ← settings files options.settingsFile
    return .run (options.apply settings) (← source files options)
  | .repl settingsFile => return .repl (← settings files settingsFile)
  | .disassemble path => do
    return .say (← (listSource (← sourceIn files path)).mapError .rejected)
  | .check path => do
    let _ ← (checkSource (← sourceIn files path)).mapError .rejected
    return .say "Check passed.\n"
  | .help text => return .say text

/-- What a command has written, and its exit code. -/
structure Report where
  exitCode : Nat
  output : ByteArray := .empty
  errors : String := ""

/-- The report on a run: its durations, if they are asked for, and what went wrong. -/
def runReport (s : Session) (outcome : Outcome) : String :=
  let timings := match s.settings.timings, s.timings with
    | some format, some timings => timings.render format ++ "\n"
    | _, _ => ""
  match outcome.text? with
  | some text => timings ++ text ++ "\n"
  | none => timings

/-- The report on an input that cannot be read. -/
def inputUnread (e : FileError) : String := "error: " ++ e.message ++ "\n"

/-- The exit code where an input cannot be read. -/
def inputUnreadCode : Nat := 74

/-- Runs the lines of an input in a session, as far as they are text. -/
def replLines (fuel : Nat) : List ByteArray → Session → Session × Nat
  | [], s => (s, 0)
  | line :: rest, s =>
    match String.fromUTF8? line with
    | none =>
      let log := s.machine.log ++ inputUnread .notText
      ({ s with machine := { s.machine with log } }, inputUnreadCode)
    | some source =>
      let (outcome, s) := s.interpret source fuel
      let text := match outcome.text? with
        | some text => text ++ "\n"
        | none => ""
      replLines fuel rest { s with machine := { s.machine with log := s.machine.log ++ text } }

/-- Does a task, on the given input; a script executes at most `fuel` instructions. -/
def Task.execute (input : ByteArray) (fuel : Nat) : Task → Report
  | run settings source =>
    let (outcome, s) := (Session.create settings {}).interpret source fuel
    { exitCode := outcome.exitCode, output := s.machine.output.written
      errors := s.machine.log ++ runReport s outcome }
  | repl settings =>
    let (s, exitCode) := replLines fuel (Text.lines input) (Session.create settings {})
    { exitCode, output := s.machine.output.written, errors := s.machine.log }
  | say text => { exitCode := 0, output := text.toUTF8 }

/-- The exit code of a command line that is no command. -/
def misuseCode : Nat := 64

/-- The report on a command line that is no command. -/
def misuse : String := "error: invalid arguments\n\nFor more information, try '--help'.\n"

/-- Reads a command line and does what it asks for. -/
def execute (args : List String) (files : Files) (input : ByteArray) (fuel : Nat) : Report :=
  match parse? args with
  | none => { exitCode := misuseCode, errors := misuse }
  | some command =>
    match command.prepare files with
    | .error stop => { exitCode := stop.exitCode, errors := stop.message }
    | .ok task => task.execute input fuel

end Command

end Lox

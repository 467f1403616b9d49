import Lox.Command.Arguments
import Lox.Settings.File

/-!
# Commands

The commands of the command line and how their arguments are read. `Command.parse?` gives nothing where
the arguments are no command.
-/

set_option autoImplicit false

namespace Lox

/-- How to run a script. -/
structure RunOptions where
  file : Option String := none
  /-- A source text in the place of a file. -/
  code : Option String := none
  trace : Bool := false
  dumpBytecode : Bool := false
  timings : Option TimingsFormat := none
  settingsFile : Option String := none
  noNatives : Bool := false
deriving DecidableEq, Repr

/-- The settings of a run: what the options ask for goes before what the settings file says. -/
def RunOptions.apply (o : RunOptions) (s : Settings) : Settings :=
  { traceExecution := s.traceExecution || o.trace
    dumpBytecode := s.dumpBytecode || o.dumpBytecode
    timings := o.timings <|> s.timings
    natives := s.natives && !o.noNatives }

/-- What the command line asks for. -/
inductive Command where
  | run (options : RunOptions)
  /-- Run every line of the input. -/
  | repl (settingsFile : Option String)
  /-- Print the listing of a script. -/
  | disassemble (file : String)
  /-- Compile a script. -/
  | check (file : String)
  | help (text : String)
deriving DecidableEq, Repr

namespace Command

/-- The switch that names a settings file. -/
def settingsSwitch : Switch :=
  { name := "config", takes := .value "FILE"
    about := "Configuration file (defaults to ./lox.toml when present)" }

/-- The form of the command that runs scripts. -/
def runForm : Form :=
  { name := "run"
    about := "Run a Lox source file"
    file := some { required := false, about := "The source file to run" }
    switches :=
      [{ name := "code", letter := some 'c', takes := .value "CODE", mayBeEmpty := true
         about := "Execute code directly from command line" },
       { name := "trace", about := "Print every instruction and the stack while executing" },
       { name := "dump-bytecode", about := "Dump bytecode to stderr before running" },
       { name := "timings", takes := .choice "TIMINGS" "human" ["json"]
         about := "Print compile and execute timings (human or json format)" },
       settingsSwitch,
       { name := "no-natives", about := "Do not install host functions such as clock()" }] }

/-- The form of the interactive command. -/
def replForm : Form :=
  { name := "repl", about := "Start an interactive session", switches := [settingsSwitch] }

/-- The form of the command that prints listings. -/
def disassembleForm : Form :=
  { name := "disasm"
    about := "Print the bytecode of a Lox source file without running it"
    file := some { required := true, about := "The source file to disassemble" } }

/-- The form of the command that only compiles. -/
def checkForm : Form :=
  { name := "check"
    about := "Compile a Lox source file without running it"
    file := some { required := true, about := "The source file to check" } }

/-- All forms. -/
def forms : List Form := [runForm, replForm, disassembleForm, checkForm]

/-- The help on all commands. -/
def overview : String :=
  let help := ("help", "Print this message or the help of the given subcommand(s)")
  "A bytecode virtual machine for the Lox language\n\nUsage: lox <COMMAND>\n\nCommands:\n"
    ++ Form.columns (forms.map (fun form => (form.name, form.about)) ++ [help])
    ++ "\nOptions:\n"
    ++ Form.columns [(Form.switchText Form.helpSwitch, Form.helpSwitch.about)]

/-- The run that some arguments ask for. A source text leaves no place for a file. -/
def runOf? (g : Given) : Option Command :=
  if g.has "code" && g.file.isSome then none
  else some (.run
    { file := g.file, code := g.value? "code", trace := g.has "trace"
      dumpBytecode := g.has "dump-bytecode"
      timings := (g.value? "timings").bind TimingsFormat.ofName?
      settingsFile := g.value? "config", noNatives := g.has "no-natives" })

/-- The command that a form's arguments ask for. -/
def ofForm? (form : Form) (args : List String) (build : Given → Option Command) : Option Command :=
  match form.read args with
  | .given g => build g
  | .help => some (.help form.helpText)
  | .mistake => none

/-- Reads a command line. -/
def parse? : List String → Option Command
  | [] => none
  | "run" :: args => ofForm? runForm args runOf?
  | "repl" :: args => ofForm? replForm args fun g => some (.repl (g.value? "config"))
  | "disasm" :: args => ofForm? disassembleForm args fun g => g.file.map .disassemble
  | "check" :: args => ofForm? checkForm args fun g => g.file.map .check
  | ["help"] | ["help", "help"] => some (.help overview)
  | ["help", name] => (forms.find? (·.name = name)).map fun form => .help form.helpText
  | arg :: _ => if Form.isHelp (Argument.ofString arg) then some (.help overview) else none

end Command

end Lox

import Lox.Text.Pad

/-!
# Arguments of a command

A form says what a command takes: at most one file, and switches. `Form.read` reads arguments by a form
from left to right; the first mistake or the first call for help ends it.
-/

set_option autoImplicit false

namespace Lox.Command

/-- What one argument looks like. -/
inductive Argument where
  /-- Two dashes: what follows is plain. -/
  | separator
  /-- Two dashes and a name, with the text after the equals sign. -/
  | long (name : String) (attached : Option String)
  /-- A dash and a letter, with the text that follows the letter. -/
  | short (letter : Char) (attached : Option String)
  | plain (text : String)
deriving DecidableEq, Repr

/-- What an argument looks like. A single dash is plain. -/
def Argument.ofString (s : String) : Argument :=
  match s.toList with
  | ['-', '-'] => separator
  | '-' :: '-' :: rest =>
    let name := String.ofList (rest.takeWhile (· != '='))
    match rest.dropWhile (· != '=') with
    | [] => long name none
    | _ :: value => long name (some (String.ofList value))
  | ['-', letter] => short letter none
  | '-' :: letter :: '=' :: value => short letter (some (String.ofList value))
  | '-' :: letter :: value => short letter (some (String.ofList value))
  | _ => plain s

/-- What a switch takes. -/
inductive Takes where
  | nothing
  /-- A value, attached or as the next argument. -/
  | value (label : String)
  /-- One of some values, attached; without one, the first. -/
  | choice (label : String) (first : String) (others : List String)
deriving DecidableEq, Repr

/-- A switch of a command. -/
structure Switch where
  name : String
  letter : Option Char := none
  takes : Takes := .nothing
  /-- Whether the value may be empty. -/
  mayBeEmpty : Bool := false
  about : String

/-- Whether a switch may have a value. -/
def Switch.accepts (s : Switch) (value : String) : Bool :=
  match s.takes with
  | .nothing => true
  | .value _ => s.mayBeEmpty || !value.isEmpty
  | .choice _ first others => (first :: others).contains value

/-- The file of a command. -/
structure FileSlot where
  required : Bool
  about : String

/-- What a command takes. -/
structure Form where
  name : String
  about : String
  file : Option FileSlot := none
  switches : List Switch := []

/-- What the arguments of a command say. -/
structure Given where
  file : Option String := none
  /-- Every switch that is given, with its value. -/
  values : List (String × String) := []
deriving DecidableEq, Repr

namespace Given

/-- The value of a switch, if it is given. -/
def value? (g : Given) (name : String) : Option String := g.values.lookup name

/-- Whether a switch is given. -/
def has (g : Given) (name : String) : Bool := (g.value? name).isSome

/-- Adds a switch, which is given only once. -/
def addSwitch (g : Given) (s : Switch) (value : String) : Option Given :=
  if g.has s.name || !s.accepts value then none
  else some { g with values := (s.name, value) :: g.values }

/-- Adds the file, where one is taken and none is given yet. -/
def addFile (g : Given) (form : Form) (file : String) : Option Given :=
  if form.file.isNone || g.file.isSome || file.isEmpty then none else some { g with file }

end Given

/-- What comes of reading arguments. -/
inductive Reading where
  | given (g : Given)
  | help
  | mistake
deriving DecidableEq, Repr

namespace Form

/-- Reads arguments that are all plain. -/
def readPlain (form : Form) : List String → Given → Reading
  | [], g => .given g
  | file :: rest, g =>
    match g.addFile form file with
    | some g => readPlain form rest g
    | none => .mistake

/-- The switch that an argument names. -/
def switch? (form : Form) : Argument → Option (Switch × Option String)
  | .long name attached => (form.switches.find? (·.name = name)).map (·, attached)
  | .short letter attached => (form.switches.find? (·.letter = some letter)).map (·, attached)
  | _ => none

/-- Whether an argument calls for help. -/
def isHelp : Argument → Bool
  | .long name attached => name = "help" && attached.isNone
  | .short letter _ => letter = 'h'
  | _ => false

/-- Whether an argument is plain. -/
def isPlain : Argument → Bool
  | .plain _ => true
  | _ => false

/-- Reads arguments from left to right. -/
def readFrom (form : Form) : List String → Given → Reading
  | [], g => .given g
  | arg :: rest, g =>
    let a := Argument.ofString arg
    if a = .separator then readPlain form rest g
    else if isPlain a then
      match g.addFile form arg with
      | some g => readFrom form rest g
      | none => .mistake
    else if isHelp a then .help
    else
      match form.switch? a with
      | none => .mistake
      | some (s, attached) =>
        match s.takes, attached, rest with
        | .nothing, some _, _ => .mistake
        | .value _, none, [] => .mistake
        | .value _, none, value :: rest =>
          if isPlain (Argument.ofString value) then
            match g.addSwitch s value with
            | some g => readFrom form rest g
            | none => .mistake
          else .mistake
        | .choice _ first _, none, rest =>
          match g.addSwitch s first with
          | some g => readFrom form rest g
          | none => .mistake
        | _, attached, rest =>
          match g.addSwitch s (attached.getD "") with
          | some g => readFrom form rest g
          | none => .mistake

/-- Reads the arguments of a command. A required file must be among them. -/
def read (form : Form) (args : List String) : Reading :=
  match form.readFrom args {} with
  | .given g =>
    if form.file.any (·.required) && g.file.isNone then .mistake else .given g
  | other => other

/-- The left column of the help on a switch. -/
def switchText (s : Switch) : String :=
  let letter := match s.letter with
    | some c => "-" ++ c.toString ++ ", "
    | none => "    "
  let value := match s.takes with
    | .nothing => ""
    | .value label => " <" ++ label ++ ">"
    | .choice label _ _ => "[=<" ++ label ++ ">]"
  letter ++ "--" ++ s.name ++ value

/-- The right column of the help on a switch. -/
def switchAbout (s : Switch) : String :=
  match s.takes with
  | .choice _ first others =>
    s.about ++ " [possible values: " ++ ", ".intercalate (first :: others) ++ "]"
  | _ => s.about

/-- Two columns, the second aligned. -/
def columns (rows : List (String × String)) : String :=
  let width := rows.foldl (fun n row => max n row.1.length) 0
  String.join (rows.map fun (left, right) =>
    "  " ++ Text.padRight width left ++ "  " ++ right ++ "\n")

/-- The switch that every command has. -/
def helpSwitch : Switch := { name := "help", letter := some 'h', about := "Print help" }

/-- The file of a form as usage lines show it. -/
def slotText (slot : FileSlot) : String := if slot.required then "<FILE>" else "[FILE]"

/-- The help on a command. -/
def helpText (form : Form) : String :=
  let options := if form.switches.isEmpty then "" else " [OPTIONS]"
  let file := match form.file with
    | some slot => " " ++ slotText slot
    | none => ""
  let arguments := match form.file with
    | some slot => "Arguments:\n" ++ columns [(slotText slot, slot.about)] ++ "\n"
    | none => ""
  let rows := (form.switches ++ [helpSwitch]).map fun s => (switchText s, switchAbout s)
  form.about ++ "\n\nUsage: lox " ++ form.name ++ options ++ file ++ "\n\n" ++ arguments
    ++ "Options:\n" ++ columns rows

end Form

end Lox.Command

import Lox.Settings
import Lox.Toml.Document

/-!
# Settings files

A settings file is a TOML document. Keys that name no setting are left alone.
-/

set_option autoImplicit false

namespace Lox

/-- The format of a name. -/
def TimingsFormat.ofName? : String → Option TimingsFormat
  | "human" => some human
  | "json" => some json
  | _ => none

/-- The format that a node names: as a string, or as the only key of a table, with nothing under it. -/
def TimingsFormat.ofNode? : Toml.Node → Option TimingsFormat
  | .string name => ofName? name
  | .table { entries := [(name, node)], .. } => if node.isEmpty then ofName? name else none
  | _ => none

namespace Settings

/-- The truth value of a key, or a default where the key is missing. -/
def flag? (t : Toml.Table Toml.Node) (key : String) (default : Bool) : Option Bool :=
  match t.get? key with
  | none => some default
  | some (.bool b) => some b
  | some _ => none

/-- The settings of a document. -/
def ofTable? (t : Toml.Table Toml.Node) : Option Settings := do
  let defaults : Settings := {}
  let timings ← match t.get? "timings" with
    | none => some defaults.timings
    | some node => (TimingsFormat.ofNode? node).map some
  return { traceExecution := ← flag? t "trace_execution" defaults.traceExecution
           dumpBytecode := ← flag? t "dump_bytecode" defaults.dumpBytecode
           timings
           natives := ← flag? t "natives" defaults.natives }

/-- The settings of a file's text, if it is a document with settings of the right kinds. -/
def parse? (text : String) : Option Settings := do
  ofTable? (← Toml.parse? text)

end Settings

end Lox

/-!
# TOML documents

A document is a table of nodes. A table remembers how it came to be, because that decides what may
still be added to it: `Table.define` and `Table.addElement` are the two kinds of headers,
`Table.insert` is a key with its value.
-/

set_option autoImplicit false

namespace Lox.Toml

/-- How a table came to be. -/
inductive Origin where
  /-- It has a header of its own. -/
  | header
  /-- It stands on the way to another table's header. -/
  | path
  /-- It stands on the way of a dotted key. -/
  | dotted
  /-- It was written between braces, and is closed. -/
  | inline
deriving DecidableEq, Repr

/-- Whether a table may be passed on the way to another. Headers pass every table that is still open;
dotted keys pass only those that have no header. -/
def Origin.mayPass (dotted : Bool) : Origin → Bool
  | .header => !dotted
  | .path | .dotted => true
  | .inline => false

/-- Named nodes, in the order in which they were written. -/
structure Table (ν : Type) where
  origin : Origin := .header
  entries : List (String × ν) := []
deriving Repr

/-- What a key stands for. Numbers and dates are checked and then not kept. -/
inductive Node where
  | string (text : String)
  | bool (b : Bool)
  | number
  | date
  | array (items : List Node)
  | table (t : Table Node)
  /-- Tables that share a header, the newest first. -/
  | tables (elements : List (Table Node))
deriving Repr

/-- Whether this is an array or a table that holds nothing. -/
def Node.isEmpty : Node → Bool
  | array items => items.isEmpty
  | table t => t.entries.isEmpty
  | tables elements => elements.isEmpty
  | _ => false

namespace Table

variable {ν : Type}

/-- The node of a key. -/
def get? (t : Table ν) (key : String) : Option ν := t.entries.lookup key

/-- Puts a node in the place of a key's node, or at the end. -/
def put (t : Table ν) (key : String) (node : ν) : Table ν :=
  if (t.get? key).isSome then
    { t with entries := t.entries.map fun e => if e.1 = key then (key, node) else e }
  else { t with entries := t.entries ++ [(key, node)] }

/-- Changes the table at the end of a path. Tables that are missing on the way are made, and of tables
that share a header the newest is meant. -/
def alter (dotted : Bool) (change : Table Node → Option (Table Node)) :
    List String → Table Node → Option (Table Node)
  | [], t => change t
  | key :: path, t =>
    match t.get? key with
    | none =>
      (alter dotted change path { origin := if dotted then .dotted else .path }).map
        fun child => t.put key (.table child)
    | some (.table child) =>
      if child.origin.mayPass dotted then
        (alter dotted change path child).map fun child => t.put key (.table child)
      else none
    | some (.tables (newest :: older)) =>
      (alter dotted change path newest).map fun newest => t.put key (.tables (newest :: older))
    | some _ => none

/-- Adds a value under a dotted key, of which `path` is all but the last part. No key is set twice, and
a dotted key adds only to tables that dotted keys have made. -/
def insert (path : List String) (key : String) (value : Node) : Table Node → Option (Table Node) :=
  alter true (fun t =>
    if (t.origin == .dotted) == path.isEmpty then none
    else if (t.get? key).isSome then none
    else some (t.put key value)) path

/-- Begins the table of a header. It may exist only as a part of other headers' paths. -/
def define (path : List String) (key : String) : Table Node → Option (Table Node) :=
  alter false (fun t =>
    match t.get? key with
    | none => some (t.put key (.table {}))
    | some (.table child) =>
      if child.origin = .path then some (t.put key (.table { child with origin := .header }))
      else none
    | some _ => none) path

/-- Begins one more table under a header that tables share. -/
def addElement (path : List String) (key : String) : Table Node → Option (Table Node) :=
  alter false (fun t =>
    match t.get? key with
    | none => some (t.put key (.tables [{}]))
    | some (.tables elements) => some (t.put key (.tables ({} :: elements)))
    | some _ => none) path

end Table

end Lox.Toml

/-!
# Values

A value is nil, a boolean, a number or an object: a string, a function or a native function of the
host. Objects never change, so a value holds its object's contents; what makes two objects the same
is their identity `id`, which the heap hands out.
-/

set_option autoImplicit false

namespace Lox

/-- A string object: its text, and the hash of the text. -/
structure Str where
  id : Nat
  text : String
  hash : UInt32

/-- A function of the host. What it computes is entry number `entry` of the machine's natives. -/
structure Native where
  id : Nat
  name : String
  arity : Nat
  entry : Nat

/-- Bytecode: instruction bytes, the source line of each byte, and the constants that instructions
refer to by index. -/
structure Chunk (α : Type) where
  code : Array UInt8 := #[]
  lines : Array Nat := #[]
  constants : Array α := #[]

/-- A compiled function. A script is a function without a name. -/
structure Function (α : Type) where
  id : Nat
  arity : Nat
  chunk : Chunk α
  name : Option Str

/-- An object whose constants are of type `α`. -/
inductive Object (α : Type) where
  | string (s : Str)
  | function (f : Function α)
  | native (n : Native)

/-- A value of the language. -/
inductive Value where
  | nil
  | bool (b : Bool)
  | number (x : Float)
  | object (o : Object Value)

/-- An object of the language. -/
abbrev Obj := Object Value

/-- A compiled function of the language. -/
abbrev Fn := Function Value

instance : Inhabited Value := ⟨.nil⟩

/-- What makes an object the same as another. -/
def Object.id {α : Type} : Object α → Nat
  | string s => s.id
  | function f => f.id
  | native n => n.id

/-- The string that an object is. -/
def Object.asString? {α : Type} : Object α → Option Str
  | string s => some s
  | _ => none

/-- The hash under which a table files an object: that of its text, or zero when it has none. -/
def Object.hash {α : Type} : Object α → UInt32
  | string s => s.hash
  | _ => 0

namespace Value

/-- The number that a value is. -/
def asNumber? : Value → Option Float
  | number x => some x
  | _ => none

/-- The string that a value is. -/
def asString? : Value → Option Str
  | object o => o.asString?
  | _ => none

/-- The function that a value is. -/
def asFunction? : Value → Option Fn
  | object (.function f) => some f
  | _ => none

/-- Nil and false are falsey, every other value is truthy. -/
def isFalsey : Value → Bool
  | nil => true
  | bool b => !b
  | _ => false

/-- Equality of values: of the same kind, objects by identity, numbers as numbers, so a value that
is not a number differs from itself. -/
def equal : Value → Value → Bool
  | nil, nil => true
  | bool a, bool b => a == b
  | number a, number b => a == b
  | object a, object b => a.id == b.id
  | _, _ => false

end Value

end Lox

import Lox.Bytecode.Instruction

/-!
# Functions in the making

While a function is compiled, a draft holds its bytecode so far and the local variables in scope.
Local variables live on the stack of the machine: the slot of a local is the number of locals
declared before it. Slot 0 belongs to the function itself and has no name.
-/

set_option autoImplicit false

namespace Lox

/-- A local variable in scope. -/
structure Local where
  name : String
  /-- How many scopes enclose it. -/
  depth : Nat
  /-- Whether its initializer has been compiled. -/
  initialized : Bool
deriving DecidableEq, Repr

/-- A function in the making; without a name, a script. -/
structure Draft where
  name : Option Str
  arity : Nat := 0
  chunk : Chunk Value := {}
  /-- The locals in scope, newest first. -/
  locals : List Local := [⟨"", 0, true⟩]
  scopeDepth : Nat := 0

namespace Draft

/-- Whether the draft is that of a script. -/
def isScript (d : Draft) : Bool := d.name.isNone

/-- The number of bytes so far. -/
def size (d : Draft) : Nat := d.chunk.code.size

/-- Appends bytes that come from one source line. -/
def write (d : Draft) (bytes : List UInt8) (line : Nat) : Draft :=
  { d with chunk := bytes.foldl (fun c byte => c.write byte line) d.chunk }

/-- Overwrites the two bytes at an offset with a number, high byte first. -/
def patch (d : Draft) (offset value : Nat) : Draft :=
  let { name, arity, chunk := { code, lines, constants }, locals, scopeDepth } := d
  let code := code.setIfInBounds offset (value / 256).toUInt8
  let code := code.setIfInBounds (offset + 1) value.toUInt8
  { name, arity, chunk := { code, lines, constants }, locals, scopeDepth }

/-- The slot of the newest local with a name, and the local. -/
def resolve? (name : String) : List Local → Option (Nat × Local)
  | [] => none
  | l :: older => if l.name = name then some (older.length, l) else resolve? name older

/-- Whether the innermost scope already has a local with a name. -/
def declaredHere (d : Draft) (name : String) : Bool :=
  (d.locals.takeWhile fun l => d.scopeDepth ≤ l.depth).any fun l => l.name = name

end Draft

end Lox

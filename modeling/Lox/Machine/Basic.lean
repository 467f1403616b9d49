import Lox.Heap
import Lox.Machine.Output

/-!
# The machine

The state of the machine between two instructions. A frame is a call in progress; the running one is
kept apart from the machine, which holds the suspended ones.
-/

set_option autoImplicit false

namespace Lox

/-- What a native function computes from the clock's reading in seconds and its arguments. -/
abbrev Behaviour := Float → Array Value → Value

/-- A call in progress. -/
structure Frame where
  function : Fn
  /-- The offset of the next instruction. -/
  ip : Nat
  /-- The stack slot of the function called; its locals are counted from there. -/
  base : Nat

/-- The machine. -/
structure Machine where
  heap : Heap := {}
  globals : Table Value := {}
  natives : Array Behaviour := #[]
  /-- The value stack; the top is last. -/
  stack : Array Value := #[]
  /-- The suspended calls, innermost first. -/
  callers : List Frame := []
  output : Output := {}
  /-- What the clock reads, in seconds since the machine was made. No instruction runs before the clock
  has moved. -/
  now : Float := 0.000001
  /-- What was traced and dumped so far. -/
  log : String := ""

namespace Machine

/-- The number of calls that may be in progress at once. -/
def maxFrames : Nat := 64

/-- The value at a distance from the top of the stack. -/
def peek? (m : Machine) (distance : Nat) : Option Value :=
  if distance < m.stack.size then m.stack[m.stack.size - 1 - distance]? else none

/-- Pushes a value. -/
def push (m : Machine) (value : Value) : Machine :=
  { m with stack := m.stack.push value }

/-- Drops so many values from the top of the stack. -/
def drop (m : Machine) (count : Nat) : Machine :=
  { m with stack := m.stack.shrink (m.stack.size - count) }

/-- Adds what a native function computes, and returns its entry. -/
def addBehaviour (m : Machine) (behaviour : Behaviour) : Nat × Machine :=
  (m.natives.size, { m with natives := m.natives.push behaviour })

/-- Defines a native function as a global. -/
def defineNative (m : Machine) (name : String) (arity : Nat) (behaviour : Behaviour) : Machine :=
  let (entry, m) := m.addBehaviour behaviour
  let (native, heap) := m.heap.allocNative name arity entry
  let (key, heap) := heap.intern name
  { m with heap, globals := (m.globals.set (.string key) (.object (.native native))).2 }

/-- The value of a global. -/
def global? (m : Machine) (name : String) : Option Value :=
  (m.heap.lookup? name).bind fun key => m.globals.get? (.string key)

end Machine

end Lox

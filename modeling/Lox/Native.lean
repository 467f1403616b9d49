import Lox.Machine.Basic

/-!
# Native functions

`clock` is installed on every machine unless it is asked not to be. The others are for hosts that
want to hand scripts something small to call; a host may also define its own.
-/

set_option autoImplicit false

namespace Lox.Behaviour

/-- The seconds since the machine was made. -/
def clock : Behaviour := fun now _ => .number now

/-- Always the same value. -/
def always (value : Value) : Behaviour := fun _ _ => value

/-- The number of arguments. -/
def count : Behaviour := fun _ args => .number (Float.ofNat args.size)

/-- The first argument, or nil. -/
def first : Behaviour := fun _ args => args.getD 0 .nil

/-- The last argument, or nil. -/
def last : Behaviour := fun _ args => args.back?.getD .nil

/-- The sum of the arguments from left to right; what is no number counts as zero. -/
def sum : Behaviour := fun _ args =>
  .number (args.foldl (fun total value => total + value.asNumber?.getD 0) 0)

/-- Whether all arguments equal the first. -/
def same : Behaviour := fun _ args =>
  .bool (args.all fun value => value.equal (args.getD 0 .nil))

/-- The number of bytes of the first argument, or nil when it is no string. -/
def byteLength : Behaviour := fun _ args =>
  match (args.getD 0 .nil).asString? with
  | some s => .number (Float.ofNat s.text.utf8ByteSize)
  | none => .nil

/-- Whether no argument is falsey. -/
def allTruthy : Behaviour := fun _ args => .bool (args.all fun value => !value.isFalsey)

end Lox.Behaviour

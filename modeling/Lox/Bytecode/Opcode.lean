/-!
# Opcodes

The first byte of an instruction says what it does. The byte of an opcode is its position in
`Opcode.all`.
-/

set_option autoImplicit false

namespace Lox

/-- The operations of the machine. -/
inductive Opcode where
  | constant | pushNil | pushTrue | pushFalse
  | pop | getLocal | setLocal | getGlobal | defineGlobal | setGlobal
  | equal | greater | less
  | add | subtract | multiply | divide | not | negate
  | print | jump | jumpIfFalse | loop | call | ret
deriving DecidableEq, Repr

namespace Opcode

/-- Every opcode, in the order of its byte. -/
def all : Array Opcode :=
  #[constant, pushNil, pushTrue, pushFalse, pop, getLocal, setLocal, getGlobal, defineGlobal,
    setGlobal, equal, greater, less, add, subtract, multiply, divide, not, negate, print, jump,
    jumpIfFalse, loop, call, ret]

/-- The opcode of a byte. -/
def ofByte? (byte : UInt8) : Option Opcode := all[byte.toNat]?

/-- The byte of an opcode. -/
def toByte (op : Opcode) : UInt8 := op.ctorIdx.toUInt8

/-- The name of an opcode in listings. -/
def name : Opcode → String
  | constant => "OP_CONSTANT"
  | pushNil => "OP_NIL"
  | pushTrue => "OP_TRUE"
  | pushFalse => "OP_FALSE"
  | pop => "OP_POP"
  | getLocal => "OP_GET_LOCAL"
  | setLocal => "OP_SET_LOCAL"
  | getGlobal => "OP_GET_GLOBAL"
  | defineGlobal => "OP_DEFINE_GLOBAL"
  | setGlobal => "OP_SET_GLOBAL"
  | equal => "OP_EQUAL"
  | greater => "OP_GREATER"
  | less => "OP_LESS"
  | add => "OP_ADD"
  | subtract => "OP_SUBTRACT"
  | multiply => "OP_MULTIPLY"
  | divide => "OP_DIVIDE"
  | not => "OP_NOT"
  | negate => "OP_NEGATE"
  | print => "OP_PRINT"
  | jump => "OP_JUMP"
  | jumpIfFalse => "OP_JUMP_IF_FALSE"
  | loop => "OP_LOOP"
  | call => "OP_CALL"
  | ret => "OP_RETURN"

/-- The number of operand bytes behind an opcode: two for the distance of a jump, one for an index, a
slot or an argument count. -/
def operandSize : Opcode → Nat
  | constant | getLocal | setLocal | getGlobal | defineGlobal | setGlobal | call => 1
  | jump | jumpIfFalse | loop => 2
  | _ => 0

end Opcode

end Lox

import Lox.Bytecode.Opcode
import Lox.Value

/-!
# Instructions

An instruction is an opcode with its operand; two-byte operands are written high byte first.
`Chunk.decode` reads one instruction from the bytes of a chunk, and both the machine and the listing
go by it.
-/

set_option autoImplicit false

namespace Lox

/-- An opcode with its operand, which is zero for an opcode that has none. -/
structure Instruction where
  op : Opcode
  operand : Nat := 0
deriving DecidableEq, Repr

/-- The bytes of an instruction. -/
def Instruction.encode (i : Instruction) : List UInt8 :=
  match i.op.operandSize with
  | 0 => [i.op.toByte]
  | 1 => [i.op.toByte, i.operand.toUInt8]
  | _ => [i.op.toByte, (i.operand / 256).toUInt8, i.operand.toUInt8]

/-- What stands at an offset of a chunk. -/
inductive Decoded where
  /-- The offset is not inside the code. -/
  | outside
  /-- A byte that is no opcode. -/
  | unknown (byte : UInt8)
  /-- An opcode whose operand would reach past the end of the code. -/
  | truncated (op : Opcode)
  /-- An instruction, and the offset behind it. -/
  | instruction (i : Instruction) (next : Nat)
deriving DecidableEq, Repr

namespace Chunk

variable {α : Type}

/-- The source line of the byte at an offset, or zero outside the line table. -/
def lineAt (c : Chunk α) (offset : Nat) : Nat := c.lines.getD offset 0

/-- Appends a byte with its source line. -/
def write (c : Chunk α) (byte : UInt8) (line : Nat) : Chunk α :=
  { c with code := c.code.push byte, lines := c.lines.push line }

/-- Appends a constant; its index is the number of constants before. -/
def addConstant (c : Chunk α) (value : α) : Chunk α :=
  { c with constants := c.constants.push value }

/-- The number in the two bytes at an offset, high byte first. -/
def wordAt? (c : Chunk α) (offset : Nat) : Option Nat :=
  match c.code[offset]?, c.code[offset + 1]? with
  | some high, some low => some (high.toNat * 256 + low.toNat)
  | _, _ => none

/-- Reads what stands at an offset. -/
def decode (c : Chunk α) (offset : Nat) : Decoded :=
  match c.code[offset]? with
  | none => .outside
  | some byte =>
    match Opcode.ofByte? byte with
    | none => .unknown byte
    | some op =>
      match op.operandSize with
      | 0 => .instruction ⟨op, 0⟩ (offset + 1)
      | 1 =>
        match c.code[offset + 1]? with
        | some operand => .instruction ⟨op, operand.toNat⟩ (offset + 2)
        | none => .truncated op
      | _ =>
        match c.wordAt? (offset + 1) with
        | some operand => .instruction ⟨op, operand⟩ (offset + 3)
        | none => .truncated op

end Chunk

end Lox

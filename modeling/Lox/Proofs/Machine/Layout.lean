import Lox.Machine.Run
import Lox.Proofs.Syntax.Code

/-!
# Code where the machine finds it

`c.Has ip code`: the bytes of `code` stand in the chunk `c` from the offset `ip` on. What is written
as one instruction is read back as this instruction (`Chunk.Has.decode`), so a step of the machine at
its offset executes it (`Chunk.Has.step`).
-/

set_option autoImplicit false

namespace Lox

theorem Opcode.ofByte?_toByte (op : Opcode) : Opcode.ofByte? op.toByte = some op := by
  cases op <;> rfl

theorem Opcode.operandSize_eq_two {op : Opcode} (hZero : op.operandSize ≠ 0) (hOne : op.operandSize ≠ 1) :
    op.operandSize = 2 := by
  cases op <;> first | rfl | exact absurd rfl hZero | exact absurd rfl hOne

namespace Chunk

/-- The bytes of some code stand in a chunk from an offset on. -/
def Has (c : Chunk Value) (ip : Nat) (code : Code) : Prop :=
  ∃ before behind, c.code.toList = before ++ code.bytes ++ behind ∧ before.length = ip

namespace Has

variable {c : Chunk Value} {ip : Nat}

/-- Code that stands in the code of a chunk. -/
theorem of_at {whole code : Code} (hWhole : c.code.toList = whole.bytes) (h : whole.At ip code) :
    c.Has ip code := by
  obtain ⟨before, behind, rfl, rfl⟩ := h
  exact ⟨before.bytes, behind.bytes, by simp [hWhole], by simp⟩

/-- The bytes of an instruction. -/
theorem byte {op : Opcode} {n line i : Nat} {b : UInt8} (h : c.Has ip (.one op n line))
    (hb : (Instruction.encode ⟨op, n⟩)[i]? = some b) : c.code[ip + i]? = some b := by
  obtain ⟨before, behind, hEq, rfl⟩ := h
  rw [Code.bytes_one] at hEq
  rw [← Array.getElem?_toList, hEq, List.append_assoc, List.getElem?_append_right (by omega),
    Nat.add_sub_cancel_left, List.getElem?_append_left (List.getElem?_eq_some_iff.1 hb).1, hb]

/-- An instruction is read back as it was written. -/
theorem decode {op : Opcode} {n line : Nat} (h : c.Has ip (.one op n line))
    (hFits : Instruction.Fits ⟨op, n⟩) :
    c.decode ip = .instruction ⟨op, n⟩ (ip + (1 + op.operandSize)) := by
  have hByte (n : Nat) : n.toUInt8.toNat = n % 256 := rfl
  have hFirst : c.code[ip]? = some op.toByte := h.byte (i := 0) (by cases op <;> rfl)
  unfold Instruction.Fits at hFits
  unfold Chunk.decode
  rw [hFirst]
  dsimp only at hFits ⊢
  rw [Opcode.ofByte?_toByte]
  dsimp only
  split
  · rename_i hSize
    rw [hSize] at hFits ⊢
    obtain rfl : n = 0 := by omega
    rfl
  · rename_i hSize
    have hOperand : c.code[ip + 1]? = some n.toUInt8 :=
      h.byte (i := 1) (by simp [Instruction.encode, hSize])
    rw [hSize] at hFits ⊢
    rw [hOperand]
    dsimp only
    rw [hByte, Nat.mod_eq_of_lt (by omega)]
  · rename_i h0 h1
    have hSize := Opcode.operandSize_eq_two h0 h1
    have hHigh : c.code[ip + 1]? = some (n / 256).toUInt8 :=
      h.byte (i := 1) (by simp [Instruction.encode, hSize])
    have hLow : c.code[ip + 2]? = some n.toUInt8 :=
      h.byte (i := 2) (by simp [Instruction.encode, hSize])
    rw [hSize] at hFits ⊢
    have hWord : c.wordAt? (ip + 1) = some n := by
      unfold Chunk.wordAt?
      rw [hHigh, hLow]
      dsimp only
      rw [hByte, hByte]
      congr 1
      omega
    rw [hWord]

end Has

end Chunk

namespace Machine

/-- A step at an instruction executes it. -/
theorem step_of_has {m : Machine} {f : Fn} {ip base : Nat} {op : Opcode} {n line : Nat}
    (h : f.chunk.Has ip (.one op n line)) (hFits : Instruction.Fits ⟨op, n⟩) :
    m.step ⟨f, ip, base⟩ = m.execute ⟨f, ip + (1 + op.operandSize), base⟩ ⟨op, n⟩ := by
  unfold step
  rw [h.decode hFits]

end Machine

end Lox

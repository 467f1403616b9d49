import Mathlib.Data.List.Basic
import Mathlib.Tactic.Common
import Lox.Proofs.Machine.Layout
import Lox.Proofs.Machine.Tracing

/-!
# Listings show what the machine does

A listing divides the code into rows, whatever its bytes: they follow each other from the first byte to
the last (`Chunk.lists_listFrom`). At every offset, be it the start of a row or not, the row that a listing
has for it tells what the machine does there (`Machine.Shown`), though the machine goes about it in another
way: it reads the operand of an instruction byte by byte, as the instruction asks for it
(`Machine.step_eq_readStep`), and does not know where rows begin.
-/

set_option autoImplicit false

namespace Lox

open Chunk (nameColumn)

/-! ## Columns -/

namespace Text

theorem toList_pushn (text : String) (fill : Char) (n : Nat) :
    (text.pushn fill n).toList = text.toList ++ List.replicate n fill := by
  induction n with
  | zero => exact (List.append_nil _).symm
  | succ n ih =>
    have hPush : text.pushn fill (n + 1) = (text.pushn fill n).push fill := rfl
    rw [hPush, String.toList_push, ih, List.append_assoc, List.replicate_succ']

end Text

theorem toList_column (n : Nat) :
    (column n).toList = List.replicate (4 - (toString n).length) ' ' ++ Nat.toDigits 10 n := by
  unfold column Text.padLeft
  rw [String.toList_append, Text.toList_pushn, Nat.toString_eq_repr, Nat.toList_repr]
  rfl

theorem isDigit_of_mem_column {n : Nat} {c : Char} (h : c ∈ (column n).toList) :
    c = ' ' ∨ c.isDigit = true := by
  rw [toList_column, List.mem_append] at h
  rcases h with h | h
  · exact .inl (List.eq_of_mem_replicate h)
  · exact .inr (Nat.isDigit_of_mem_toDigits (by decide) (by decide) h)

/-- A number is not cut off. -/
theorem column_append_ne (n : Nat) (x : String) : column n ++ x ≠ "<truncated>" := by
  intro hEq
  have hList := congrArg String.toList hEq
  rw [String.toList_append] at hList
  cases hColumn : (column n).toList with
  | nil =>
    rw [toList_column] at hColumn
    exact Nat.toDigits_ne_nil (List.append_eq_nil_iff.1 hColumn).2
  | cons c rest =>
    rw [hColumn] at hList
    obtain rfl : c = '<' := (List.cons.inj hList).1
    have hDigit := isDigit_of_mem_column (hColumn ▸ List.mem_cons_self ..)
    revert hDigit
    decide

/-- The digits of a number can be read back from its column, up to a blank behind it. -/
theorem digits_of_column (n : Nat) (x : String) :
    ((column n ++ (" '" ++ x)).toList.dropWhile (· == ' ')).takeWhile (· != ' ') = Nat.toDigits 10 n := by
  have hDigit : ∀ c ∈ Nat.toDigits 10 n, c ≠ ' ' := by
    intro c hc hBlank
    have := Nat.isDigit_of_mem_toDigits (by decide) (by decide) (hBlank ▸ hc)
    revert this
    decide
  have hText : (column n ++ (" '" ++ x)).toList =
      List.replicate (4 - (toString n).length) ' ' ++ (Nat.toDigits 10 n ++ ' ' :: ("'" ++ x).toList) := by
    rw [String.toList_append, String.toList_append, String.toList_append, toList_column,
      List.append_assoc]
    rfl
  have hDrop : (Nat.toDigits 10 n ++ ' ' :: ("'" ++ x).toList).dropWhile (· == ' ') =
      Nat.toDigits 10 n ++ ' ' :: ("'" ++ x).toList := by
    cases hDigits : Nat.toDigits 10 n with
    | nil => exact absurd hDigits Nat.toDigits_ne_nil
    | cons c ds =>
      have := hDigit c (hDigits ▸ List.mem_cons_self ..)
      simp [this]
  rw [hText, List.dropWhile_append_of_pos (by simp), hDrop,
    List.takeWhile_append_of_pos (by simpa using hDigit)]
  simp

theorem column_append_inj {n k : Nat} {x y : String}
    (h : column n ++ (" '" ++ x) = column k ++ (" '" ++ y)) : n = k := by
  have hDigits := digits_of_column n x
  rw [h, digits_of_column k y] at hDigits
  refine Nat.repr_inj.1 (String.toList_inj.1 ?_)
  rw [Nat.toList_repr, Nat.toList_repr, hDigits]

/-- Names fit in their column, start with the same letter and have no blank. -/
theorem Opcode.name_shape (op : Opcode) :
    op.name.toList.length ≤ 16 ∧ op.name.toList.head? = some 'O' ∧ op.name.toList.all (· != ' ') := by
  cases op <;> decide

/-- The name, and blanks up to the next column. -/
theorem toList_nameColumn (op : Opcode) :
    (nameColumn op).toList = op.name.toList ++ ' ' :: List.replicate (16 - op.name.toList.length) ' ' := by
  unfold nameColumn Text.padRight
  rw [String.toList_append, Text.toList_pushn, List.append_assoc, String.length_toList]
  change _ ++ (_ ++ [' ']) = _
  rw [← List.replicate_succ', List.replicate_succ]

theorem length_nameColumn (op : Opcode) : (nameColumn op).toList.length = 17 := by
  have hLength := op.name_shape.1
  rw [toList_nameColumn, List.length_append, List.length_cons, List.length_replicate]
  omega

/-- A name has no blank, so it ends where the blanks of its column start. -/
theorem name_of_nameColumn (op : Opcode) : (nameColumn op).toList.takeWhile (· != ' ') = op.name.toList := by
  rw [toList_nameColumn, List.takeWhile_append_of_pos (List.all_eq_true.1 op.name_shape.2.2)]
  simp

theorem Opcode.mem_all (op : Opcode) : op ∈ Opcode.all.toList := by cases op <;> decide

/-- Opcodes have different names. -/
theorem Opcode.name_inj {op op' : Opcode} (h : op.name = op'.name) : op = op' := by
  have hNodup : (Opcode.all.toList.map Opcode.name).Nodup := by decide +kernel
  exact List.inj_on_of_nodup_map hNodup op.mem_all op'.mem_all h

theorem nameColumn_inj {op op' : Opcode} (h : (nameColumn op).toList = (nameColumn op').toList) :
    op = op' := by
  refine Opcode.name_inj (String.toList_inj.1 ?_)
  rw [← name_of_nameColumn, h, name_of_nameColumn]

/-- The name column tells which opcode it is. -/
theorem nameColumn_append_inj {op op' : Opcode} {x y : String} :
    nameColumn op ++ x = nameColumn op' ++ y ↔ op = op' ∧ x = y := by
  constructor
  · intro hEq
    have hList := congrArg String.toList hEq
    rw [String.toList_append, String.toList_append] at hList
    obtain ⟨hName, hRest⟩ := List.append_inj hList (by rw [length_nameColumn, length_nameColumn])
    exact ⟨nameColumn_inj hName, String.toList_inj.1 hRest⟩
  · rintro ⟨rfl, rfl⟩
    rfl

/-- A name alone is not as wide as its column. -/
theorem name_ne_append (op op' : Opcode) (x : String) : op.name ≠ nameColumn op' ++ x := by
  intro hEq
  have hLength := congrArg (fun s => s.toList.length) hEq
  have hShort := op.name_shape.1
  simp only [String.toList_append, List.length_append, length_nameColumn] at hLength
  omega

theorem unknown_ne_append (x : String) (op : Opcode) (y : String) :
    "Unknown opcode " ++ x ≠ nameColumn op ++ y := by
  intro hEq
  have hHead := congrArg (fun s => s.toList.head?) hEq
  have hName : (nameColumn op).toList.head? = some 'O' := by
    rw [toList_nameColumn, List.head?_append, op.name_shape.2.1]
    rfl
  simp only [String.toList_append, List.head?_append, hName] at hHead
  cases hHead

theorem unknown_ne_name (x : String) (op : Opcode) : "Unknown opcode " ++ x ≠ op.name := by
  intro hEq
  have hHead := congrArg (fun s => s.toList.head?) hEq
  simp only [String.toList_append, List.head?_append, op.name_shape.2.1] at hHead
  cases hHead

/-! ## What stands at an offset -/

namespace Chunk

/-- What the bytes at an offset are read as. -/
inductive Stands (c : Chunk Value) (offset : Nat) : Decoded → Prop
  | outside : c.code.size ≤ offset → Stands c offset .outside
  | unknown {b : UInt8} : c.code[offset]? = some b → Opcode.ofByte? b = none → Stands c offset (.unknown b)
  | truncated {b : UInt8} {op : Opcode} : c.code[offset]? = some b → Opcode.ofByte? b = some op →
      c.code.size ≤ offset + op.operandSize → Stands c offset (.truncated op)
  | plain {b : UInt8} {op : Opcode} : c.code[offset]? = some b → Opcode.ofByte? b = some op →
      op.operandSize = 0 → Stands c offset (.instruction ⟨op, 0⟩ (offset + 1))
  | byte {b x : UInt8} {op : Opcode} : c.code[offset]? = some b → Opcode.ofByte? b = some op →
      op.operandSize = 1 → c.code[offset + 1]? = some x →
      Stands c offset (.instruction ⟨op, x.toNat⟩ (offset + 2))
  | word {b high low : UInt8} {op : Opcode} : c.code[offset]? = some b → Opcode.ofByte? b = some op →
      op.operandSize = 2 → c.code[offset + 1]? = some high → c.code[offset + 2]? = some low →
      Stands c offset (.instruction ⟨op, high.toNat * 256 + low.toNat⟩ (offset + 3))

variable (c : Chunk Value) (offset : Nat)

theorem stands_decode : c.Stands offset (c.decode offset) := by
  unfold decode
  cases hByte : c.code[offset]? with
  | none => exact .outside (Array.getElem?_eq_none_iff.1 hByte)
  | some b =>
    dsimp only
    cases hOp : Opcode.ofByte? b with
    | none => exact .unknown hByte hOp
    | some op =>
      dsimp only
      split
      · rename_i hSize
        exact .plain hByte hOp hSize
      · rename_i hSize
        cases hOperand : c.code[offset + 1]? with
        | none => exact .truncated hByte hOp (hSize ▸ Array.getElem?_eq_none_iff.1 hOperand)
        | some x => exact .byte hByte hOp hSize hOperand
      · rename_i hZero hOne
        have hSize := Opcode.operandSize_eq_two hZero hOne
        unfold wordAt?
        cases hHigh : c.code[offset + 1]? with
        | none =>
          have hEnd := Array.getElem?_eq_none_iff.1 hHigh
          exact .truncated hByte hOp (by omega)
        | some high =>
          cases hLow : c.code[offset + 1 + 1]? with
          | none => exact .truncated hByte hOp (hSize ▸ Array.getElem?_eq_none_iff.1 hLow)
          | some low => exact .word hByte hOp hSize hHigh hLow

variable {c offset}

/-- The opcode of an instruction is its first byte. -/
theorem op_of_decode {i : Instruction} {next : Nat} (h : c.decode offset = .instruction i next) :
    c.code[offset]?.bind Opcode.ofByte? = some i.op := by
  have hStands := c.stands_decode offset
  rw [h] at hStands
  cases hStands with
  | plain hByte hOp | byte hByte hOp | word hByte hOp => rw [hByte, Option.bind_some, hOp]

theorem lt_size_of_byte {b : UInt8} (h : c.code[offset]? = some b) : offset < c.code.size :=
  (Array.getElem?_eq_some_iff.1 h).1

/-! ## Rows -/

/-- The text of a row, without the columns in front. -/
def rowText (c : Chunk Value) (offset : Nat) : Decoded → String
  | .outside => ""
  | .unknown byte => "Unknown opcode " ++ toString byte.toNat
  | .truncated op => nameColumn op ++ "<truncated>"
  | .instruction i next => c.instructionText i offset next

/-- The offset behind a row. -/
def rowEnd (c : Chunk Value) (offset : Nat) : Decoded → Nat
  | .outside => offset
  | .unknown _ => offset + 1
  | .truncated _ => c.code.size
  | .instruction _ next => next

theorem row_of_lt (h : offset < c.code.size) : c.listingLine? offset =
    some (c.margin offset ++ c.rowText offset (c.decode offset), c.rowEnd offset (c.decode offset)) := by
  have hStands := c.stands_decode offset
  unfold listingLine?
  generalize c.decode offset = d at hStands
  cases hStands with
  | outside hEnd => omega
  | unknown | truncated => simp only [rowText, rowEnd, String.append_assoc]
  | plain | byte | word => rfl

theorem no_row (h : c.code.size ≤ offset) : c.listingLine? offset = none := by
  unfold listingLine?
  rw [decode_eq_outside_iff.2 h]

/-- A row lies inside the code, and is not empty. -/
theorem rowEnd_bounds (h : offset < c.code.size) :
    offset < c.rowEnd offset (c.decode offset) ∧ c.rowEnd offset (c.decode offset) ≤ c.code.size := by
  have hStands := c.stands_decode offset
  generalize c.decode offset = d at hStands
  cases hStands with
  | outside hEnd => omega
  | unknown | plain => exact ⟨Nat.lt_succ_self _, h⟩
  | truncated => exact ⟨h, Nat.le_refl _⟩
  | byte _ _ _ hOperand => exact ⟨Nat.lt_add_of_pos_right (by decide), lt_size_of_byte hOperand⟩
  | word _ _ _ _ hLow => exact ⟨Nat.lt_add_of_pos_right (by decide), lt_size_of_byte hLow⟩

theorem lt_of_row {line : String} {next : Nat} (h : c.listingLine? offset = some (line, next)) :
    offset < next := by
  by_cases hLess : offset < c.code.size
  · rw [row_of_lt hLess] at h
    obtain rfl := congrArg Prod.snd (Option.some.inj h)
    exact (rowEnd_bounds hLess).1
  · rw [no_row (Nat.le_of_not_lt hLess)] at h
    cases h

end Chunk

/-- A row of a listing: the offset it is for, that of the next row, and its line. -/
structure Row where
  offset : Nat
  next : Nat
  line : String

namespace Chunk

variable {c : Chunk Value} {offset : Nat} {rows : List Row}

/-- Rows that follow each other from an offset to the end of the code. -/
inductive Lists (c : Chunk Value) : Nat → List Row → Prop
  | done : Lists c c.code.size []
  | row {offset next : Nat} {line : String} {rows : List Row} :
      c.listingLine? offset = some (line, next) → Lists c next rows →
      Lists c offset (⟨offset, next, line⟩ :: rows)

/-- A listing is made of rows that reach to the end of the code, if its fuel lasts for one byte a row. -/
theorem lists_listFrom {fuel : Nat} (hStart : offset ≤ c.code.size) (hFuel : c.code.size ≤ offset + fuel) :
    ∃ rows, c.Lists offset rows ∧ ∀ text, c.listFrom fuel offset text =
      rows.foldl (fun text row => text ++ row.line ++ "\n") text := by
  induction fuel generalizing offset with
  | zero =>
    obtain rfl : offset = c.code.size := by omega
    exact ⟨[], .done, fun _ => rfl⟩
  | succ fuel ih =>
    rcases Nat.eq_or_lt_of_le hStart with rfl | hLess
    · refine ⟨[], .done, fun text => ?_⟩
      simp only [listFrom, no_row (Nat.le_refl _), List.foldl_nil]
    · have hRow := row_of_lt hLess
      obtain ⟨hNext, hEnd⟩ := rowEnd_bounds hLess
      obtain ⟨rows, hRows, hText⟩ := ih hEnd (by omega)
      refine ⟨_, .row hRow hRows, fun text => ?_⟩
      simp only [listFrom, hRow, hText, List.foldl_cons]

theorem Lists.le (h : c.Lists offset rows) {row : Row} (hr : row ∈ rows) : offset ≤ row.offset := by
  induction h with
  | done => cases hr
  | row hRow _ ih =>
    rcases List.mem_cons.1 hr with rfl | hr
    · exact Nat.le_refl _
    · exact (lt_of_row hRow).le.trans (ih hr)

theorem Lists.increasing (h : c.Lists offset rows) :
    rows.Pairwise fun row row' => row.offset < row'.offset := by
  induction h with
  | done => exact .nil
  | row hRow hRest ih => exact .cons (fun _ hr => (lt_of_row hRow).trans_le (hRest.le hr)) ih

/-- Each byte from the first row on is in one row. -/
theorem Lists.covers (h : c.Lists offset rows) {k : Nat} (hk : offset ≤ k) (hSize : k < c.code.size) :
    ∃! row, row ∈ rows ∧ row.offset ≤ k ∧ k < row.next := by
  induction h with
  | done => omega
  | @row _ next _ rows hRow hRest ih =>
    by_cases hFirst : k < next
    · refine ⟨_, ⟨List.mem_cons_self, hk, hFirst⟩, ?_⟩
      intro row ⟨hr, hLe, _⟩
      rcases List.mem_cons.1 hr with rfl | hr
      · rfl
      · have hBehind := hRest.le hr
        omega
    · obtain ⟨row, ⟨hr, hLe, hLt⟩, hUnique⟩ := ih (by omega)
      refine ⟨row, ⟨List.mem_cons_of_mem _ hr, hLe, hLt⟩, ?_⟩
      intro row' ⟨hr', hLe', hLt'⟩
      rcases List.mem_cons.1 hr' with rfl | hr'
      · exact absurd hLt' hFirst
      · exact hUnique row' ⟨hr', hLe', hLt'⟩

end Chunk

/-! ## Reading byte by byte -/

namespace Machine

/-- Reads the byte at the offset of a frame, and goes on with the frame behind it. -/
def readByte (m : Machine) (frame : Frame) (k : Frame → UInt8 → Step) : Step :=
  match frame.function.chunk.code[frame.ip]? with
  | some byte => k { frame with ip := frame.ip + 1 } byte
  | none => .fail m frame .outsideCode

/-- Reads two bytes, high byte first. -/
def readWord (m : Machine) (frame : Frame) (k : Frame → Nat → Step) : Step :=
  m.readByte frame fun frame high => m.readByte frame fun frame low =>
    k frame (high.toNat * 256 + low.toNat)

/-- A step in which each instruction reads its own operand. -/
def readStep (m : Machine) (frame : Frame) : Step :=
  m.readByte frame fun frame byte =>
    match Opcode.ofByte? byte with
    | none => .fail m frame (.unknownOpcode byte)
    | some .constant => m.readByte frame fun frame index => m.constant frame index.toNat
    | some .pushNil => .next (m.push .nil) frame
    | some .pushTrue => .next (m.push (.bool true)) frame
    | some .pushFalse => .next (m.push (.bool false)) frame
    | some .pop => m.pop frame
    | some .getLocal => m.readByte frame fun frame slot => m.getLocal frame slot.toNat
    | some .setLocal => m.readByte frame fun frame slot => m.setLocal frame slot.toNat
    | some .getGlobal => m.readByte frame fun frame index => m.getGlobal frame index.toNat
    | some .defineGlobal => m.readByte frame fun frame index => m.defineGlobal frame index.toNat
    | some .setGlobal => m.readByte frame fun frame index => m.setGlobal frame index.toNat
    | some .equal => m.equal frame
    | some .greater => m.arithmetic frame fun a b => .bool (a > b)
    | some .less => m.arithmetic frame fun a b => .bool (a < b)
    | some .add => m.add frame
    | some .subtract => m.arithmetic frame fun a b => .number (a - b)
    | some .multiply => m.arithmetic frame fun a b => .number (a * b)
    | some .divide => m.arithmetic frame fun a b => .number (a / b)
    | some .not => m.not frame
    | some .negate => m.negate frame
    | some .print => m.print frame
    | some .jump => m.readWord frame fun frame distance =>
        .next m { frame with ip := frame.ip + distance }
    | some .jumpIfFalse => m.readWord frame fun frame distance => m.jumpIfFalse frame distance
    | some .loop => m.readWord frame fun frame distance => m.loop frame distance
    | some .call => m.readByte frame fun frame count => m.call frame count.toNat
    | some .ret => m.ret frame

theorem readByte_eq (m : Machine) (frame : Frame) {b : UInt8}
    (h : frame.function.chunk.code[frame.ip]? = some b) (k : Frame → UInt8 → Step) :
    m.readByte frame k = k { frame with ip := frame.ip + 1 } b := by
  simp only [readByte, h]

theorem readByte_end (m : Machine) (frame : Frame) (h : frame.ip = frame.function.chunk.code.size)
    (k : Frame → UInt8 → Step) :
    m.readByte frame k = .fail m { frame with ip := frame.function.chunk.code.size } .outsideCode := by
  simp only [readByte, Array.getElem?_eq_none h.ge, ← h]

/-- The operand of an instruction is as long as it reads. -/
theorem step_eq_readStep (m : Machine) (frame : Frame) : m.step frame = m.readStep frame := by
  have hStands := frame.function.chunk.stands_decode frame.ip
  unfold step readStep
  generalize frame.function.chunk.decode frame.ip = d at hStands
  cases hStands with
  | outside hEnd => simp only [readByte, Array.getElem?_eq_none hEnd]
  | unknown hByte hOp =>
    rw [m.readByte_eq frame hByte]
    simp only [hOp]
  | @truncated b op hByte hOp hEnd =>
    have hLess := Chunk.lt_size_of_byte hByte
    rw [m.readByte_eq frame hByte]
    simp only [hOp]
    cases op
    case constant | getLocal | setLocal | getGlobal | defineGlobal | setGlobal | call =>
      have hHere : frame.ip + 1 = frame.function.chunk.code.size := Nat.le_antisymm hLess hEnd
      exact (m.readByte_end { frame with ip := frame.ip + 1 } hHere _).symm
    case jump | jumpIfFalse | loop =>
      by_cases hHere : frame.ip + 1 = frame.function.chunk.code.size
      · exact (m.readByte_end { frame with ip := frame.ip + 1 } hHere _).symm
      · have hHigh := Array.getElem?_eq_getElem (lt_of_le_of_ne hLess hHere)
        have hNext : frame.ip + 1 + 1 = frame.function.chunk.code.size :=
          Nat.le_antisymm (lt_of_le_of_ne hLess hHere) hEnd
        exact ((m.readByte_eq { frame with ip := frame.ip + 1 } hHigh _).trans
          (m.readByte_end { frame with ip := frame.ip + 1 + 1 } hNext _)).symm
    all_goals exact absurd hLess (Nat.not_lt.2 hEnd)
  | @plain b op hByte hOp hSize =>
    rw [m.readByte_eq frame hByte]
    simp only [hOp]
    cases op <;> first | rfl | cases hSize
  | @byte b x op hByte hOp hSize hOperand =>
    rw [m.readByte_eq frame hByte]
    simp only [hOp]
    cases op
    case constant | getLocal | setLocal | getGlobal | defineGlobal | setGlobal | call =>
      dsimp only
      rw [m.readByte_eq { frame with ip := frame.ip + 1 } hOperand]
      rfl
    all_goals cases hSize
  | @word b high low op hByte hOp hSize hHigh hLow =>
    rw [m.readByte_eq frame hByte]
    simp only [hOp]
    cases op
    case jump | jumpIfFalse | loop =>
      exact ((m.readByte_eq { frame with ip := frame.ip + 1 } hHigh _).trans
        (m.readByte_eq { frame with ip := frame.ip + 1 + 1 } hLow _)).symm
    all_goals cases hSize

end Machine

/-! ## Faults of code that no compiler wrote -/

/-- The fault of a step that fails. -/
def Step.fault? : Step → Option Fault
  | fail _ _ fault => some fault
  | next _ _ | halt _ => none

/-- Whether the operand of an opcode is the index of a constant. -/
def Opcode.takesConstant : Opcode → Bool
  | constant | getGlobal | defineGlobal | setGlobal => true
  | _ => false

/-- An instruction with the index of a constant is two bytes long. -/
theorem Chunk.decode_constant {c : Chunk Value} {offset : Nat} {op : Opcode} {index : UInt8}
    (hOp : c.code[offset]?.bind Opcode.ofByte? = some op) (hTakes : op.takesConstant = true)
    (hIndex : c.code[offset + 1]? = some index) :
    c.decode offset = .instruction ⟨op, index.toNat⟩ (offset + 2) := by
  obtain ⟨b, hByte, hb⟩ := Option.bind_eq_some_iff.1 hOp
  have hSize : op.operandSize = 1 := by
    cases op
    case constant | getGlobal | defineGlobal | setGlobal => rfl
    all_goals cases hTakes
  simp only [decode, hByte, hb, hSize, hIndex]

namespace Machine

/-- The faults of an instruction that was read. Only two have to do with where it stands: an index of a
constant that there is not, and a jump to an offset before the code. -/
def Faulty (frame : Frame) (i : Instruction) : Fault → Prop
  | .outsideCode | .unknownOpcode _ => False
  | .invalidConstant index => i.op.takesConstant = true ∧ i.operand = index ∧
      frame.function.chunk.constants[index]? = none
  | .loopOutside => i.op = .loop ∧ frame.ip < i.operand
  | _ => True

variable {m : Machine} {frame : Frame}

theorem faulty_nameAt {op : Opcode} (hOp : op.takesConstant = true) {index : Nat} {fault : Fault}
    (h : nameAt frame index = .error fault) : Faulty frame ⟨op, index⟩ fault := by
  unfold nameAt at h
  split at h
  · cases h
  · cases h
    trivial
  · rename_i hNone
    cases h
    exact ⟨hOp, rfl, hNone⟩

theorem faulty_execute {i : Instruction} {fault : Fault} (h : (m.execute frame i).fault? = some fault) :
    Faulty frame i fault := by
  obtain ⟨op, operand⟩ := i
  cases op with
  | constant =>
    simp only [execute, constant] at h
    split at h
    · cases h
    · rename_i hNone
      cases h
      exact ⟨rfl, rfl, hNone⟩
  | getGlobal | defineGlobal | setGlobal =>
    simp only [execute, getGlobal, defineGlobal, setGlobal] at h
    split at h
    · rename_i hName
      cases h
      exact faulty_nameAt rfl hName
    · repeat' split at h
      all_goals cases h
      all_goals trivial
  | loop =>
    simp only [execute, loop] at h
    split at h
    · cases h
    · rename_i hFar
      cases h
      exact ⟨rfl, Nat.lt_of_not_le hFar⟩
  | _ =>
    simp only [execute, pop, getLocal, setLocal, equal, arithmetic, add, not, negate, print, jumpIfFalse,
      call, ret] at h
    repeat' split at h
    all_goals cases h
    all_goals trivial

theorem faulty_step {i : Instruction} {next : Nat} {fault : Fault}
    (hDecode : frame.function.chunk.decode frame.ip = .instruction i next)
    (h : (m.step frame).fault? = some fault) : Faulty { frame with ip := next } i fault := by
  simp only [step, hDecode] at h
  exact faulty_execute h

/-- An instruction with a constant that there is not fails for that reason. -/
theorem fault?_execute_of_none {i : Instruction} (hOp : i.op.takesConstant = true)
    (hNone : frame.function.chunk.constants[i.operand]? = none) :
    (m.execute frame i).fault? = some (.invalidConstant i.operand) := by
  obtain ⟨op, index⟩ := i
  have hName : nameAt frame index = .error (.invalidConstant index) := by
    simp only [nameAt, hNone]
  cases op
  case constant => simp only [execute, constant, hNone, Step.fault?]
  case getGlobal => simp only [execute, getGlobal, hName, Step.fault?]
  case defineGlobal => simp only [execute, defineGlobal, hName, Step.fault?]
  case setGlobal => simp only [execute, setGlobal, hName, Step.fault?]
  all_goals cases hOp

end Machine

/-! ## The row for an offset -/

/-- The text of the row for a jump from an offset to another. -/
def Chunk.jumpText (op : Opcode) (offset : Nat) (target : Int) : String :=
  nameColumn op ++ column offset ++ " -> " ++ toString target

theorem Chunk.jumpText_eq (op : Opcode) (offset : Nat) (target : Int) : jumpText op offset target =
    nameColumn op ++ (column offset ++ (" -> " ++ toString target)) := by
  simp only [jumpText, String.append_assoc]

theorem Chunk.jumpText_inj {op : Opcode} {offset : Nat} {target target' : Int} :
    jumpText op offset target = jumpText op offset target' ↔ target = target' := by
  rw [jumpText, jumpText, String.append_right_inj, Int.toString_eq_repr, Int.toString_eq_repr,
    Int.repr_inj]

/-- Whether an opcode is a jump. -/
def Opcode.jumps : Opcode → Bool
  | jump | jumpIfFalse | loop => true
  | _ => false

section

variable {c : Chunk Value} {i : Instruction} {offset next : Nat}

theorem Chunk.instructionText_constant (h : i.op.takesConstant = true) : c.instructionText i offset next =
    nameColumn i.op ++ (column i.operand ++ (" '" ++ (c.constantText i.operand ++ "'"))) := by
  obtain ⟨op, operand⟩ := i
  cases op
  case constant | getGlobal | defineGlobal | setGlobal => simp only [instructionText, String.append_assoc]
  all_goals cases h

theorem Chunk.instructionText_jump (h : i.op.jumps = true) :
    c.instructionText i offset next = jumpText i.op offset (target i next) := by
  obtain ⟨op, operand⟩ := i
  cases op
  case jump | jumpIfFalse | loop => rfl
  all_goals cases h

/-- The text of any instruction: its name, alone or with a number behind it. -/
theorem Chunk.instructionText_cases (c : Chunk Value) (i : Instruction) (offset next : Nat) :
    c.instructionText i offset next = i.op.name ∨
    ∃ n x, c.instructionText i offset next = nameColumn i.op ++ (column n ++ x) := by
  obtain ⟨op, operand⟩ := i
  cases op
  case constant | getGlobal | defineGlobal | setGlobal =>
    exact .inr ⟨operand, _, instructionText_constant rfl⟩
  case jump | jumpIfFalse | loop =>
    exact .inr ⟨offset, _, (instructionText_jump rfl).trans (jumpText_eq ..)⟩
  case getLocal | setLocal | call => exact .inr ⟨operand, "", by rw [String.append_empty]; rfl⟩
  all_goals exact .inl rfl

/-- The name column of the text of an instruction is its own. -/
theorem Chunk.op_of_instructionText {op : Opcode} {x : String}
    (h : c.instructionText i offset next = nameColumn op ++ x) : i.op = op := by
  rcases c.instructionText_cases i offset next with hName | ⟨n, y, hText⟩
  · exact absurd (hName.symm.trans h) (name_ne_append _ _ _)
  · exact (nameColumn_append_inj.1 (hText.symm.trans h)).1

end

namespace Machine

/-- Where a step goes on, as the row for its instruction shows: a jump that is taken at the target shown,
all else at the next row. A function that is called returns there. -/
def GoesAsShown (m : Machine) (frame : Frame) (text : String) (next : Nat) (m' : Machine) (frame' : Frame) :
    Opcode → Prop
  | .jump => text = Chunk.jumpText .jump frame.ip frame'.ip ∧ frame' = { frame with ip := frame'.ip }
  | .loop => text = Chunk.jumpText .loop frame.ip frame'.ip ∧ frame' = { frame with ip := frame'.ip }
  | .jumpIfFalse => ∃ v, m.peek? 0 = some v ∧
      if v.isFalsey then
        text = Chunk.jumpText .jumpIfFalse frame.ip frame'.ip ∧ frame' = { frame with ip := frame'.ip }
      else frame' = { frame with ip := next }
  | .call => frame' = { frame with ip := next } ∧ m'.callers = m.callers ∨
      m'.callers = { frame with ip := next } :: m.callers
  | .ret => m.callers = frame' :: m'.callers
  | _ => frame' = { frame with ip := next } ∧ m'.callers = m.callers

/-- The row for the offset of a frame, with the offset of the next one, shows what a step does there. Of an
index it shows the constant, or that there is none, which is a fault of the step. -/
structure Shown (m : Machine) (frame : Frame) (text : String) (next : Nat) : Prop where
  unknown : ∀ b : UInt8, text = "Unknown opcode " ++ toString b.toNat ↔
    (m.step frame).fault? = some (.unknownOpcode b)
  truncated : (∃ op, text = nameColumn op ++ "<truncated>") ↔ (m.step frame).fault? = some .outsideCode
  noConstant : ∀ index, (∃ op, op.takesConstant = true ∧
      text = nameColumn op ++ column index ++ " '<?>'" ∧
      frame.function.chunk.constants[index]? = none) ↔
    (m.step frame).fault? = some (.invalidConstant index)
  constant : ∀ (op : Opcode) (index : UInt8) (v : Value),
    frame.function.chunk.code[frame.ip]?.bind Opcode.ofByte? = some op → op.takesConstant = true →
    frame.function.chunk.code[frame.ip + 1]? = some index →
    frame.function.chunk.constants[index.toNat]? = some v →
    text = nameColumn op ++ column index.toNat ++ " '" ++ v.text ++ "'"
  noTarget : (∃ target < 0, text = Chunk.jumpText .loop frame.ip target) ↔
    (m.step frame).fault? = some .loopOutside
  goesOn : ∀ m' frame' op, frame.function.chunk.code[frame.ip]?.bind Opcode.ofByte? = some op →
    m.step frame = .next m' frame' → m.GoesAsShown frame text next m' frame' op

variable {m : Machine} {frame : Frame}

/-- A row that is none of an instruction. -/
theorem shown_unknown {b : UInt8} (hStep : (m.step frame).fault? = some (.unknownOpcode b)) (next : Nat) :
    m.Shown frame ("Unknown opcode " ++ toString b.toNat) next where
  unknown := fun b' => by
    rw [hStep, String.append_right_inj, Nat.toString_eq_repr, Nat.toString_eq_repr, Nat.repr_inj,
      UInt8.toNat_inj, Option.some.injEq, Fault.unknownOpcode.injEq]
  truncated := by
    rw [hStep]
    refine iff_of_false ?_ nofun
    rintro ⟨op, hText⟩
    exact unknown_ne_append _ _ _ hText
  noConstant := fun index => by
    rw [hStep]
    refine iff_of_false ?_ nofun
    rintro ⟨op, -, hText, -⟩
    rw [String.append_assoc] at hText
    exact unknown_ne_append _ _ _ hText
  constant := fun op index v hOp hTakes hIndex _ =>
    (faulty_step (Chunk.decode_constant hOp hTakes hIndex) hStep).elim
  noTarget := by
    rw [hStep]
    refine iff_of_false ?_ nofun
    rintro ⟨target, -, hText⟩
    rw [Chunk.jumpText_eq] at hText
    exact unknown_ne_append _ _ _ hText
  goesOn := fun m' frame' op hOp' hNext => by
    rw [hNext] at hStep
    cases hStep

theorem shown_truncated {op : Opcode} (hStep : (m.step frame).fault? = some .outsideCode) (next : Nat) :
    m.Shown frame (nameColumn op ++ "<truncated>") next where
  unknown := fun b => by
    rw [hStep]
    exact iff_of_false (unknown_ne_append _ _ _).symm nofun
  truncated := by
    rw [hStep]
    exact iff_of_true ⟨op, rfl⟩ rfl
  noConstant := fun index => by
    rw [hStep]
    refine iff_of_false ?_ nofun
    rintro ⟨op, -, hText, -⟩
    rw [String.append_assoc, nameColumn_append_inj] at hText
    exact column_append_ne _ _ hText.2.symm
  constant := fun op index v hOp hTakes hIndex _ =>
    (faulty_step (Chunk.decode_constant hOp hTakes hIndex) hStep).elim
  noTarget := by
    rw [hStep]
    refine iff_of_false ?_ nofun
    rintro ⟨target, -, hText⟩
    rw [Chunk.jumpText_eq, nameColumn_append_inj] at hText
    exact column_append_ne _ _ hText.2.symm
  goesOn := fun m' frame' op hOp' hNext => by
    rw [hNext] at hStep
    cases hStep

/-- Where an instruction goes on. -/
theorem goesAsShown_execute {i : Instruction} {next : Nat} {m' : Machine} {frame' : Frame}
    (h : m.execute { frame with ip := next } i = .next m' frame') :
    m.GoesAsShown frame (frame.function.chunk.instructionText i frame.ip next) next m' frame' i.op := by
  obtain ⟨op, operand⟩ := i
  cases op with
  | jump =>
    cases h
    exact ⟨Chunk.instructionText_jump rfl, rfl⟩
  | loop =>
    simp only [execute, loop] at h
    split at h
    · rename_i hLe
      cases h
      refine ⟨(Chunk.instructionText_jump rfl).trans (Chunk.jumpText_inj.2 ?_), rfl⟩
      simp only [Chunk.target, if_true]
      omega
    · cases h
  | jumpIfFalse =>
    simp only [execute, jumpIfFalse] at h
    split at h
    · rename_i v hv
      cases h
      refine ⟨v, hv, ?_⟩
      split
      · exact ⟨Chunk.instructionText_jump rfl, rfl⟩
      · rfl
    · cases h
  | call =>
    simp only [execute, call] at h
    repeat' split at h
    all_goals cases h
    · exact .inr rfl
    · exact .inl ⟨rfl, rfl⟩
    · exact .inl ⟨rfl, rfl⟩
  | ret =>
    simp only [execute, ret] at h
    split at h
    · cases h
    · split at h
      · cases h
      · rename_i hCallers
        cases h
        exact hCallers
  | _ =>
    simp only [execute, constant, pop, getLocal, setLocal, getGlobal, defineGlobal, setGlobal, equal,
      arithmetic, add, not, negate, print] at h
    repeat' split at h
    all_goals cases h
    all_goals exact ⟨rfl, rfl⟩

theorem shown_instruction {i : Instruction} {next : Nat}
    (hDecode : frame.function.chunk.decode frame.ip = .instruction i next) :
    m.Shown frame (frame.function.chunk.instructionText i frame.ip next) next := by
  have hStep : m.step frame = m.execute { frame with ip := next } i := by
    simp only [step, hDecode]
  have hFaulty {fault : Fault} (h : (m.step frame).fault? = some fault) :
      Faulty { frame with ip := next } i fault := faulty_step hDecode h
  refine ⟨fun b => ?_, ?_, fun index => ?_, fun op index v hOp hTakes hIndex hv => ?_, ?_, ?_⟩
  · refine iff_of_false (fun hText => ?_) fun h => hFaulty h
    rcases frame.function.chunk.instructionText_cases i frame.ip next with hName | ⟨n, x, hText'⟩
    · exact unknown_ne_name _ _ (hText.symm.trans hName)
    · exact unknown_ne_append _ _ _ (hText.symm.trans hText')
  · refine iff_of_false ?_ fun h => hFaulty h
    rintro ⟨op, hText⟩
    rcases frame.function.chunk.instructionText_cases i frame.ip next with hName | ⟨n, x, hText'⟩
    · exact name_ne_append _ _ _ (hName.symm.trans hText)
    · exact column_append_ne _ _ (nameColumn_append_inj.1 (hText'.symm.trans hText)).2
  · have hQuoted : " '<?>'" = " '" ++ ("<?>" ++ "'") := rfl
    constructor
    · rintro ⟨op, hOp, hText, hNone⟩
      rw [String.append_assoc, hQuoted] at hText
      obtain rfl := Chunk.op_of_instructionText hText
      rw [Chunk.instructionText_constant hOp, nameColumn_append_inj] at hText
      obtain rfl := column_append_inj hText.2
      rw [hStep]
      exact fault?_execute_of_none hOp hNone
    · intro h
      obtain ⟨hOp, rfl, hNone⟩ := hFaulty h
      refine ⟨i.op, hOp, ?_, hNone⟩
      have hMissing : frame.function.chunk.constantText i.operand = "<?>" := by
        unfold Chunk.constantText
        rw [hNone]
      rw [Chunk.instructionText_constant hOp, hMissing, hQuoted, String.append_assoc]
  · cases hDecode.symm.trans (Chunk.decode_constant hOp hTakes hIndex)
    have hPresent : frame.function.chunk.constantText index.toNat = v.text := by
      unfold Chunk.constantText
      rw [hv]
    rw [Chunk.instructionText_constant hTakes, hPresent]
    simp only [String.append_assoc]
  · constructor
    · rintro ⟨target, hNegative, hText⟩
      obtain ⟨op, distance⟩ := i
      obtain rfl : op = .loop := Chunk.op_of_instructionText (hText.trans (Chunk.jumpText_eq ..))
      rw [Chunk.instructionText_jump rfl, Chunk.jumpText_inj] at hText
      have hFar : ¬ distance ≤ next := by
        simp only [Chunk.target, if_true] at hText
        omega
      rw [hStep]
      simp only [execute, loop, if_neg hFar, Step.fault?]
    · intro h
      obtain ⟨op, distance⟩ := i
      obtain ⟨rfl, hFar⟩ : op = .loop ∧ next < distance := hFaulty h
      refine ⟨_, ?_, Chunk.instructionText_jump rfl⟩
      simp only [Chunk.target, if_true]
      omega
  · intro m' frame' op hOp hNext
    obtain rfl := Option.some.inj ((Chunk.op_of_decode hDecode).symm.trans hOp)
    rw [hStep] at hNext
    exact goesAsShown_execute hNext

/-- At every offset inside the code the row for it shows what the machine does. -/
theorem shown_row (m : Machine) (frame : Frame) (h : frame.ip < frame.function.chunk.code.size) :
    m.Shown frame (frame.function.chunk.rowText frame.ip (frame.function.chunk.decode frame.ip))
      (frame.function.chunk.rowEnd frame.ip (frame.function.chunk.decode frame.ip)) := by
  cases hDecode : frame.function.chunk.decode frame.ip with
  | outside =>
    have hEnd := Chunk.decode_eq_outside_iff.1 hDecode
    omega
  | unknown b => exact shown_unknown (by simp only [step, hDecode, Step.fault?]) _
  | truncated op => exact shown_truncated (by simp only [step, hDecode, Step.fault?]) _
  | instruction i next => exact shown_instruction hDecode

end Machine

/-- Listings and the machine read the same code. The rows of a listing, whatever the bytes and constants of
the chunk, follow each other from the first byte to the last, so that each byte is in one of them. The row
for any offset inside the code, also for one that no row starts at, shows what a machine does there, which
reads byte by byte. -/
theorem listing_shows_steps (c : Chunk Value) :
    (∃ rows, c.Lists 0 rows ∧ (rows.Pairwise fun row row' => row.offset < row'.offset) ∧
      (∀ k < c.code.size, ∃! row, row ∈ rows ∧ row.offset ≤ k ∧ k < row.next) ∧
      ∀ name, c.listing name =
        rows.foldl (fun text row => text ++ row.line ++ "\n") ("== " ++ name ++ " ==\n")) ∧
    ∀ (m : Machine) (frame : Frame), frame.function.chunk = c →
      m.step frame = m.readStep frame ∧
      (frame.ip < c.code.size → ∃ text next,
        c.listingLine? frame.ip = some (c.margin frame.ip ++ text, next) ∧
        frame.ip < next ∧ next ≤ c.code.size ∧ m.Shown frame text next) := by
  constructor
  · obtain ⟨rows, hRows, hText⟩ :=
      Chunk.lists_listFrom (Nat.zero_le c.code.size) (Nat.zero_add c.code.size).ge
    exact ⟨rows, hRows, hRows.increasing, fun k hk => hRows.covers (Nat.zero_le k) hk, fun name => hText _⟩
  · rintro m frame rfl
    refine ⟨m.step_eq_readStep frame, fun hLess => ⟨_, _, Chunk.row_of_lt hLess, ?_⟩⟩
    obtain ⟨hNext, hEnd⟩ := Chunk.rowEnd_bounds hLess
    exact ⟨hNext, hEnd, m.shown_row frame hLess⟩

/-- A constant, and a jump to an offset before the code: one row shows the text of the constant, the other
one a negative target, where the machine fails. -/
theorem listing_shows_steps_negative :
    let c : Chunk Value := ⟨#[0, 0, 22, 0, 9], #[1, 1, 1, 1, 1], #[.bool true]⟩
    let frame : Frame := ⟨⟨0, 0, c, none⟩, 0, 0⟩
    c.listingLine? 0 = some ("0000    1 OP_CONSTANT         0 'true'", 2) ∧
    c.listingLine? 2 = some ("0002    | OP_LOOP             2 -> -4", 5) ∧
    (({} : Machine).step { frame with ip := 2 }).fault? = some .loopOutside := by
  intro c frame
  have hRow (ip : Nat) (h : ip < c.code.size) := ((listing_shows_steps c).2 {} { frame with ip } rfl).2 h
  constructor
  · obtain ⟨text, next, hLine, -, -, hShown⟩ := hRow 0 (by decide)
    have hText := hShown.constant .constant 0 (.bool true) rfl rfl rfl rfl
    have hNext : (c.listingLine? 0).map Prod.snd = some 2 := by decide +kernel
    rw [hLine] at hNext ⊢
    obtain rfl : next = 2 := Option.some.inj hNext
    rw [hText]
    decide +kernel
  · have hLine : c.listingLine? 2 = some (c.margin 2 ++ Chunk.jumpText .loop 2 (-4), 5) := by decide +kernel
    obtain ⟨text, next, hRow, -, -, hShown⟩ := hRow 2 (by decide)
    have hText : text = Chunk.jumpText .loop 2 (-4) :=
      (String.append_right_inj _).1 (congrArg Prod.fst (Option.some.inj (hRow.symm.trans hLine)))
    refine ⟨?_, hShown.noTarget.1 ⟨-4, by decide, hText⟩⟩
    rw [hLine]
    decide +kernel

end Lox

import Lox.Bytecode.Instruction
import Lox.Machine.Basic
import Lox.Machine.Fault
import Lox.Value.Text

/-!
# One instruction

`Machine.step` executes one instruction. An instruction that finds fault with its operands leaves
them on the stack.
-/

set_option autoImplicit false

namespace Lox

/-- What comes of an instruction. -/
inductive Step where
  /-- The run goes on. -/
  | next (m : Machine) (frame : Frame)
  /-- The script has returned. -/
  | halt (m : Machine)
  /-- The run fails; the frame stands behind what was read of the instruction. -/
  | fail (m : Machine) (frame : Frame) (fault : Fault)

namespace Machine

/-! ## Instructions on values -/

/-- An operation on the two numbers on top of the stack. -/
def arithmetic (m : Machine) (frame : Frame) (f : Float → Float → Value) : Step :=
  match m.peek? 1, m.peek? 0 with
  | some (.number a), some (.number b) => .next ((m.drop 2).push (f a b)) frame
  | some _, some _ => .fail m frame .notNumbers
  | _, _ => .fail m frame .stackUnderflow

/-- The sum of two numbers, or two strings joined. -/
def add (m : Machine) (frame : Frame) : Step :=
  match m.peek? 1, m.peek? 0 with
  | some (.number a), some (.number b) => .next ((m.drop 2).push (.number (a + b))) frame
  | some (.object (.string a)), some (.object (.string b)) =>
    let (s, heap) := m.heap.intern (a.text ++ b.text)
    .next (({ m with heap }.drop 2).push (.object (.string s))) frame
  | some _, some _ => .fail m frame .notAddable
  | _, _ => .fail m frame .stackUnderflow

/-- Whether the two values on top of the stack are equal. -/
def equal (m : Machine) (frame : Frame) : Step :=
  match m.peek? 1, m.peek? 0 with
  | some a, some b => .next ((m.drop 2).push (.bool (a.equal b))) frame
  | _, _ => .fail (m.drop 1) frame .stackUnderflow

/-- Whether the value on top of the stack is falsey. -/
def not (m : Machine) (frame : Frame) : Step :=
  match m.peek? 0 with
  | some value => .next ((m.drop 1).push (.bool value.isFalsey)) frame
  | none => .fail m frame .stackUnderflow

/-- The number on top of the stack with the other sign. -/
def negate (m : Machine) (frame : Frame) : Step :=
  match m.peek? 0 with
  | some (.number x) => .next ((m.drop 1).push (.number (-x))) frame
  | some _ => .fail m frame .notNumber
  | none => .fail m frame .stackUnderflow

/-- Drops the value on top of the stack. -/
def pop (m : Machine) (frame : Frame) : Step :=
  match m.peek? 0 with
  | some _ => .next (m.drop 1) frame
  | none => .fail m frame .stackUnderflow

/-- Prints the value on top of the stack. -/
def print (m : Machine) (frame : Frame) : Step :=
  match m.peek? 0 with
  | some value =>
    let m := m.drop 1
    let (failure, output) := m.output.printLine value.text
    let m := { m with output }
    match failure with
    | none => .next m frame
    | some reason => .fail m frame (.outputFailed reason)
  | none => .fail m frame .stackUnderflow

/-! ## Variables and constants -/

/-- Pushes a constant. -/
def constant (m : Machine) (frame : Frame) (index : Nat) : Step :=
  match frame.function.chunk.constants[index]? with
  | some value => .next (m.push value) frame
  | none => .fail m frame (.invalidConstant index)

/-- Pushes the value of a local. -/
def getLocal (m : Machine) (frame : Frame) (slot : Nat) : Step :=
  match m.stack[frame.base + slot]? with
  | some value => .next (m.push value) frame
  | none => .fail m frame .invalidSlot

/-- Assigns the value on top of the stack to a local. -/
def setLocal (m : Machine) (frame : Frame) (slot : Nat) : Step :=
  match m.peek? 0 with
  | some value =>
    if frame.base + slot < m.stack.size then
      .next { m with stack := m.stack.setIfInBounds (frame.base + slot) value } frame
    else .fail m frame .invalidSlot
  | none => .fail m frame .stackUnderflow

/-- The name among the constants with an index. -/
def nameAt (frame : Frame) (index : Nat) : Except Fault Str :=
  match frame.function.chunk.constants[index]? with
  | some (.object (.string name)) => .ok name
  | some value => .error (.notName value.typeName)
  | none => .error (.invalidConstant index)

/-- Pushes the value of a global. -/
def getGlobal (m : Machine) (frame : Frame) (index : Nat) : Step :=
  match nameAt frame index with
  | .error fault => .fail m frame fault
  | .ok name =>
    match m.globals.get? (.string name) with
    | some value => .next (m.push value) frame
    | none => .fail m frame (.undefinedVariable name.text)

/-- Defines a global as the value on top of the stack, and drops it. -/
def defineGlobal (m : Machine) (frame : Frame) (index : Nat) : Step :=
  match nameAt frame index with
  | .error fault => .fail m frame fault
  | .ok name =>
    match m.peek? 0 with
    | some value =>
      .next ({ m with globals := (m.globals.set (.string name) value).2 }.drop 1) frame
    | none => .fail m frame .stackUnderflow

/-- Assigns the value on top of the stack to a global. Assignment defines no global: a name that
proves to be new is removed again. -/
def setGlobal (m : Machine) (frame : Frame) (index : Nat) : Step :=
  match nameAt frame index with
  | .error fault => .fail m frame fault
  | .ok name =>
    match m.peek? 0 with
    | some value =>
      let (isNew, globals) := m.globals.set (.string name) value
      if isNew then
        .fail { m with globals := (globals.delete (.string name)).2 } frame
          (.undefinedVariable name.text)
      else .next { m with globals } frame
    | none => .fail m frame .stackUnderflow

/-! ## Control flow -/

/-- Jumps forwards when the value on top of the stack is falsey. -/
def jumpIfFalse (m : Machine) (frame : Frame) (distance : Nat) : Step :=
  match m.peek? 0 with
  | some value =>
    .next m (if value.isFalsey then { frame with ip := frame.ip + distance } else frame)
  | none => .fail m frame .stackUnderflow

/-- Jumps backwards. -/
def loop (m : Machine) (frame : Frame) (distance : Nat) : Step :=
  if distance ≤ frame.ip then .next m { frame with ip := frame.ip - distance }
  else .fail m frame .loopOutside

/-- Calls the value below its arguments. -/
def call (m : Machine) (frame : Frame) (count : Nat) : Step :=
  match m.peek? count with
  | none => .fail m frame .stackUnderflow
  | some (.object (.function f)) =>
    if count ≠ f.arity then .fail m frame (.wrongArity f.arity count)
    else if maxFrames ≤ m.callers.length + 1 then .fail m frame .stackOverflow
    else
      let callee : Frame := { function := f, ip := 0, base := m.stack.size - count - 1 }
      .next { m with callers := frame :: m.callers } callee
  | some (.object (.native n)) =>
    if count ≠ n.arity then .fail m frame (.wrongArity n.arity count)
    else
      let arguments := m.stack.extract (m.stack.size - count) m.stack.size
      let result := match m.natives[n.entry]? with
        | some behaviour => behaviour m.now arguments
        | none => .nil
      .next ((m.drop (count + 1)).push result) frame
  | some _ => .fail m frame .notCallable

/-- Returns the value on top of the stack to the caller, and drops the frame's values. -/
def ret (m : Machine) (frame : Frame) : Step :=
  match m.peek? 0 with
  | none => .fail m frame .stackUnderflow
  | some result =>
    let m := m.drop 1
    let m := { m with stack := m.stack.shrink frame.base }
    match m.callers with
    | [] => .halt m
    | caller :: callers => .next ({ m with callers }.push result) caller

/-! ## The step -/

/-- Executes an instruction in a frame that stands behind it. -/
def execute (m : Machine) (frame : Frame) (i : Instruction) : Step :=
  match i.op with
  | .constant => m.constant frame i.operand
  | .pushNil => .next (m.push .nil) frame
  | .pushTrue => .next (m.push (.bool true)) frame
  | .pushFalse => .next (m.push (.bool false)) frame
  | .pop => m.pop frame
  | .getLocal => m.getLocal frame i.operand
  | .setLocal => m.setLocal frame i.operand
  | .getGlobal => m.getGlobal frame i.operand
  | .defineGlobal => m.defineGlobal frame i.operand
  | .setGlobal => m.setGlobal frame i.operand
  | .equal => m.equal frame
  | .greater => m.arithmetic frame fun a b => .bool (a > b)
  | .less => m.arithmetic frame fun a b => .bool (a < b)
  | .add => m.add frame
  | .subtract => m.arithmetic frame fun a b => .number (a - b)
  | .multiply => m.arithmetic frame fun a b => .number (a * b)
  | .divide => m.arithmetic frame fun a b => .number (a / b)
  | .not => m.not frame
  | .negate => m.negate frame
  | .print => m.print frame
  | .jump => .next m { frame with ip := frame.ip + i.operand }
  | .jumpIfFalse => m.jumpIfFalse frame i.operand
  | .loop => m.loop frame i.operand
  | .call => m.call frame i.operand
  | .ret => m.ret frame

/-- Executes the next instruction of a frame. -/
def step (m : Machine) (frame : Frame) : Step :=
  match frame.function.chunk.decode frame.ip with
  | .outside => .fail m frame .outsideCode
  | .unknown byte => .fail m { frame with ip := frame.ip + 1 } (.unknownOpcode byte)
  | .truncated _ => .fail m { frame with ip := frame.function.chunk.code.size } .outsideCode
  | .instruction i next => m.execute { frame with ip := next } i

end Machine

end Lox

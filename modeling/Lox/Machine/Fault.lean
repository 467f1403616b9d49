/-!
# Faults

Why a run fails, and the call stack at that point. The first group of faults comes from programs, the
second only from bytecode that no compiler wrote. The wording is in `Fault.message`.
-/

set_option autoImplicit false

namespace Lox

/-- Why an instruction fails. -/
inductive Fault where
  | undefinedVariable (name : String)
  | notNumbers
  | notAddable
  | notNumber
  | notCallable
  | wrongArity (expected got : Nat)
  | stackOverflow
  | outputFailed (reason : String)
  | stackUnderflow
  | invalidSlot
  | outsideCode
  | unknownOpcode (byte : UInt8)
  | invalidConstant (index : Nat)
  | notName (typeName : String)
  | loopOutside
deriving DecidableEq, Repr

/-- The text of a fault. -/
def Fault.message : Fault → String
  | undefinedVariable name => "Undefined variable '" ++ name ++ "'."
  | notNumbers => "Operands must be numbers."
  | notAddable => "Operands must be two numbers or two strings."
  | notNumber => "Operand must be a number."
  | notCallable => "Can only call functions and classes."
  | wrongArity expected got =>
    "Expected " ++ toString expected ++ " arguments but got " ++ toString got ++ "."
  | stackOverflow => "Stack overflow."
  | outputFailed reason => "Failed to write output: " ++ reason ++ "."
  | stackUnderflow => "Stack underflow."
  | invalidSlot => "Invalid local slot."
  | outsideCode => "Instruction pointer out of bounds."
  | unknownOpcode byte => "Unknown opcode " ++ toString byte.toNat ++ "."
  | invalidConstant index => "Invalid constant index " ++ toString index ++ "."
  | notName typeName => "Expected a name constant, found " ++ typeName ++ "."
  | loopOutside => "Loop offset out of bounds."

/-- A call in progress: the line it has reached, and the name of its function unless it is a
script. -/
structure TracePoint where
  line : Nat
  name : Option String
deriving DecidableEq, Repr

/-- The text of a call in progress. -/
def TracePoint.text (point : TracePoint) : String :=
  let place := match point.name with
    | some name => name ++ "()"
    | none => "script"
  "[line " ++ toString point.line ++ "] in " ++ place

/-- A failed run: the fault, and the calls in progress, innermost first. -/
structure RuntimeError where
  fault : Fault
  trace : List TracePoint
deriving DecidableEq, Repr

/-- The text of a failed run. -/
def RuntimeError.text (e : RuntimeError) : String :=
  "\n".intercalate (e.fault.message :: e.trace.map TracePoint.text)

end Lox

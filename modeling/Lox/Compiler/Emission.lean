import Lox.Compiler.Parser

/-!
# Writing bytecode

Instructions are written at the end of the current draft, on the line of the token read last. A jump
forwards is written before its distance is known and patched when its target is reached.
-/

set_option autoImplicit false

namespace Lox.Parser

/-- The number of constants that instructions can refer to. -/
def maxConstants : Nat := 256

/-- The farthest distance that fits in an instruction. -/
def maxDistance : Nat := 65535

/-- Appends bytes to the current draft. -/
def writeBytes (p : Parser) (bytes : List UInt8) : Parser :=
  { p with draft := p.draft.write bytes p.previous.line }

/-- Appends an instruction with an operand. -/
def emitWith (p : Parser) (op : Opcode) (operand : Nat) : Parser :=
  p.writeBytes (Instruction.encode ⟨op, operand⟩)

/-- Appends an instruction without an operand. -/
def emit (p : Parser) (op : Opcode) : Parser := p.emitWith op 0

/-- Appends a return of nil. -/
def emitReturn (p : Parser) : Parser := (p.emit .pushNil).emit .ret

/-- The offset at which the next instruction will stand. -/
def here (p : Parser) : Nat := p.draft.size

/-! ## Constants -/

/-- Adds a constant, and returns its index. -/
def makeConstant (p : Parser) (value : Value) : Nat × Parser :=
  let index := p.draft.chunk.constants.size
  if index < maxConstants then
    (index, { p with draft := { p.draft with chunk := p.draft.chunk.addConstant value } })
  else (0, p.error .tooManyConstants)

/-- Appends an instruction that pushes a constant. -/
def emitConstant (p : Parser) (value : Value) : Parser :=
  let (index, p) := p.makeConstant value
  p.emitWith .constant index

/-- Interns a text. -/
def intern (p : Parser) (text : String) : Str × Parser :=
  let (s, heap) := p.heap.intern text
  (s, { p with heap })

/-- The index of a name among the constants; adds the name when it is not there. -/
def nameConstant (p : Parser) (name : String) : Nat × Parser :=
  let (s, p) := p.intern name
  let isName : Value → Bool
    | .object o => o.id = s.id
    | _ => false
  match p.draft.chunk.constants.findIdx? isName with
  | some index => (index, p)
  | none => p.makeConstant (.object (.string s))

/-! ## Jumps -/

/-- Appends a jump forwards with a distance to be patched, and returns where the distance stands. -/
def emitJump (p : Parser) (op : Opcode) : Nat × Parser :=
  let p := p.emitWith op maxDistance
  (p.here - 2, p)

/-- Makes the jump whose distance stands at an offset lead to the next instruction. -/
def patchJump (p : Parser) (offset : Nat) : Parser :=
  let distance := p.here - offset - 2
  if distance ≤ maxDistance then { p with draft := p.draft.patch offset distance }
  else p.error .jumpTooFar

/-- Appends a jump back to an offset. One that is too far is left without its distance. -/
def emitLoop (p : Parser) (start : Nat) : Parser :=
  let distance := p.here + 3 - start
  if distance ≤ maxDistance then p.emitWith .loop distance
  else (p.writeBytes [Opcode.loop.toByte]).error .loopTooLarge

/-! ## Functions -/

/-- Starts a function inside the current one. -/
def beginFunction (p : Parser) (name : Str) : Parser :=
  { p with draft := { name := some name }, enclosing := p.draft :: p.enclosing }

/-- Finishes the current function and returns to the one around it. -/
def endFunction (p : Parser) : Draft × Parser :=
  let p := p.emitReturn
  match p.enclosing with
  | outer :: enclosing => (p.draft, { p with draft := outer, enclosing })
  | [] => (p.draft, { p with draft := { name := none } })

end Lox.Parser

import Mathlib.Data.Part
import Lox.Compiler

/-!
# The compiler with everything checked

The compiler once more, as a partial function that has no value where something is not as it should be.
Subtractions must not go below zero, indices must be inside of what they are for, and numbers must fit
where they are written; a number literal must be one. After each construct the scope, the locals and the
functions around must be what they were, and after a declaration there may be one more local. The compiler
keeps going after a problem, so all of this is asked on malformed sources too.
-/

set_option autoImplicit false

namespace Lox

/-! ## Checks -/

namespace Checked

/-- Goes on only where something is so. -/
def require (P : Prop) : Part Unit := .assert P fun _ => .some ()

/-- A difference that is not below zero. -/
def difference (a b : Nat) : Part Nat := do
  require (b ≤ a)
  return a - b

/-- A number that fits in a byte. -/
def inByte (n : Nat) : Part Nat := do
  require (n < 256)
  return n

/-- An array with another element at an index inside of it. -/
def overwrite {α : Type} (xs : Array α) (i : Nat) (x : α) : Part (Array α) :=
  .assert (i < xs.size) fun h => .some (xs.set i x h)

/-- The text between two byte offsets, neither of which is in the middle of a character. -/
def slice (text : String) (start stop : Nat) : Part String :=
  .assert (start ≤ stop ∧ String.Pos.Raw.IsValid text ⟨start⟩ ∧ String.Pos.Raw.IsValid text ⟨stop⟩)
    fun h => .some (text.extract ⟨⟨start⟩, h.2.1⟩ ⟨⟨stop⟩, h.2.2⟩)

theorem require_bind {α : Type} {P : Prop} (h : P) (f : Unit → Part α) : (require P >>= f) = f () := by
  rw [require, Part.assert_pos h, Part.bind_eq_bind, Part.bind_some]

theorem difference_bind {α : Type} {a b : Nat} (h : b ≤ a) (f : Nat → Part α) :
    (difference a b >>= f) = f (a - b) := by
  rw [difference, bind_assoc, require_bind h, pure_bind]

theorem inByte_bind {α : Type} {n : Nat} (h : n < 256) (f : Nat → Part α) : (inByte n >>= f) = f n := by
  rw [inByte, bind_assoc, require_bind h, pure_bind]

theorem overwrite_bind {α β : Type} {xs : Array α} {i : Nat} (h : i < xs.size) (x : α)
    (f : Array α → Part β) : (overwrite xs i x >>= f) = f (xs.setIfInBounds i x) := by
  rw [overwrite, Part.assert_pos h, Part.bind_eq_bind, Part.bind_some, Array.setIfInBounds_def, dif_pos h]

theorem slice_middle (left text right : String) :
    slice (left ++ (text ++ right)) left.utf8ByteSize (left.utf8ByteSize + text.utf8ByteSize) =
      .some text := by
  have hStart : String.Pos.Raw.IsValid (left ++ (text ++ right)) ⟨left.utf8ByteSize⟩ :=
    String.Pos.Raw.isValid_iff_exists_append.2 ⟨left, text ++ right, rfl, rfl⟩
  have hStop :
      String.Pos.Raw.IsValid (left ++ (text ++ right)) ⟨left.utf8ByteSize + text.utf8ByteSize⟩ := by
    refine String.Pos.Raw.isValid_iff_exists_append.2 ⟨left ++ text, right, ?_, ?_⟩
    · rw [String.append_assoc]
    · simp [String.Pos.Raw.ext_iff]
  rw [slice, Part.assert_pos ⟨Nat.le_add_right .., hStart, hStop⟩]
  congr 1
  apply String.toByteArray_inj.1
  rw [String.toByteArray_extract, String.toByteArray_append, String.toByteArray_append]
  simp only [← String.size_toByteArray]
  have hInside := @ByteArray.extract_append_size_add left.toByteArray
    (text.toByteArray ++ right.toByteArray) 0 text.toByteArray.size
  rw [Nat.add_zero] at hInside
  rw [hInside, ByteArray.extract_append_eq_left rfl]

end Checked

open Checked

/-- The parsers of a level, checked. -/
structure CheckedLevel where
  statement : Parser → Part Parser
  operand : Precedence → Parser → Part Parser
  function : Parser → Part Parser

namespace Parser

/-- The locals stand in the order of their scopes, the newest in the innermost. -/
def InOrder (p : Parser) : Prop := p.draft.locals.Pairwise fun l older => older.depth ≤ l.depth

/-- `q` is in the scope of `p`, with the same locals and the same functions around it. -/
structure SameScope (p q : Parser) : Prop where
  scopeDepth : q.draft.scopeDepth = p.draft.scopeDepth
  locals : q.draft.locals = p.draft.locals
  enclosing : q.enclosing = p.enclosing

/-- `q` is in the scope of `p`, with the same functions around it, and has at most one more local. -/
structure OneMore (p q : Parser) : Prop where
  scopeDepth : q.draft.scopeDepth = p.draft.scopeDepth
  locals : q.draft.locals = p.draft.locals ∨ ∃ l, q.draft.locals = l :: p.draft.locals
  enclosing : q.enclosing = p.enclosing

/-- Compiles a construct that must leave the scope as it found it. -/
def keeping (construct : Parser → Part Parser) (p : Parser) : Part Parser := do
  require p.InOrder
  let q ← construct p
  require (p.SameScope q)
  return q

theorem succ_depth_lt (p : Parser) (h : p.depth < maxNesting) : p.depth.val + 1 < maxNesting + 1 :=
  Nat.succ_lt_succ h

theorem pred_depth_lt (p : Parser) : p.depth.val - 1 < maxNesting + 1 := Nat.sub_lt_of_lt p.depth.isLt

/-- Compiles a construct one level deeper; the counter must come back. -/
def checkedNested (construct : Parser → Part Parser) (p : Parser) : Part Parser :=
  if h : p.depth < maxNesting then do
    let q ← construct { p with depth := ⟨p.depth + 1, p.succ_depth_lt h⟩ }
    require (0 < q.depth.val)
    return { q with depth := ⟨q.depth - 1, q.pred_depth_lt⟩ }
  else .some p.giveUp

/-! ## Emission -/

def checkedMakeConstant (p : Parser) (value : Value) : Part (Nat × Parser) := do
  let index ← inByte (p.makeConstant value).1
  return (index, (p.makeConstant value).2)

def checkedEmitConstant (p : Parser) (value : Value) : Part Parser := do
  let (index, p) ← p.checkedMakeConstant value
  return p.emitWith .constant index

def checkedNameConstant (p : Parser) (name : String) : Part (Nat × Parser) := do
  let index ← inByte (p.nameConstant name).1
  return (index, (p.nameConstant name).2)

def checkedEmitJump (p : Parser) (op : Opcode) : Part (Nat × Parser) := do
  let p := p.emitWith op maxDistance
  let offset ← difference p.here 2
  return (offset, p)

def checkedPatchJump (p : Parser) (offset : Nat) : Part Parser := do
  let length ← difference p.here offset
  let distance ← difference length 2
  if distance ≤ maxDistance then
    let code ← overwrite p.draft.chunk.code offset (distance / 256).toUInt8
    let code ← overwrite code (offset + 1) distance.toUInt8
    return { p with draft := { p.draft with chunk := { p.draft.chunk with code } } }
  else return p.error .jumpTooFar

def checkedEmitLoop (p : Parser) (start : Nat) : Part Parser := do
  let length ← difference (p.here + 1) start
  let distance := length + 2
  if distance ≤ maxDistance then return p.emitWith .loop distance
  else return (p.writeBytes [Opcode.loop.toByte]).error .loopTooLarge

/-! ## Scopes and variables -/

def checkedEndScope (p : Parser) : Part Parser := do
  let scopeDepth ← difference p.draft.scopeDepth 1
  let p := dropLocals p.draft.locals { p with draft := { p.draft with scopeDepth } }
  require p.InOrder
  return p

def checkedDeclareVariable (p : Parser) : Part Parser := do
  let p := p.declareVariable
  require p.InOrder
  return p

def checkedVariableName (p : Parser) (what : Expected) : Part (Nat × Parser) := do
  let p ← (p.consume .identifier what).checkedDeclareVariable
  if p.draft.scopeDepth = 0 then p.checkedNameConstant p.previous.lexeme else return (0, p)

def checkedResolve (p : Parser) (name : String) : Part (Reference × Parser) :=
  match Draft.resolve? name p.draft.locals with
  | some (n, l) => do
    let n ← inByte n
    return (.slot n, if l.initialized then p else p.error .ownInitializer)
  | none => do
    let (index, p) ← p.checkedNameConstant name
    return (.global index, p)

/-! ## Expressions -/

/-- What reads numbers accepts digits, and digits with a point and more digits behind them. -/
structure AcceptsLiterals (accepts : String → Prop) : Prop where
  whole : ∀ digits : List Char, digits ≠ [] → (∀ c ∈ digits, c.isDigit = true) →
    accepts (String.ofList digits)
  fraction : ∀ digits places : List Char, digits ≠ [] → places ≠ [] →
    (∀ c ∈ digits, c.isDigit = true) → (∀ c ∈ places, c.isDigit = true) →
    accepts (String.ofList (digits ++ '.' :: places))

section

variable (accepts : String → Prop) (inner : CheckedLevel)

def checkedExpression (p : Parser) : Part Parser := inner.operand .assignment p

def checkedName (mayAssign : Bool) (p : Parser) : Part Parser := do
  let (ref, p) ← p.checkedResolve p.previous.lexeme
  if mayAssign && p.check .equal then
    let p ← checkedExpression inner p.advance
    return p.emitSet ref
  else return p.emitGet ref

def checkedGrouping (p : Parser) : Part Parser := do
  let p ← checkedExpression inner p
  return p.consume .rightParen .parenAfterExpression

def checkedUnary (p : Parser) : Part Parser := do
  let operator := p.previous.kind
  let p ← inner.operand .unary p
  return match operator with
    | .minus => p.emit .negate
    | .bang => p.emit .not
    | _ => p

/-- A number literal, which must be accepted. -/
def checkedNumber (p : Parser) : Part Parser := do
  require (accepts p.previous.lexeme)
  let cs := p.previous.lexeme.toList
  let whole := cs.takeWhile Char.isDigit
  let fraction := cs.drop (whole.length + 1)
  p.checkedEmitConstant (.number (Number.ofLiteral whole fraction))

/-- A string literal: all but its first and its last byte. -/
def checkedString (p : Parser) : Part Parser := do
  let stop ← difference p.previous.lexeme.utf8ByteSize 1
  let text ← slice p.previous.lexeme 1 stop
  let (s, p) := p.intern text
  p.checkedEmitConstant (.object (.string s))

def checkedLeading (mayAssign : Bool) (p : Parser) : Leading → Part Parser
  | .grouping => checkedGrouping inner p
  | .unary => checkedUnary inner p
  | .name => checkedName inner mayAssign p
  | .string => p.checkedString
  | .number => checkedNumber accepts p
  | .literal => .some p.literal

def checkedArguments : Nat → Nat → Parser → Part (Nat × Parser)
  | 0, count, p => .some (count, p)
  | fuel + 1, count, p => do
    let p ← checkedExpression inner p
    let p := if count = maxArguments then p.error .tooManyArguments else p
    if p.check .comma then checkedArguments fuel (count + 1) p.advance else return (count + 1, p)

def checkedCall (p : Parser) : Part Parser := do
  let (count, p) ← (if p.check .rightParen then pure (0, p) else checkedArguments inner p.total 0 p)
  let p := p.consume .rightParen .parenAfterArguments
  let count ← inByte (min count maxArguments)
  return p.emitWith .call count

def checkedBinary (p : Parser) : Part Parser := do
  let operator := p.previous.kind
  let p ← inner.operand operator.precedence.next p
  return (binaryCode operator).foldl emit p

def checkedAnd (p : Parser) : Part Parser := do
  let (endJump, p) ← p.checkedEmitJump .jumpIfFalse
  let p ← inner.operand .and (p.emit .pop)
  p.checkedPatchJump endJump

def checkedOr (p : Parser) : Part Parser := do
  let (elseJump, p) ← p.checkedEmitJump .jumpIfFalse
  let (endJump, p) ← p.checkedEmitJump .jump
  let p ← p.checkedPatchJump elseJump
  let p ← inner.operand .or (p.emit .pop)
  p.checkedPatchJump endJump

def checkedTrailing (p : Parser) : Trailing → Part Parser
  | .call => checkedCall inner p
  | .binary => checkedBinary inner p
  | .and => checkedAnd inner p
  | .or => checkedOr inner p

def checkedOperators (precedence : Precedence) : Nat → Parser → Part Parser
  | 0, p => .some p
  | fuel + 1, p =>
    if precedence.rank ≤ p.current.kind.precedence.rank then do
      let p := p.advance
      let p ← (match p.previous.kind.trailing? with
        | some rule => checkedTrailing inner p rule
        | none => pure p)
      checkedOperators precedence fuel p
    else .some p

def checkedOperand (precedence : Precedence) (p : Parser) : Part Parser :=
  let p := p.advance
  match p.previous.kind.leading? with
  | none => .some (p.error .expectedExpression)
  | some rule => do
    let mayAssign := precedence.rank ≤ Precedence.assignment.rank
    let p ← checkedLeading accepts inner mayAssign p rule
    let p ← checkedOperators inner precedence p.total p
    return if mayAssign && p.check .equal then p.advance.error .invalidAssignmentTarget else p

/-! ## Statements and declarations -/

def checkedPrintStatement (p : Parser) : Part Parser := do
  let p ← checkedExpression inner p
  return (p.consume .semicolon .semicolonAfterValue).emit .print

def checkedExpressionStatement (p : Parser) : Part Parser := do
  let p ← checkedExpression inner p
  return (p.consume .semicolon .semicolonAfterExpression).emit .pop

def checkedReturnStatement (p : Parser) : Part Parser := do
  let p := if p.draft.isScript then p.error .returnFromScript else p
  if p.check .semicolon then return p.advance.emitReturn
  else
    let p ← checkedExpression inner p
    return (p.consume .semicolon .semicolonAfterReturn).emit .ret

def checkedVarDeclaration (p : Parser) : Part Parser := do
  let (index, p) ← p.checkedVariableName .variableName
  let p ← (if p.check .equal then checkedExpression inner p.advance else pure (p.emit .pushNil))
  return (p.consume .semicolon .semicolonAfterVariable).defineVariable index

def checkedFunDeclaration (p : Parser) : Part Parser := do
  let (index, p) ← p.checkedVariableName .functionName
  let p ← inner.function p.markInitialized
  return p.defineVariable index

/-- A declaration or a statement, after which there is at most one more local. -/
def checkedDeclaration (p : Parser) : Part Parser := do
  let q ← (if p.check .kwFun then checkedFunDeclaration inner p.advance
    else if p.check .kwVar then checkedVarDeclaration inner p.advance
    else inner.statement p)
  let q := if q.recovering then q.synchronize else q
  require (p.OneMore q)
  return q

def checkedDeclarations : Nat → Parser → Part Parser
  | 0, p => .some p
  | fuel + 1, p =>
    if p.check .rightBrace || p.check .eof then .some p
    else do
      let p ← checkedDeclaration inner p
      checkedDeclarations fuel p

def checkedBlock (p : Parser) : Part Parser := do
  let p ← checkedDeclarations inner p.total p
  return p.consume .rightBrace .braceAfterBlock

def checkedIfStatement (p : Parser) : Part Parser := do
  let p ← checkedExpression inner (p.consume .leftParen .parenAfterIf)
  let p := p.consume .rightParen .parenAfterCondition
  let (thenJump, p) ← p.checkedEmitJump .jumpIfFalse
  let p ← inner.statement (p.emit .pop)
  let (elseJump, p) ← p.checkedEmitJump .jump
  let p ← p.checkedPatchJump thenJump
  let p := p.emit .pop
  let p ← (if p.check .kwElse then inner.statement p.advance else pure p)
  p.checkedPatchJump elseJump

def checkedWhileStatement (p : Parser) : Part Parser := do
  let start := p.here
  let p ← checkedExpression inner (p.consume .leftParen .parenAfterWhile)
  let p := p.consume .rightParen .parenAfterCondition
  let (exitJump, p) ← p.checkedEmitJump .jumpIfFalse
  let p ← inner.statement (p.emit .pop)
  let p ← p.checkedEmitLoop start
  let p ← p.checkedPatchJump exitJump
  return p.emit .pop

def checkedForInitializer (p : Parser) : Part Parser :=
  if p.check .semicolon then .some p.advance
  else if p.check .kwVar then checkedVarDeclaration inner p.advance
  else checkedExpressionStatement inner p

def checkedForCondition (p : Parser) : Part (Option Nat × Parser) :=
  if p.check .semicolon then .some (none, p.advance)
  else do
    let p ← checkedExpression inner p
    let p := p.consume .semicolon .semicolonAfterCondition
    let (exitJump, p) ← p.checkedEmitJump .jumpIfFalse
    return (some exitJump, p.emit .pop)

def checkedForIncrement (start : Nat) (p : Parser) : Part (Nat × Parser) :=
  if p.check .rightParen then .some (start, p.advance)
  else do
    let (bodyJump, p) ← p.checkedEmitJump .jump
    let increment := p.here
    let p ← checkedExpression inner p
    let p := (p.emit .pop).consume .rightParen .parenAfterClauses
    let p ← p.checkedEmitLoop start
    let p ← p.checkedPatchJump bodyJump
    return (increment, p)

/-- A `for` without its scope. -/
def checkedForLoop (p : Parser) : Part Parser := do
  let p ← checkedForInitializer inner (p.consume .leftParen .parenAfterFor)
  let start := p.here
  let (exitJump, p) ← checkedForCondition inner p
  let (start, p) ← checkedForIncrement inner start p
  let p ← inner.statement p
  let p ← p.checkedEmitLoop start
  match exitJump with
  | some exitJump => do
    let p ← p.checkedPatchJump exitJump
    return p.emit .pop
  | none => return p

def checkedForStatement (p : Parser) : Part Parser := do
  let p ← checkedForLoop inner p.beginScope
  p.checkedEndScope

def checkedStatement (p : Parser) : Part Parser :=
  match p.current.kind with
  | .kwPrint => checkedPrintStatement inner p.advance
  | .kwFor => checkedForStatement inner p.advance
  | .kwIf => checkedIfStatement inner p.advance
  | .kwReturn => checkedReturnStatement inner p.advance
  | .kwWhile => checkedWhileStatement inner p.advance
  | .leftBrace => do
    let p ← checkedBlock inner p.advance.beginScope
    p.checkedEndScope
  | _ => checkedExpressionStatement inner p

/-- A parameter that was counted. -/
def checkedReadParameter (p : Parser) : Part Parser := do
  let p := if maxArguments < p.draft.arity then p.errorAtCurrent .tooManyParameters else p
  let (index, p) ← p.checkedVariableName .parameterName
  return p.defineVariable index

def checkedParameters : Nat → Parser → Part Parser
  | 0, p => .some p
  | fuel + 1, p => do
    let p ← { p with draft := { p.draft with arity := p.draft.arity + 1 } }.checkedReadParameter
    if p.check .comma then checkedParameters fuel p.advance else return p

def checkedCloseFunction (p : Parser) : Part Parser :=
  let (draft, p) := p.endFunction
  let (f, heap) := p.heap.allocFunction draft.arity draft.chunk draft.name
  { p with heap }.checkedEmitConstant (.object (.function f))

def checkedFunction (p : Parser) : Part Parser := do
  let (name, p) := p.intern p.previous.lexeme
  let p := (p.beginFunction name).beginScope.consume .leftParen .parenAfterFunctionName
  let p ← (if p.check .rightParen then pure p else checkedParameters p.total p)
  let p := p.consume .rightParen .parenAfterParameters
  let p := p.consume .leftBrace .braceBeforeBody
  let p ← checkedBlock inner p
  p.checkedCloseFunction

def checkedScript : Nat → Parser → Part Parser
  | 0, p => .some p
  | fuel + 1, p =>
    if p.check .eof then .some p.advance
    else do
      let p ← checkedDeclaration inner p
      checkedScript fuel p

end

end Parser

namespace CheckedLevel

def tooDeep : CheckedLevel where
  statement := fun p => .some p.giveUp
  operand := fun _ p => .some p.giveUp
  function := fun p => .some p.giveUp

/-- The constructs around those of a level; each leaves the scope and the counter as it found them. -/
def counted (accepts : String → Prop) (inner : CheckedLevel) : CheckedLevel where
  statement := Parser.keeping (Parser.checkedNested (Parser.checkedStatement inner))
  operand := fun precedence =>
    Parser.keeping (Parser.checkedNested (Parser.checkedOperand accepts inner precedence))
  function := Parser.keeping (Parser.checkedNested (Parser.checkedFunction inner))

def stack (accepts : String → Prop) (below : CheckedLevel) : Nat → CheckedLevel
  | 0 => below
  | height + 1 => counted accepts (stack accepts below height)

def outermost (accepts : String → Prop) : CheckedLevel := tooDeep.stack accepts (Parser.maxNesting + 1)

end CheckedLevel

/-- `compile`, with everything checked. -/
def checkedCompile (accepts : String → Prop) (source : String) (heap : Heap) :
    Part (Except (List Diagnostic) Fn × Heap) := do
  let p := Parser.start (Scanner.tokens source) heap
  let p ← Parser.checkedScript (CheckedLevel.outermost accepts) p.total p
  return p.conclude

end Lox

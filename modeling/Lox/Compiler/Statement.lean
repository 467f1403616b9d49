import Lox.Compiler.Expression

/-!
# Compiling statements and declarations

A statement is compiled to code that leaves the stack as it was; a declaration in a scope leaves the
value of its variable there.
-/

set_option autoImplicit false

namespace Lox.Parser

/-! ## Simple statements -/

/-- The value to print. -/
def printStatement (inner : Level) (p : Parser) : Parser :=
  ((expression inner p).consume .semicolon .semicolonAfterValue).emit .print

/-- An expression whose value is dropped. -/
def expressionStatement (inner : Level) (p : Parser) : Parser :=
  ((expression inner p).consume .semicolon .semicolonAfterExpression).emit .pop

/-- The value to return, or none. -/
def returnStatement (inner : Level) (p : Parser) : Parser :=
  let p := if p.draft.isScript then p.error .returnFromScript else p
  if p.check .semicolon then p.advance.emitReturn
  else ((expression inner p).consume .semicolon .semicolonAfterReturn).emit .ret

/-! ## Declarations -/

/-- The name and the initializer of a variable. -/
def varDeclaration (inner : Level) (p : Parser) : Parser :=
  let (index, p) := p.variableName .variableName
  let p := if p.check .equal then expression inner p.advance else p.emit .pushNil
  let p := p.consume .semicolon .semicolonAfterVariable
  p.defineVariable index

/-- The name, the parameters and the body of a function. The name counts as initialized before the
body. -/
def funDeclaration (inner : Level) (p : Parser) : Parser :=
  let (index, p) := p.variableName .functionName
  let p := p.markInitialized
  let p := inner.function p
  p.defineVariable index

/-- A declaration or a statement; after a problem, everything up to a statement boundary. -/
def declaration (inner : Level) (p : Parser) : Parser :=
  let p :=
    if p.check .kwFun then funDeclaration inner p.advance
    else if p.check .kwVar then varDeclaration inner p.advance
    else inner.statement p
  if p.recovering then p.synchronize else p

/-- The declarations up to a closing brace, at most `fuel` of them. -/
def declarations (inner : Level) : Nat → Parser → Parser
  | 0, p => p
  | fuel + 1, p =>
    if p.check .rightBrace || p.check .eof then p
    else declarations inner fuel (declaration inner p)

/-- The rest of a block behind its opening brace. -/
def block (inner : Level) (p : Parser) : Parser :=
  (declarations inner p.total p).consume .rightBrace .braceAfterBlock

/-! ## Control flow -/

/-- The condition and the branches of an `if`. -/
def ifStatement (inner : Level) (p : Parser) : Parser :=
  let p := p.consume .leftParen .parenAfterIf
  let p := expression inner p
  let p := p.consume .rightParen .parenAfterCondition
  let (thenJump, p) := p.emitJump .jumpIfFalse
  let p := p.emit .pop
  let p := inner.statement p
  let (elseJump, p) := p.emitJump .jump
  let p := p.patchJump thenJump
  let p := p.emit .pop
  let p := if p.check .kwElse then inner.statement p.advance else p
  p.patchJump elseJump

/-- The condition and the body of a `while`. -/
def whileStatement (inner : Level) (p : Parser) : Parser :=
  let start := p.here
  let p := p.consume .leftParen .parenAfterWhile
  let p := expression inner p
  let p := p.consume .rightParen .parenAfterCondition
  let (exitJump, p) := p.emitJump .jumpIfFalse
  let p := p.emit .pop
  let p := inner.statement p
  let p := p.emitLoop start
  let p := p.patchJump exitJump
  p.emit .pop

/-- The first clause of a `for`, its semicolon included. -/
def forInitializer (inner : Level) (p : Parser) : Parser :=
  if p.check .semicolon then p.advance
  else if p.check .kwVar then varDeclaration inner p.advance
  else expressionStatement inner p

/-- The second clause of a `for`, its semicolon included. Returns the jump out of the loop. -/
def forCondition (inner : Level) (p : Parser) : Option Nat × Parser :=
  if p.check .semicolon then (none, p.advance)
  else
    let p := expression inner p
    let p := p.consume .semicolon .semicolonAfterCondition
    let (exitJump, p) := p.emitJump .jumpIfFalse
    (some exitJump, p.emit .pop)

/-- The third clause of a `for`, the closing parenthesis included. Its code runs after the body, so a
jump leads over it and it leads back to the condition at `start`. Returns where the body leads
back to. -/
def forIncrement (inner : Level) (start : Nat) (p : Parser) : Nat × Parser :=
  if p.check .rightParen then (start, p.advance)
  else
    let (bodyJump, p) := p.emitJump .jump
    let increment := p.here
    let p := expression inner p
    let p := p.emit .pop
    let p := p.consume .rightParen .parenAfterClauses
    let p := p.emitLoop start
    (increment, p.patchJump bodyJump)

/-- The clauses and the body of a `for`. -/
def forStatement (inner : Level) (p : Parser) : Parser :=
  let p := p.beginScope
  let p := p.consume .leftParen .parenAfterFor
  let p := forInitializer inner p
  let start := p.here
  let (exitJump, p) := forCondition inner p
  let (start, p) := forIncrement inner start p
  let p := inner.statement p
  let p := p.emitLoop start
  let p := match exitJump with
    | some exitJump => (p.patchJump exitJump).emit .pop
    | none => p
  p.endScope

/-! ## Levels -/

/-- A statement. -/
def statement (inner : Level) (p : Parser) : Parser :=
  match p.current.kind with
  | .kwPrint => printStatement inner p.advance
  | .kwFor => forStatement inner p.advance
  | .kwIf => ifStatement inner p.advance
  | .kwReturn => returnStatement inner p.advance
  | .kwWhile => whileStatement inner p.advance
  | .leftBrace => (block inner p.advance.beginScope).endScope
  | _ => expressionStatement inner p

/-- The parameters of a function up to the closing parenthesis, at most `fuel` of them. -/
def parameters : Nat → Parser → Parser
  | 0, p => p
  | fuel + 1, p =>
    let p := { p with draft := { p.draft with arity := p.draft.arity + 1 } }
    let p := if maxArguments < p.draft.arity then p.errorAtCurrent .tooManyParameters else p
    let (index, p) := p.variableName .parameterName
    let p := p.defineVariable index
    if p.check .comma then parameters fuel p.advance else p

/-- The parameters and the body of a function whose name was read last. The code of the function
around it gets a constant. The scope of the body is not left: returning drops its locals. -/
def function (inner : Level) (p : Parser) : Parser :=
  let (name, p) := p.intern p.previous.lexeme
  let p := (p.beginFunction name).beginScope
  let p := p.consume .leftParen .parenAfterFunctionName
  let p := if p.check .rightParen then p else parameters p.total p
  let p := p.consume .rightParen .parenAfterParameters
  let p := p.consume .leftBrace .braceBeforeBody
  let p := block inner p
  let (draft, p) := p.endFunction
  let (f, heap) := p.heap.allocFunction draft.arity draft.chunk draft.name
  { p with heap }.emitConstant (.object (.function f))

end Lox.Parser

namespace Lox.Level

/-- Where there is no level left, the compiler gives up. -/
def tooDeep : Level where
  statement := Parser.giveUp
  operand := fun _ => Parser.giveUp
  function := Parser.giveUp

/-- The constructs around those of a level; each counts as one level deeper. -/
def counted (inner : Level) : Level where
  statement := Parser.nested (Parser.statement inner)
  operand := fun precedence => Parser.nested (Parser.operand inner precedence)
  function := Parser.nested (Parser.function inner)

/-- So many levels of constructs over a level. -/
def stack (below : Level) : Nat → Level
  | 0 => below
  | height + 1 => counted (stack below height)

/-- The constructs. There are more levels than the counter counts, so none below them is used. -/
def outermost : Level := tooDeep.stack (Parser.maxNesting + 1)

end Lox.Level

import Lox.Compiler.Precedence
import Lox.Compiler.Variables
import Lox.Number.Notation

/-!
# Compiling expressions

An expression is compiled to code that pushes its value. The code of an operand is written before
the code of the operator behind it; `operand` reads an operand and all operators that bind at least
as tightly as asked.

Constructs nest at most so deep. The functions here take the parsers of the constructs one level
deeper as an argument, and `Level.stack` in `Lox.Compiler.Statement` stacks the levels.
-/

set_option autoImplicit false

namespace Lox

/-- The parsers of the constructs that count as a level of nesting. -/
structure Level where
  statement : Parser → Parser
  /-- Reads an operand and the operators behind it that bind at least so tightly. -/
  operand : Precedence → Parser → Parser
  /-- Reads the parameters and the body of a function whose name was read last. -/
  function : Parser → Parser

namespace Parser

/-- The number of arguments and parameters that a function can have. -/
def maxArguments : Nat := 255

/-- Reads an expression. -/
def expression (inner : Level) (p : Parser) : Parser := inner.operand .assignment p

/-! ## At the start of an expression -/

/-- A variable, or an assignment to it where one may stand. -/
def name (inner : Level) (mayAssign : Bool) (p : Parser) : Parser :=
  let (ref, p) := p.resolve p.previous.lexeme
  if mayAssign && p.check .equal then (expression inner p.advance).emitSet ref
  else p.emitGet ref

/-- An expression between parentheses, of which the first was read. -/
def grouping (inner : Level) (p : Parser) : Parser :=
  (expression inner p).consume .rightParen .parenAfterExpression

/-- An operator in front of its operand. -/
def unary (inner : Level) (p : Parser) : Parser :=
  let operator := p.previous.kind
  let p := inner.operand .unary p
  match operator with
  | .minus => p.emit .negate
  | .bang => p.emit .not
  | _ => p

/-- A number literal. -/
def number (p : Parser) : Parser :=
  let cs := p.previous.lexeme.toList
  let whole := cs.takeWhile Char.isDigit
  let fraction := cs.drop (whole.length + 1)
  p.emitConstant (.number (Number.ofLiteral whole fraction))

/-- A string literal: the text between its quotes. -/
def string (p : Parser) : Parser :=
  let text := String.ofList (p.previous.lexeme.toList.drop 1).dropLast
  let (s, p) := p.intern text
  p.emitConstant (.object (.string s))

/-- The literals that are keywords. -/
def literal (p : Parser) : Parser :=
  match p.previous.kind with
  | .kwFalse => p.emit .pushFalse
  | .kwTrue => p.emit .pushTrue
  | .kwNil => p.emit .pushNil
  | _ => p

/-- Compiles what the token read last starts. -/
def leading (inner : Level) (mayAssign : Bool) (p : Parser) : Leading → Parser
  | .grouping => grouping inner p
  | .unary => unary inner p
  | .name => name inner mayAssign p
  | .string => p.string
  | .number => p.number
  | .literal => p.literal

/-! ## Behind an operand -/

/-- The arguments of a call up to the closing parenthesis, `count` of which were read; at most `fuel`
more. Returns their number. -/
def arguments (inner : Level) : Nat → Nat → Parser → Nat × Parser
  | 0, count, p => (count, p)
  | fuel + 1, count, p =>
    let p := expression inner p
    let p := if count = maxArguments then p.error .tooManyArguments else p
    if p.check .comma then arguments inner fuel (count + 1) p.advance else (count + 1, p)

/-- A call of the operand in front of it. -/
def call (inner : Level) (p : Parser) : Parser :=
  let (count, p) := if p.check .rightParen then (0, p) else arguments inner p.total 0 p
  let p := p.consume .rightParen .parenAfterArguments
  p.emitWith .call (min count maxArguments)

/-- The instructions of a binary operator. What has no instruction of its own is the negation of
what has. -/
def binaryCode : Token.Kind → List Opcode
  | .bangEqual => [.equal, .not]
  | .equalEqual => [.equal]
  | .greater => [.greater]
  | .greaterEqual => [.less, .not]
  | .less => [.less]
  | .lessEqual => [.greater, .not]
  | .plus => [.add]
  | .minus => [.subtract]
  | .star => [.multiply]
  | .slash => [.divide]
  | _ => []

/-- A binary operator with its right operand. -/
def binary (inner : Level) (p : Parser) : Parser :=
  let operator := p.previous.kind
  let p := inner.operand operator.precedence.next p
  (binaryCode operator).foldl emit p

/-- The right operand of `and`, which is skipped when the left one is falsey. -/
def and (inner : Level) (p : Parser) : Parser :=
  let (endJump, p) := p.emitJump .jumpIfFalse
  let p := p.emit .pop
  let p := inner.operand .and p
  p.patchJump endJump

/-- The right operand of `or`, which is skipped when the left one is truthy. -/
def or (inner : Level) (p : Parser) : Parser :=
  let (elseJump, p) := p.emitJump .jumpIfFalse
  let (endJump, p) := p.emitJump .jump
  let p := p.patchJump elseJump
  let p := p.emit .pop
  let p := inner.operand .or p
  p.patchJump endJump

/-- Compiles what the token read last does with the operand in front of it. -/
def trailing (inner : Level) (p : Parser) : Trailing → Parser
  | .call => call inner p
  | .binary => binary inner p
  | .and => and inner p
  | .or => or inner p

/-- The operators behind an operand that bind at least so tightly, at most `fuel` of them. -/
def operators (inner : Level) (precedence : Precedence) : Nat → Parser → Parser
  | 0, p => p
  | fuel + 1, p =>
    if precedence.rank ≤ p.current.kind.precedence.rank then
      let p := p.advance
      let p := match p.previous.kind.trailing? with
        | some rule => trailing inner p rule
        | none => p
      operators inner precedence fuel p
    else p

/-- An operand and the operators behind it that bind at least so tightly. -/
def operand (inner : Level) (precedence : Precedence) (p : Parser) : Parser :=
  let p := p.advance
  match p.previous.kind.leading? with
  | none => p.error .expectedExpression
  | some rule =>
    let mayAssign := precedence.rank ≤ Precedence.assignment.rank
    let p := leading inner mayAssign p rule
    let p := operators inner precedence p.total p
    if mayAssign && p.check .equal then p.advance.error .invalidAssignmentTarget else p

end Parser

end Lox

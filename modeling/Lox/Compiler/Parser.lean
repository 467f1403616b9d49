import Lox.Compiler.Draft
import Lox.Diagnostic
import Lox.Heap
import Lox.Token.Scanner

/-!
# The state of the compiler

The compiler reads tokens with one token of lookahead and writes bytecode as it goes. It keeps going
after a problem: once it has reported one it stays quiet until the next statement boundary, and once
constructs nest too deep it stays quiet for good. A counter says how deep they nest.
-/

set_option autoImplicit false

namespace Lox

/-- How deep statements, operands and function bodies may nest. -/
def Parser.maxNesting : Nat := 256

/-- The state of the compiler. -/
structure Parser where
  /-- The token to be read next. -/
  current : Token
  /-- The token read last. -/
  previous : Token
  /-- The tokens behind the current one. -/
  rest : List Token
  /-- The number of tokens of the source. Every round of a loop reads a token, so no loop has more
  rounds. -/
  total : Nat
  /-- How many constructs are being compiled, each inside the one before it. -/
  depth : Fin (Parser.maxNesting + 1) := 0
  /-- Whether a problem was reported since the last statement boundary. -/
  recovering : Bool := false
  /-- Whether constructs nested too deep. -/
  tooDeep : Bool := false
  diagnostics : Array Diagnostic := #[]
  heap : Heap
  /-- The function being compiled. -/
  draft : Draft
  /-- The functions around it, innermost first. -/
  enclosing : List Draft := []

namespace Parser

/-! ## Problems -/

/-- Reports a problem at a token, unless the compiler is quiet. -/
def report (p : Parser) (token : Token) (problem : Problem) : Parser :=
  if p.recovering || p.tooDeep then p
  else { p with
    recovering := true
    diagnostics := p.diagnostics.push (Diagnostic.ofToken token problem) }

/-- Reports a problem at the token read last. -/
def error (p : Parser) (problem : Problem) : Parser := p.report p.previous problem

/-- Reports a problem at the token to be read next. -/
def errorAtCurrent (p : Parser) (problem : Problem) : Parser := p.report p.current problem

/-! ## Tokens -/

/-- Makes the first token of a list current that is no error token, and reports the error tokens in
front of it. Behind the last token the current token stays. -/
def shift : List Token → Parser → Parser
  | [], p => { p with rest := [] }
  | token :: rest, p =>
    match token.kind with
    | .error cause => shift rest (p.report token (.scan cause))
    | _ => { p with current := token, rest }

/-- Reads a token. -/
def advance (p : Parser) : Parser :=
  let rest := p.rest
  shift rest { p with previous := p.current }

/-- Whether the next token is of a kind. -/
def check (p : Parser) (kind : Token.Kind) : Bool := p.current.kind = kind

/-- Reads a token that must be of a kind. -/
def consume (p : Parser) (kind : Token.Kind) (what : Expected) : Parser :=
  if p.check kind then p.advance else p.errorAtCurrent (.expected what)

/-- What stands in for a token before the first one is read. -/
def placeholder : Token := { kind := .error .unexpectedCharacter, lexeme := "", line := 0 }

/-- A parser that has read nothing. -/
def unread (tokens : List Token) (heap : Heap) : Parser where
  current := placeholder
  previous := placeholder
  rest := tokens
  total := tokens.length
  heap
  draft := { name := none }

/-- A parser in front of the first of some tokens. -/
def start (tokens : List Token) (heap : Heap) : Parser := (unread tokens heap).advance

/-! ## Recovery -/

/-- Whether a token of a kind starts a statement. -/
def startsStatement : Token.Kind → Bool
  | .kwClass | .kwFun | .kwVar | .kwFor | .kwIf | .kwWhile | .kwPrint | .kwReturn => true
  | _ => false

/-- Reads tokens up to a likely statement boundary, at most `fuel` of them. -/
def skipStatement : Nat → Parser → Parser
  | 0, p => p
  | fuel + 1, p =>
    if p.check .eof || p.previous.kind = .semicolon || startsStatement p.current.kind then p
    else skipStatement fuel p.advance

/-- Reads on to a likely statement boundary, and reports problems again. -/
def synchronize (p : Parser) : Parser :=
  skipStatement p.total { p with recovering := false }

/-- Reads all tokens up to the end, at most `fuel` of them. -/
def skipToEnd : Nat → Parser → Parser
  | 0, p => p
  | fuel + 1, p => if p.check .eof then p else skipToEnd fuel p.advance

/-- Gives up on a construct that is nested too deep, and on the rest of the source. -/
def giveUp (p : Parser) : Parser :=
  let p := p.errorAtCurrent .nestingTooDeep
  skipToEnd p.total { p with tooDeep := true }

/-- Compiles a construct one level deeper; where that would be too deep, gives up. -/
def nested (construct : Parser → Parser) (p : Parser) : Parser :=
  if h : p.depth < maxNesting then
    let p := construct { p with depth := ⟨p.depth + 1, Nat.succ_lt_succ h⟩ }
    { p with depth := ⟨p.depth - 1, Nat.sub_lt_of_lt p.depth.isLt⟩ }
  else p.giveUp

end Parser

end Lox

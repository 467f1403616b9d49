import Lox.Token

/-!
# Diagnostics

What the compiler reports about a source text: a line, where on the line, and the problem. The
wording of every problem is in `Problem.message`.
-/

set_option autoImplicit false

namespace Lox

/-- The token that a construct needs at a place. -/
inductive Expected where
  | functionName | variableName | parameterName
  | parenAfterFunctionName | parenAfterParameters | braceBeforeBody | braceAfterBlock
  | semicolonAfterVariable | semicolonAfterValue | semicolonAfterExpression
  | semicolonAfterReturn | semicolonAfterCondition
  | parenAfterIf | parenAfterWhile | parenAfterFor
  | parenAfterCondition | parenAfterClauses | parenAfterExpression | parenAfterArguments
deriving DecidableEq, Repr

/-- The text of a missing token. -/
def Expected.message : Expected → String
  | functionName => "Expect function name."
  | variableName => "Expect variable name."
  | parameterName => "Expect parameter name."
  | parenAfterFunctionName => "Expect '(' after function name."
  | parenAfterParameters => "Expect ')' after parameters."
  | braceBeforeBody => r"Expect '{' before function body."
  | braceAfterBlock => r"Expect '}' after block."
  | semicolonAfterVariable => "Expect ';' after variable declaration."
  | semicolonAfterValue => "Expect ';' after value."
  | semicolonAfterExpression => "Expect ';' after expression."
  | semicolonAfterReturn => "Expect ';' after return value."
  | semicolonAfterCondition => "Expect ';' after loop condition."
  | parenAfterIf => "Expect '(' after 'if'."
  | parenAfterWhile => "Expect '(' after 'while'."
  | parenAfterFor => "Expect '(' after 'for'."
  | parenAfterCondition => "Expect ')' after condition."
  | parenAfterClauses => "Expect ')' after for clauses."
  | parenAfterExpression => "Expect ')' after expression."
  | parenAfterArguments => "Expect ')' after arguments."

/-- What is wrong with a source text. -/
inductive Problem where
  | scan (cause : ScanError)
  | expected (what : Expected)
  | expectedExpression
  | invalidAssignmentTarget
  | duplicateLocal
  | ownInitializer
  | returnFromScript
  | nestingTooDeep
  | tooManyConstants
  | tooManyLocals
  | tooManyParameters
  | tooManyArguments
  | jumpTooFar
  | loopTooLarge
deriving DecidableEq, Repr

/-- The text of a problem. -/
def Problem.message : Problem → String
  | scan cause => cause.message
  | expected what => what.message
  | expectedExpression => "Expect expression."
  | invalidAssignmentTarget => "Invalid assignment target."
  | duplicateLocal => "Already a variable with this name in this scope."
  | ownInitializer => "Can't read local variable in its own initializer."
  | returnFromScript => "Can't return from top-level code."
  | nestingTooDeep => "Nesting too deep."
  | tooManyConstants => "Too many constants in one chunk."
  | tooManyLocals => "Too many local variables in function."
  | tooManyParameters => "Can't have more than 255 parameters."
  | tooManyArguments => "Can't have more than 255 arguments."
  | jumpTooFar => "Too much code to jump over."
  | loopTooLarge => "Loop body too large."

/-- Where on its line a problem was found. -/
inductive Location where
  /-- At a token with this text. -/
  | lexeme (text : String)
  /-- At the end of the source. -/
  | sourceEnd
  /-- Somewhere on the line: the text there is no token. -/
  | unplaced
deriving DecidableEq, Repr

/-- The place of a token on its line. -/
def Location.ofToken (token : Token) : Location :=
  match token.kind with
  | .eof => sourceEnd
  | .error _ => unplaced
  | _ => lexeme token.lexeme

/-- One report of the compiler. -/
structure Diagnostic where
  line : Nat
  location : Location
  problem : Problem
deriving DecidableEq, Repr

namespace Diagnostic

/-- A problem found at a token. -/
def ofToken (token : Token) (problem : Problem) : Diagnostic :=
  { line := token.line, location := Location.ofToken token, problem }

/-- The text of a diagnostic. -/
def text (d : Diagnostic) : String :=
  let place := match d.location with
    | .lexeme text => " at '" ++ text ++ "'"
    | .sourceEnd => " at end"
    | .unplaced => ""
  "[line " ++ toString d.line ++ "] Error" ++ place ++ ": " ++ d.problem.message

/-- The text of several diagnostics, one a line. -/
def textOfAll (ds : List Diagnostic) : String :=
  "\n".intercalate (ds.map text)

end Diagnostic

end Lox

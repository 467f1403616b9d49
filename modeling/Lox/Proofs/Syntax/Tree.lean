import Lox.Compiler.Precedence
import Mathlib

/-!
# Syntax trees

The trees of expressions and statements. A tree carries what its meaning and its bytecode depend on:
names, literals, and the lines of those tokens that stand behind or between its parts. A function is
told apart from others by its place, the number of tokens that stand behind its declaration.
-/

set_option autoImplicit false

namespace Lox

/-- The operators in front of an operand. -/
inductive UnaryOperator where
  | negate | not
deriving DecidableEq, Repr

/-- The operators between two operands that are both evaluated. -/
inductive BinaryOperator where
  | equal | notEqual | greater | greaterEqual | less | lessEqual | add | subtract | multiply | divide
deriving DecidableEq, Repr

/-- An expression. -/
inductive Expr where
  | nil (line : Nat)
  | bool (b : Bool) (line : Nat)
  | number (x : Float) (line : Nat)
  | string (text : String) (line : Nat)
  | name (name : String) (line : Nat)
  | assign (name : String) (value : Expr)
  | group (inner : Expr) (line : Nat)
  | unary (op : UnaryOperator) (operand : Expr)
  | binary (op : BinaryOperator) (left right : Expr)
  | and (left right : Expr) (line : Nat)
  | or (left right : Expr) (line : Nat)
  | call (callee : Expr) (arguments : List Expr) (line : Nat)

/-- The declaration of a variable: the name, its line, the initial value, and the line of the
semicolon. -/
structure Variable where
  name : String
  nameLine : Nat
  value : Option Expr
  line : Nat

/-- The first clause of a `for`. -/
inductive Initializer where
  | none
  | var (v : Variable)
  | expression (e : Expr) (line : Nat)

/-- A statement or a declaration. -/
inductive Stmt where
  | expression (e : Expr) (line : Nat)
  | print (e : Expr) (line : Nat)
  | var (v : Variable)
  | function (place : Nat) (name : String) (parameters : List String) (body : List Stmt)
    (line : Nat)
  | block (body : List Stmt) (line : Nat)
  | ifThen (condition : Expr) (line : Nat) (body : Stmt)
  | ifElse (condition : Expr) (line : Nat) (body other : Stmt)
  | whileLoop (condition : Expr) (line : Nat) (body : Stmt)
  | forLoop (first : Initializer) (condition : Option Expr) (semicolonLine : Nat)
    (increment : Option Expr) (parenLine : Nat) (body : Stmt)
  | ret (value : Option Expr) (line : Nat)

/-- What is compiled to one function: a declared function, or a script, which has no name. The line is
that of its last token. -/
structure Routine where
  place : Nat
  name : Option String
  parameters : List String
  body : List Stmt
  line : Nat

/-- The script of some declarations. No token stands behind it. -/
def Routine.script (body : List Stmt) (line : Nat) : Routine :=
  { place := 0, name := none, parameters := [], body, line }

namespace Expr

/-- The line of the last token of an expression. -/
def endLine : Expr → Nat
  | nil line | bool _ line | number _ line | string _ line | name _ line | group _ line
  | call _ _ line => line
  | assign _ value => value.endLine
  | unary _ operand => operand.endLine
  | binary _ _ right | and _ right _ | or _ right _ => right.endLine

mutual
/-- How many levels of operands an expression takes, itself included. An operand in front of its
operator is on the same level as the whole. -/
def nesting : Expr → Nat
  | nil _ | bool _ _ | number _ _ | string _ _ | name _ _ => 1
  | assign _ value => 1 + value.nesting
  | group inner _ => 1 + inner.nesting
  | unary _ operand => 1 + operand.nesting
  | binary _ left right | and left right _ | or left right _ => max left.nesting (1 + right.nesting)
  | call callee arguments _ => max callee.nesting (1 + nestingOfAll arguments)

/-- How many levels the deepest of some expressions takes. -/
def nestingOfAll : List Expr → Nat
  | [] => 0
  | e :: es => max e.nesting (nestingOfAll es)
end

/-- How many levels an expression takes that may be missing. -/
def nesting? : Option Expr → Nat
  | none => 0
  | some e => e.nesting

end Expr

namespace Initializer

/-- How many levels a first clause takes. -/
def nesting : Initializer → Nat
  | none => 0
  | var v => Expr.nesting? v.value
  | expression e _ => e.nesting

end Initializer

namespace Stmt

/-- The line of the last token of a statement. -/
def endLine : Stmt → Nat
  | expression _ line | print _ line | function _ _ _ _ line | block _ line | ret _ line => line
  | var v => v.line
  | ifThen _ _ body => body.endLine
  | ifElse _ _ _ other => other.endLine
  | whileLoop _ _ body | forLoop _ _ _ _ _ body => body.endLine

mutual
/-- How many levels of statements, operands and function bodies a statement takes. A declaration is on
no level of its own. -/
def nesting : Stmt → Nat
  | expression e _ | print e _ => 1 + e.nesting
  | var v => Expr.nesting? v.value
  | function _ _ _ body _ => 1 + nestingOfAll body
  | block body _ => 1 + nestingOfAll body
  | ifThen condition _ body => 1 + max condition.nesting body.nesting
  | ifElse condition _ body other =>
    1 + max condition.nesting (max body.nesting other.nesting)
  | whileLoop condition _ body => 1 + max condition.nesting body.nesting
  | forLoop first condition _ increment _ body =>
    1 + max first.nesting
      (max (Expr.nesting? condition) (max (Expr.nesting? increment) body.nesting))
  | ret value _ => 1 + Expr.nesting? value

/-- How many levels the deepest of some declarations takes. -/
def nestingOfAll : List Stmt → Nat
  | [] => 0
  | s :: ss => max s.nesting (nestingOfAll ss)
end

/-- Whether a statement declares a variable or a function. -/
def declares : Stmt → Bool
  | var _ | function _ _ _ _ _ => true
  | _ => false

end Stmt

end Lox

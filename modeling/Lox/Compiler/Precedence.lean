import Lox.Token

/-!
# Precedence

How tightly an operator binds, and what a token means at the start of an expression and behind an
operand.
-/

set_option autoImplicit false

namespace Lox

/-- How tightly an operator binds, from loosest to tightest. -/
inductive Precedence where
  | none | assignment | or | and | equality | comparison | term | factor | unary | call | primary
deriving DecidableEq, Repr

namespace Precedence

/-- The position in the order of tightness. -/
def rank (p : Precedence) : Nat := p.ctorIdx

/-- One step tighter: how the right operand of an operator that groups to the left is parsed. -/
def next : Precedence → Precedence
  | none => assignment
  | assignment => or
  | or => and
  | and => equality
  | equality => comparison
  | comparison => term
  | term => factor
  | factor => unary
  | unary => call
  | call | primary => primary

end Precedence

/-- What a token means at the start of an expression. -/
inductive Leading where
  | grouping | unary | name | string | number | literal
deriving DecidableEq, Repr

/-- What a token means behind an operand. -/
inductive Trailing where
  | call | binary | and | or
deriving DecidableEq, Repr

namespace Token.Kind

/-- What a token of a kind means at the start of an expression. -/
def leading? : Kind → Option Leading
  | leftParen => some .grouping
  | minus | bang => some .unary
  | identifier => some .name
  | string => some .string
  | number => some .number
  | kwFalse | kwTrue | kwNil => some .literal
  | _ => none

/-- What a token of a kind means behind an operand. -/
def trailing? : Kind → Option Trailing
  | leftParen => some .call
  | minus | plus | slash | star | bangEqual | equalEqual | greater | greaterEqual | less
  | lessEqual => some .binary
  | kwAnd => some .and
  | kwOr => some .or
  | _ => none

/-- How tightly a token of a kind binds behind an operand. -/
def precedence : Kind → Precedence
  | leftParen => .call
  | slash | star => .factor
  | minus | plus => .term
  | greater | greaterEqual | less | lessEqual => .comparison
  | bangEqual | equalEqual => .equality
  | kwAnd => .and
  | kwOr => .or
  | _ => .none

end Token.Kind

end Lox

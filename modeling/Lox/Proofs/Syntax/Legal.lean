import Lox.Compiler.Statement
import Lox.Proofs.Syntax.Code

/-!
# Static rules

A tree is legal in a scope when it breaks none of the rules that the grammar does not say: no two
locals of one name in a scope, no use of a local in its own initial value, a return only in a
function, and the limits on arguments, parameters, local slots, constants and the distances of
jumps.
-/

set_option autoImplicit false

namespace Lox

open Lox.Parser (maxArguments maxConstants maxDistance maxLocals maxNesting)

namespace Scope

/-- A name refers to no local whose initial value is still being computed. -/
def Usable (ls : List Local) (name : String) : Prop :=
  ∀ n l, Draft.resolve? name ls = some (n, l) → l.initialized = true

/-- A variable may be declared: outside of all scopes always, else when the innermost scope has no
local of this name and a slot is left. -/
def MayDeclare (sc : Scope) (name : String) : Prop :=
  sc.depth = 0 ∨ (∀ l ∈ sc.locals, l.depth = sc.depth → l.name ≠ name) ∧
    sc.locals.length < maxLocals

end Scope

namespace Expr

mutual
/-- An expression is legal among some locals. -/
def Legal (ls : List Local) (k : List Const) : Expr → Prop
  | nil _ | bool _ _ | number _ _ | string _ _ => True
  | name n _ => Scope.Usable ls n
  | assign n value => Scope.Usable ls n ∧ value.Legal ls (Referent.pool ls k n)
  | group inner _ => inner.Legal ls k
  | unary _ operand => operand.Legal ls k
  | binary _ left right => left.Legal ls k ∧ right.Legal ls (left.pool ls k)
  | and left right _ | or left right _ =>
    left.Legal ls k ∧ right.Legal ls (left.pool ls k) ∧
      1 + (right.code ls (left.pool ls k)).size ≤ maxDistance
  | call callee arguments _ =>
    callee.Legal ls k ∧ LegalList ls (callee.pool ls k) arguments ∧
      arguments.length ≤ maxArguments

/-- Some expressions are legal. -/
def LegalList (ls : List Local) (k : List Const) : List Expr → Prop
  | [] => True
  | e :: es => e.Legal ls k ∧ LegalList ls (e.pool ls k) es
end

/-- An expression that may be missing is legal. -/
def Legal? (ls : List Local) (k : List Const) : Option Expr → Prop
  | none => True
  | some e => e.Legal ls k

end Expr

/-- The declaration of a variable is legal. -/
def Variable.Legal (v : Variable) (sc : Scope) (k : List Const) : Prop :=
  sc.MayDeclare v.name ∧ Expr.Legal? (sc.declaring v.name).locals (sc.pool k v.name) v.value

/-- A first clause is legal. -/
def Initializer.Legal (sc : Scope) (k : List Const) : Initializer → Prop
  | none => True
  | var v => v.Legal sc k
  | expression e _ => e.Legal sc.locals k

namespace Stmt

/-- The jumps of a loop fit in their instructions. -/
structure LoopFits (condition : Option Code) (increment : Option (Code × Nat)) (body : Code) :
    Prop where
  exit : condition.isSome → (stepCode (testSize condition) 0 0 increment).size + body.size + 4 ≤
    maxDistance
  step : ∀ c line, increment = some (c, line) → testSize condition + c.size + 7 ≤ maxDistance
  back : backDistance (testSize condition) body.size increment ≤ maxDistance

mutual
/-- A statement or a declaration is legal in a scope of a function or of a script. -/
def Legal (inFunction : Bool) (sc : Scope) (k : List Const) : Stmt → Prop
  | expression e _ | print e _ => e.Legal sc.locals k
  | var v => v.Legal sc k
  | function _ name parameters body _ =>
    sc.MayDeclare name ∧ parameters.length ≤ maxArguments ∧ parameters.Nodup ∧
      LegalList true (.function parameters) [] body ∧
      (poolOfAll (.function parameters) [] body).length ≤ maxConstants
  | block body _ => LegalList inFunction sc.enter k body
  | ifThen condition _ body =>
    condition.Legal sc.locals k ∧ body.Legal inFunction sc (condition.pool sc.locals k) ∧
      (body.code sc (condition.pool sc.locals k)).size + 4 ≤ maxDistance
  | ifElse condition _ body other =>
    let k' := condition.pool sc.locals k
    condition.Legal sc.locals k ∧ body.Legal inFunction sc k' ∧
      other.Legal inFunction sc (body.pool sc k') ∧ (body.code sc k').size + 4 ≤ maxDistance ∧
      1 + (other.code sc (body.pool sc k')).size ≤ maxDistance
  | whileLoop condition _ body =>
    let k' := condition.pool sc.locals k
    condition.Legal sc.locals k ∧ body.Legal inFunction sc k' ∧
      (condition.code sc.locals k).size + (body.code sc k').size + 7 ≤ maxDistance
  | forLoop first condition _ increment _ body =>
    let inner := first.scope sc.enter
    let k₁ := first.pool sc.enter k
    let k₂ := Expr.pool? inner.locals k₁ condition
    let k₃ := Expr.pool? inner.locals k₂ increment
    first.Legal sc.enter k ∧ Expr.Legal? inner.locals k₁ condition ∧
      Expr.Legal? inner.locals k₂ increment ∧ body.Legal inFunction inner k₃ ∧
      LoopFits (condition.map fun e => e.code inner.locals k₁)
        (increment.map fun e => (e.code inner.locals k₂, e.endLine)) (body.code inner k₃)
  | ret value _ => inFunction = true ∧ Expr.Legal? sc.locals k value

/-- Some declarations are legal. -/
def LegalList (inFunction : Bool) (sc : Scope) (k : List Const) : List Stmt → Prop
  | [] => True
  | s :: ss => s.Legal inFunction sc k ∧ LegalList inFunction (s.scope sc) (s.pool sc k) ss
end

end Stmt

/-- A routine is legal: its declarations are, its parameters differ and are not too many, and its
constants fit. -/
structure Routine.Legal (r : Routine) : Prop where
  body : Stmt.LegalList r.name.isSome r.scope [] r.body
  parameters : r.parameters.length ≤ maxArguments
  distinct : r.parameters.Nodup
  constants : r.pool.length ≤ maxConstants

end Lox

import Lox.Machine.Fault
import Lox.Number.Notation
import Lox.Proofs.Syntax.Tree
import Lox.Value

/-!
# What programs mean

An evaluator of syntax trees. A name means the variable of the innermost scope that has it, among the
scopes that are open in the current call, and else a global; a function sees no scope but its own. Calls
and the rounds of loops are counted by a clock, so that evaluation always comes to an end: it times out
for every clock exactly when the program runs forever.
-/

set_option autoImplicit false

namespace Lox

/-! ## Data -/

/-- A value as a program sees it. Two functions are the same if they were declared at one place. -/
inductive Datum where
  | nil
  | bool (b : Bool)
  | number (x : Float)
  | string (text : String)
  | function (r : Routine)
  | native (n : Native)

namespace Datum

/-- Nil and false are falsey, every other datum is truthy. -/
def isFalsey : Datum → Bool
  | nil => true
  | bool b => !b
  | _ => false

/-- Equality: numbers as numbers, strings by their text. -/
def equal : Datum → Datum → Bool
  | nil, nil => true
  | bool a, bool b => a == b
  | number a, number b => a == b
  | string a, string b => a == b
  | function a, function b => a.place == b.place
  | native a, native b => a.id == b.id
  | _, _ => false

/-- The printed text. -/
def text : Datum → String
  | nil => "nil"
  | bool b => if b then "true" else "false"
  | number x => Number.text x
  | string text => text
  | function r =>
    match r.name with
    | some name => "<fn " ++ name ++ ">"
    | none => "<script>"
  | native _ => "<native fn>"

end Datum

/-! ## Variables -/

/-- Some variables, newest first. -/
abbrev Variables := List (String × Datum)

/-- Some variables with another value for the newest one of a name. -/
def Variables.assign? (name : String) (d : Datum) : Variables → Option Variables
  | [] => none
  | v :: vs => if v.1 = name then some ((name, d) :: vs) else (assign? name d vs).map (v :: ·)

/-- The variables of the scopes that are open in a call, innermost scope first. -/
abbrev Environment := List Variables

namespace Environment

/-- The value of the variable that a name means. -/
def get? (env : Environment) (name : String) : Option Datum := env.findSome? (·.lookup name)

/-- The scopes with another value for the variable that a name means. -/
def set? (name : String) (d : Datum) : Environment → Option Environment
  | [] => none
  | vs :: env =>
    match vs.assign? name d with
    | some vs => some (vs :: env)
    | none => (set? name d env).map (vs :: ·)

end Environment

/-! ## Computations -/

/-- What a program has come to. -/
structure State where
  scopes : Environment := []
  /-- The names of the functions that are being called, innermost first; a script has none. -/
  calls : List (Option String) := [none]
  globals : String → Option Datum := fun _ => none
  printed : String := ""

/-- Why an evaluation stops before its end. -/
inductive Stop where
  | fault (fault : Fault)
  | timeout

/-- A computation of a program. What it did before it was stopped is not undone. -/
abbrev Eval := EStateM Stop State

/-- How a statement ends. -/
inductive Completion where
  | normal
  | returned (d : Datum)

/-- What a call with this end gives. -/
def Completion.result : Completion → Datum
  | normal => .nil
  | returned d => d

namespace Eval

def fail {α : Type} (fault : Fault) : Eval α := throw (.fault fault)

def readVariable (name : String) : Eval Datum := do
  let s ← get
  match s.scopes.get? name with
  | some d => pure d
  | none =>
    match s.globals name with
    | some d => pure d
    | none => fail (.undefinedVariable name)

/-- Assigns to a variable. Assignment defines no global. -/
def writeVariable (name : String) (d : Datum) : Eval Unit := do
  let s ← get
  match s.scopes.set? name d with
  | some scopes => set { s with scopes }
  | none =>
    match s.globals name with
    | some _ => set { s with globals := Function.update s.globals name (some d) }
    | none => fail (.undefinedVariable name)

theorem readVariable_eq (name : String) (s : State) : readVariable name s =
    match s.scopes.get? name with
    | some d => .ok d s
    | none =>
      match s.globals name with
      | some d => .ok d s
      | none => .error (.fault (.undefinedVariable name)) s := by
  change (match s.scopes.get? name with
    | some d => pure d
    | none =>
      match s.globals name with
      | some d => pure d
      | none => fail (.undefinedVariable name) : Eval Datum) s = _
  cases s.scopes.get? name <;> cases s.globals name <;> rfl

theorem writeVariable_eq (name : String) (d : Datum) (s : State) : writeVariable name d s =
    match s.scopes.set? name d with
    | some scopes => .ok () { s with scopes }
    | none =>
      match s.globals name with
      | some _ => .ok () { s with globals := Function.update s.globals name (some d) }
      | none => .error (.fault (.undefinedVariable name)) s := by
  change (match s.scopes.set? name d with
    | some scopes => set ({ s with scopes } : State)
    | none =>
      match s.globals name with
      | some _ => set { s with globals := Function.update s.globals name (some d) }
      | none => fail (.undefinedVariable name) : Eval Unit) s = _
  cases s.scopes.set? name d <;> cases s.globals name <;> rfl

/-- Declares a variable in the innermost scope; outside of all scopes it is a global. -/
def declareVariable (name : String) (d : Datum) : Eval Unit := do
  let s ← get
  match s.scopes with
  | [] => set { s with globals := Function.update s.globals name (some d) }
  | vs :: env => set { s with scopes := ((name, d) :: vs) :: env }

def printLine (text : String) : Eval Unit :=
  modify fun s => { s with printed := s.printed ++ text ++ "\n" }

def enterScope : Eval Unit := modify fun s => { s with scopes := [] :: s.scopes }

def leaveScope : Eval Unit := modify fun s => { s with scopes := s.scopes.tail }

/-- One after the other, unless the first one returns. -/
def andThen (x y : Eval Completion) : Eval Completion := do
  match ← x with
  | .normal => y
  | .returned d => pure (.returned d)

/-- Goes on normally, and leaves the scope. -/
def leaving : Eval Completion := do
  leaveScope
  pure .normal

/-- At most so many rounds of a loop. -/
def rounds (test : Eval Bool) (body : Eval Completion) (step : Eval Unit) : Nat → Eval Completion
  | 0 => throw .timeout
  | n + 1 => do
    if ← test then
      andThen body do
        step
        rounds test body step n
    else pure .normal

/-- An operation on two numbers. -/
def arithmetic (f : Float → Float → Datum) : Datum → Datum → Eval Datum
  | .number a, .number b => pure (f a b)
  | _, _ => fail .notNumbers

/-- The sum of two numbers, or two strings joined. -/
def add : Datum → Datum → Eval Datum
  | .number a, .number b => pure (.number (a + b))
  | .string a, .string b => pure (.string (a ++ b))
  | _, _ => fail .notAddable

end Eval

open Eval

/-! ## Expressions -/

def UnaryOperator.apply : UnaryOperator → Datum → Eval Datum
  | not, d => pure (.bool d.isFalsey)
  | negate, .number x => pure (.number (-x))
  | negate, _ => fail .notNumber

def BinaryOperator.apply (a b : Datum) : BinaryOperator → Eval Datum
  | equal => pure (.bool (a.equal b))
  | notEqual => pure (.bool (!a.equal b))
  | greater => arithmetic (fun x y => .bool (x > y)) a b
  | greaterEqual => arithmetic (fun x y => .bool (!(x < y))) a b
  | less => arithmetic (fun x y => .bool (x < y)) a b
  | lessEqual => arithmetic (fun x y => .bool (!(x > y))) a b
  | add => Eval.add a b
  | subtract => arithmetic (fun x y => .number (x - y)) a b
  | multiply => arithmetic (fun x y => .number (x * y)) a b
  | divide => arithmetic (fun x y => .number (x / y)) a b

namespace Expr

mutual
/-- The value of an expression. -/
def eval (call : Datum → List Datum → Eval Datum) : Expr → Eval Datum
  | nil _ => pure .nil
  | bool b _ => pure (.bool b)
  | number x _ => pure (.number x)
  | string text _ => pure (.string text)
  | name n _ => readVariable n
  | assign n value => do
    let d ← value.eval call
    writeVariable n d
    pure d
  | group inner _ => inner.eval call
  | unary op operand => do
    let d ← operand.eval call
    op.apply d
  | binary op left right => do
    let a ← left.eval call
    let b ← right.eval call
    op.apply a b
  | and left right _ => do
    let d ← left.eval call
    if d.isFalsey then pure d else right.eval call
  | or left right _ => do
    let d ← left.eval call
    if d.isFalsey then right.eval call else pure d
  | Expr.call callee arguments _ => do
    let f ← callee.eval call
    let ds ← evalAll call arguments
    call f ds

/-- The values of some expressions, evaluated in order. -/
def evalAll (call : Datum → List Datum → Eval Datum) : List Expr → Eval (List Datum)
  | [] => pure []
  | e :: es => do
    let d ← e.eval call
    let ds ← evalAll call es
    pure (d :: ds)
end

/-- Whether a condition holds; it does when there is none. -/
def holds (call : Datum → List Datum → Eval Datum) : Option Expr → Eval Bool
  | none => pure true
  | some e => do
    let d ← e.eval call
    pure (!d.isFalsey)

/-- Evaluates an expression, if there is one, for its effects. -/
def perform (call : Datum → List Datum → Eval Datum) : Option Expr → Eval Unit
  | none => pure ()
  | some e => do
    let _ ← e.eval call
    pure ()

end Expr

/-! ## Statements -/

/-- Declares a variable with its initial value, nil when it has none. -/
def Variable.exec (call : Datum → List Datum → Eval Datum) (v : Variable) : Eval Unit :=
  match v.value with
  | none => declareVariable v.name .nil
  | some e => do
    let d ← e.eval call
    declareVariable v.name d

def Initializer.exec (call : Datum → List Datum → Eval Datum) : Initializer → Eval Unit
  | none => pure ()
  | var v => v.exec call
  | expression e _ => Expr.perform call (some e)

namespace Stmt

mutual
/-- Executes a statement; a loop takes at most so many rounds. -/
def exec (call : Datum → List Datum → Eval Datum) (clock : Nat) : Stmt → Eval Completion
  | expression e _ => do
    let _ ← e.eval call
    pure .normal
  | print e _ => do
    let d ← e.eval call
    printLine d.text
    pure .normal
  | var v => do
    v.exec call
    pure .normal
  | function place name parameters body line => do
    declareVariable name (.function ⟨place, some name, parameters, body, line⟩)
    pure .normal
  | block body _ => do
    enterScope
    andThen (execAll call clock body) leaving
  | ifThen condition _ body => do
    let d ← condition.eval call
    if d.isFalsey then pure .normal else body.exec call clock
  | ifElse condition _ body other => do
    let d ← condition.eval call
    if d.isFalsey then other.exec call clock else body.exec call clock
  | whileLoop condition _ body =>
    rounds (Expr.holds call (some condition)) (body.exec call clock) (Expr.perform call none) clock
  | forLoop first condition _ increment _ body => do
    enterScope
    first.exec call
    andThen (rounds (Expr.holds call condition) (body.exec call clock)
      (Expr.perform call increment) clock) leaving
  | ret none _ => pure (.returned .nil)
  | ret (some e) _ => do
    let d ← e.eval call
    pure (.returned d)

/-- Executes some declarations, one after the other. -/
def execAll (call : Datum → List Datum → Eval Datum) (clock : Nat) : List Stmt → Eval Completion
  | [] => pure .normal
  | s :: ss => andThen (s.exec call clock) (execAll call clock ss)
end

end Stmt

/-! ## Calls -/

/-- The number of calls that may be in progress at once, that of the script included. -/
def maxCalls : Nat := 64

/-- The scopes that a routine starts with: a function has one with its parameters, a script none. -/
def Routine.scopes (r : Routine) (ds : List Datum) : Environment :=
  if r.name.isSome then [(r.parameters.zip ds).reverse] else []

/-- Executes the body of a function in a call of its own. -/
def Eval.inCall (name : Option String) (scopes : Environment) (body : Eval Completion) :
    Eval Datum := do
  let caller ← get
  if maxCalls ≤ caller.calls.length then fail .stackOverflow
  else do
    set { caller with scopes, calls := name :: caller.calls }
    let c ← body
    modify fun s => { s with scopes := caller.scopes, calls := caller.calls }
    pure c.result

theorem Eval.inCall_eq (name : Option String) (scopes : Environment) (body : Eval Completion) (s : State) :
    inCall name scopes body s =
      if maxCalls ≤ s.calls.length then .error (.fault .stackOverflow) s
      else (body >>= fun c => do
        modify fun s' => { s' with scopes := s.scopes, calls := s.calls }
        pure c.result) { s with scopes, calls := name :: s.calls } := by
  change (if maxCalls ≤ s.calls.length then fail .stackOverflow else _ : Eval Datum) s = _
  split <;> rfl

/-- Calls a datum. A native function computes what the host says. -/
def Datum.call (host : Native → List Datum → Datum) : Nat → Datum → List Datum → Eval Datum
  | 0, _, _ => throw .timeout
  | clock + 1, .function r, ds =>
    if ds.length ≠ r.parameters.length then fail (.wrongArity r.parameters.length ds.length)
    else inCall r.name (r.scopes ds) (Stmt.execAll (Datum.call host clock) clock r.body)
  | _ + 1, .native n, ds =>
    if ds.length ≠ n.arity then fail (.wrongArity n.arity ds.length) else pure (host n ds)
  | _ + 1, _, _ => fail .notCallable

/-- What came of the evaluation of a script. -/
abbrev Evaluated := EStateM.Result Stop State Completion

namespace Evaluated

/-- The state that it ended in. -/
def state : Evaluated → State
  | .ok _ s | .error _ s => s

/-- It came to an end before its clock ran out. -/
def Ended : Evaluated → Prop
  | .error .timeout _ => False
  | _ => True

end Evaluated

/-- Evaluates a script. -/
def Routine.evaluate (host : Native → List Datum → Datum) (clock : Nat) (r : Routine) (s : State) :
    Evaluated :=
  Stmt.execAll (Datum.call host clock) clock r.body s

end Lox

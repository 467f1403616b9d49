import Lox.Bytecode.Instruction
import Lox.Compiler.Draft
import Lox.Proofs.Syntax.Tree

/-!
# Code of trees

The bytecode of a tree, by recursion on it. Code depends on the local variables in scope, which say
what a name refers to, and on the constants that the function has so far: `code` gives the
instructions of a construct, and `pool` the constants after it. A jump is written with the size of
the code that it leads over.
-/

set_option autoImplicit false

namespace Lox

/-- The number of bytes of an instruction. -/
def Instruction.size (i : Instruction) : Nat := 1 + i.op.operandSize

theorem Instruction.size_pos (i : Instruction) : 0 < i.size := Nat.add_pos_left Nat.one_pos _

theorem Instruction.length_encode (i : Instruction) : i.encode.length = i.size := by
  obtain ⟨o, n⟩ := i
  cases o <;> rfl

/-- The operand of an instruction fits in its bytes. -/
def Instruction.Fits (i : Instruction) : Prop := i.operand < 256 ^ i.op.operandSize

theorem Instruction.fits_op (op : Opcode) : Instruction.Fits ⟨op, 0⟩ := Nat.pow_pos (by decide)

/-- Instructions with their source lines. -/
abbrev Code := List (Instruction × Nat)

namespace Code

/-- The number of bytes of some code. -/
def size (c : Code) : Nat := (c.map fun i => i.1.size).sum

/-- The bytes of some code. -/
def bytes (c : Code) : List UInt8 := c.flatMap fun i => i.1.encode

/-- The source line of each byte of some code. -/
def lines (c : Code) : List Nat := c.flatMap fun i => List.replicate i.1.size i.2

/-- An instruction with an operand. -/
def one (op : Opcode) (operand line : Nat) : Code := [(⟨op, operand⟩, line)]

/-- An instruction without an operand. -/
def op (op : Opcode) (line : Nat) : Code := one op 0 line

/-! ## Sizes -/

@[simp] theorem size_nil : size [] = 0 := rfl

theorem size_cons (i : Instruction × Nat) (c : Code) : size (i :: c) = i.1.size + size c := rfl

@[simp] theorem size_append (c c' : Code) : size (c ++ c') = size c + size c' := by simp [size]

@[simp] theorem size_one (o : Opcode) (n line : Nat) : (one o n line).size = 1 + o.operandSize := by
  simp [size, one, Instruction.size]

@[simp] theorem size_op (o : Opcode) (line : Nat) : (op o line).size = 1 + o.operandSize :=
  size_one ..

@[simp] theorem bytes_append (c c' : Code) : bytes (c ++ c') = bytes c ++ bytes c' := by
  simp [bytes]

@[simp] theorem lines_append (c c' : Code) : lines (c ++ c') = lines c ++ lines c' := by
  simp [lines]

theorem bytes_one (o : Opcode) (n line : Nat) :
    (one o n line).bytes = Instruction.encode ⟨o, n⟩ := by simp [bytes, one]

theorem lines_one (o : Opcode) (n line : Nat) :
    (one o n line).lines = List.replicate (1 + o.operandSize) line := by
  simp [lines, one, Instruction.size]

@[simp] theorem length_bytes (c : Code) : c.bytes.length = c.size := by
  simp [bytes, size, List.length_flatMap, Instruction.length_encode]

@[simp] theorem length_lines (c : Code) : c.lines.length = c.size := by
  simp [lines, size, List.length_flatMap]

end Code

/-! ## Code inside of code -/

/-- Some code stands in other code from an offset on. -/
def Code.At (whole : Code) (ip : Nat) (c : Code) : Prop :=
  ∃ before behind, whole = before ++ c ++ behind ∧ before.size = ip

namespace Code.At

variable {whole c₁ c₂ : Code} {ip : Nat}

theorem left (h : whole.At ip (c₁ ++ c₂)) : whole.At ip c₁ := by
  obtain ⟨before, behind, rfl, hSize⟩ := h
  exact ⟨before, c₂ ++ behind, by simp, hSize⟩

theorem right (h : whole.At ip (c₁ ++ c₂)) : whole.At (ip + c₁.size) c₂ := by
  obtain ⟨before, behind, rfl, hSize⟩ := h
  exact ⟨before ++ c₁, behind, by simp, by simp [hSize]⟩

theorem of_eq {c : Code} {ip' : Nat} (h : whole.At ip c) (hIp : ip' = ip) : whole.At ip' c :=
  hIp ▸ h

theorem lt_size {x : Instruction × Nat} (h : whole.At ip [x]) : ip < whole.size := by
  obtain ⟨before, behind, rfl, rfl⟩ := h
  have hPos := x.1.size_pos
  simp only [Code.size_append, Code.size_cons]
  omega

/-- There is one instruction at an offset. -/
theorem unique {x y : Instruction × Nat} (h : whole.At ip [x]) (h' : whole.At ip [y]) : x = y := by
  induction whole generalizing ip with
  | nil =>
    obtain ⟨before, behind, hEq, -⟩ := h
    simp at hEq
  | cons z whole ih =>
    have hPos := z.1.size_pos
    -- an instruction at an offset is the first one, or stands behind it
    have hCases {x : Instruction × Nat} (h : Code.At (z :: whole) ip [x]) :
        ip = 0 ∧ x = z ∨ z.1.size ≤ ip ∧ Code.At whole (ip - z.1.size) [x] := by
      obtain ⟨before, behind, hEq, rfl⟩ := h
      cases before with
      | nil =>
        cases hEq
        exact .inl ⟨rfl, rfl⟩
      | cons z' before =>
        cases hEq
        exact .inr ⟨by simp [Code.size_cons], before, behind, by simp, by simp [Code.size_cons]⟩
    rcases hCases h with ⟨rfl, rfl⟩ | ⟨hLe, h⟩ <;> rcases hCases h' with ⟨hZero, rfl⟩ | ⟨hLe', h'⟩
    · rfl
    · omega
    · omega
    · exact ih h h'

end Code.At

/-- A constant of a function in the making. -/
inductive Const where
  | number (x : Float)
  | string (text : String)
  | function (r : Routine)

namespace Const

/-- Whether a constant is a string with a text. -/
def isName (text : String) : Const → Bool
  | string t => t = text
  | _ => false

/-- The index of a name among some constants, behind them when it is not there. -/
def nameIndex (pool : List Const) (name : String) : Nat := pool.findIdx (isName name)

/-- Some constants, and a name behind them unless it is among them. -/
def withName (pool : List Const) (name : String) : List Const :=
  if pool.any (isName name) then pool else pool ++ [.string name]

end Const

/-- What a name refers to. -/
inductive Referent where
  | slot (n : Nat)
  | global (index : Nat)

namespace Referent

/-- What a name refers to: the newest local of this name, or else a global. -/
def of (locals : List Local) (pool : List Const) (name : String) : Referent :=
  match Draft.resolve? name locals with
  | some (n, _) => slot n
  | none => global (Const.nameIndex pool name)

/-- The constants after a name was used. -/
def pool (locals : List Local) (pool : List Const) (name : String) : List Const :=
  match Draft.resolve? name locals with
  | some _ => pool
  | none => Const.withName pool name

/-- The code that reads a variable. -/
def get (line : Nat) : Referent → Code
  | slot n => .one .getLocal n line
  | global index => .one .getGlobal index line

/-- The code that assigns to a variable. -/
def set (line : Nat) : Referent → Code
  | slot n => .one .setLocal n line
  | global index => .one .setGlobal index line

end Referent

/-- The opcode of an operator in front of its operand. -/
def UnaryOperator.opcode : UnaryOperator → Opcode
  | negate => .negate
  | not => .not

/-- The opcodes of an operator between its operands. What has none of its own is the negation of what
has. -/
def BinaryOperator.opcodes : BinaryOperator → List Opcode
  | equal => [.equal]
  | notEqual => [.equal, .not]
  | greater => [.greater]
  | greaterEqual => [.less, .not]
  | less => [.less]
  | lessEqual => [.greater, .not]
  | add => [.add]
  | subtract => [.subtract]
  | multiply => [.multiply]
  | divide => [.divide]

namespace Expr

mutual
/-- The constants after an expression. -/
def pool (ls : List Local) (k : List Const) : Expr → List Const
  | nil _ | bool _ _ => k
  | number x _ => k ++ [.number x]
  | string text _ => k ++ [.string text]
  | name n _ => Referent.pool ls k n
  | assign n value => value.pool ls (Referent.pool ls k n)
  | group inner _ => inner.pool ls k
  | unary _ operand => operand.pool ls k
  | binary _ left right | and left right _ | or left right _ => right.pool ls (left.pool ls k)
  | call callee arguments _ => poolOfAll ls (callee.pool ls k) arguments

/-- The constants after some expressions. -/
def poolOfAll (ls : List Local) (k : List Const) : List Expr → List Const
  | [] => k
  | e :: es => poolOfAll ls (e.pool ls k) es
end

mutual
/-- The code of an expression: it pushes the value. -/
def code (ls : List Local) (k : List Const) : Expr → Code
  | nil line => .op .pushNil line
  | bool b line => .op (if b then .pushTrue else .pushFalse) line
  | number _ line | string _ line => .one .constant k.length line
  | name n line => (Referent.of ls k n).get line
  | assign n value =>
    value.code ls (Referent.pool ls k n) ++ (Referent.of ls k n).set value.endLine
  | group inner _ => inner.code ls k
  | unary op operand => operand.code ls k ++ .op op.opcode operand.endLine
  | binary op left right =>
    left.code ls k ++ right.code ls (left.pool ls k) ++
      op.opcodes.flatMap fun o => Code.op o right.endLine
  | and left right line =>
    let rest := right.code ls (left.pool ls k)
    left.code ls k ++ .one .jumpIfFalse (1 + rest.size) line ++ .op .pop line ++ rest
  | or left right line =>
    let rest := right.code ls (left.pool ls k)
    left.code ls k ++ .one .jumpIfFalse 3 line ++ .one .jump (1 + rest.size) line ++
      .op .pop line ++ rest
  | call callee arguments line =>
    callee.code ls k ++ codeOfAll ls (callee.pool ls k) arguments ++
      .one .call arguments.length line

/-- The code of some expressions, one after the other. -/
def codeOfAll (ls : List Local) (k : List Const) : List Expr → Code
  | [] => []
  | e :: es => e.code ls k ++ codeOfAll ls (e.pool ls k) es
end

end Expr

/-- The scope that a statement stands in: the locals, newest first, and how many scopes are open. -/
structure Scope where
  locals : List Local
  depth : Nat

namespace Scope

/-- One scope deeper. -/
def enter (sc : Scope) : Scope := { sc with depth := sc.depth + 1 }

/-- With a local of the innermost scope. -/
def add (sc : Scope) (name : String) (initialized : Bool) : Scope :=
  { sc with locals := ⟨name, sc.depth, initialized⟩ :: sc.locals }

/-- With a variable declared; outside of all scopes it is a global. -/
def declare (sc : Scope) (name : String) : Scope :=
  if sc.depth = 0 then sc else sc.add name true

/-- While the initial value of a variable is computed. -/
def declaring (sc : Scope) (name : String) : Scope :=
  if sc.depth = 0 then sc else sc.add name false

@[simp] theorem depth_declare (sc : Scope) (name : String) : (sc.declare name).depth = sc.depth := by
  unfold declare
  split <;> rfl

@[simp] theorem depth_declaring (sc : Scope) (name : String) :
    (sc.declaring name).depth = sc.depth := by
  unfold declaring
  split <;> rfl

/-- The scope that a script starts in. Slot 0 is that of the function itself. -/
def script : Scope := ⟨[⟨"", 0, true⟩], 0⟩

/-- The scope that the body of a function starts in, with the parameters as its locals. -/
def function (parameters : List String) : Scope :=
  ⟨(parameters.map fun p => ⟨p, 1, true⟩).reverse ++ [⟨"", 0, true⟩], 1⟩

/-- The constants after a variable was named in its declaration. -/
def pool (sc : Scope) (k : List Const) (name : String) : List Const :=
  if sc.depth = 0 then Const.withName k name else k

/-- The code that makes the value on top of the stack that of a declared variable. A local just stays
there. -/
def define (sc : Scope) (k : List Const) (name : String) (line : Nat) : Code :=
  if sc.depth = 0 then .one .defineGlobal (Const.nameIndex k name) line else []

end Scope

namespace Variable

/-- The constants after the declaration of a variable. -/
def pool (v : Variable) (sc : Scope) (k : List Const) : List Const :=
  match v.value with
  | none => sc.pool k v.name
  | some e => e.pool (sc.declaring v.name).locals (sc.pool k v.name)

/-- The code of the declaration of a variable. -/
def code (v : Variable) (sc : Scope) (k : List Const) : Code :=
  (match v.value with
    | none => .op .pushNil v.nameLine
    | some e => e.code (sc.declaring v.name).locals (sc.pool k v.name)) ++
  sc.define k v.name v.line

end Variable

namespace Initializer

/-- The scope behind a first clause. -/
def scope (sc : Scope) : Initializer → Scope
  | var v => sc.declare v.name
  | _ => sc

/-- The constants after a first clause. -/
def pool (sc : Scope) (k : List Const) : Initializer → List Const
  | none => k
  | var v => v.pool sc k
  | expression e _ => e.pool sc.locals k

/-- The code of a first clause. -/
def code (sc : Scope) (k : List Const) : Initializer → Code
  | none => []
  | var v => v.code sc k
  | expression e line => e.code sc.locals k ++ .op .pop line

/-- The number of locals of a first clause. -/
def localCount : Initializer → Nat
  | var _ => 1
  | _ => 0

end Initializer

/-- The constants after an expression that may be missing. -/
def Expr.pool? (ls : List Local) (k : List Const) : Option Expr → List Const
  | none => k
  | some e => e.pool ls k

namespace Stmt

/-- The scope behind a statement. -/
def scope (sc : Scope) : Stmt → Scope
  | var v => sc.declare v.name
  | function _ name _ _ _ => sc.declare name
  | _ => sc

/-- The scope behind some declarations. -/
def scopeOfAll (sc : Scope) (ss : List Stmt) : Scope := ss.foldl scope sc

theorem depth_scopeOfAll (sc : Scope) (ss : List Stmt) : (scopeOfAll sc ss).depth = sc.depth := by
  induction ss generalizing sc with
  | nil => rfl
  | cons s ss ih =>
    refine (ih (s.scope sc)).trans ?_
    cases s with
    | var | function => exact Scope.depth_declare _ _
    | _ => rfl

mutual
/-- The constants after a statement. -/
def pool (sc : Scope) (k : List Const) : Stmt → List Const
  | expression e _ | print e _ => e.pool sc.locals k
  | var v => v.pool sc k
  | function place name parameters body line =>
    sc.pool k name ++ [.function ⟨place, some name, parameters, body, line⟩]
  | block body _ => poolOfAll sc.enter k body
  | ifThen condition _ body => body.pool sc (condition.pool sc.locals k)
  | ifElse condition _ body other =>
    other.pool sc (body.pool sc (condition.pool sc.locals k))
  | whileLoop condition _ body => body.pool sc (condition.pool sc.locals k)
  | forLoop first condition _ increment _ body =>
    let inner := first.scope sc.enter
    body.pool inner (Expr.pool? inner.locals
      (Expr.pool? inner.locals (first.pool sc.enter k) condition) increment)
  | ret value _ => Expr.pool? sc.locals k value

/-- The constants after some declarations. -/
def poolOfAll (sc : Scope) (k : List Const) : List Stmt → List Const
  | [] => k
  | s :: ss => poolOfAll (s.scope sc) (s.pool sc k) ss
end

/-- The code that drops so many locals. -/
def drops (count line : Nat) : Code := List.replicate count (⟨.pop, 0⟩, line)

/-- The number of bytes of the condition of a loop and of the jump out of it. -/
def testSize : Option Code → Nat
  | none => 0
  | some c => c.size + 4

/-- The condition of a loop, and the jump over the rest of the loop. -/
def testCode (rest semicolonLine : Nat) : Option Code → Code
  | none => []
  | some c => c ++ .one .jumpIfFalse (rest + 1) semicolonLine ++ .op .pop semicolonLine

/-- The increment of a loop, which ends on the given line. It stands before the body and runs after it,
so a jump leads over it and it leads back to the condition. -/
def stepCode (test semicolonLine parenLine : Nat) : Option (Code × Nat) → Code
  | none => []
  | some (c, line) =>
    .one .jump (c.size + 4) semicolonLine ++ c ++ .op .pop line ++
      .one .loop (test + c.size + 7) parenLine

/-- How far the end of the body leads back: to the increment, or else to the condition. -/
def backDistance (test body : Nat) : Option (Code × Nat) → Nat
  | none => test + body + 3
  | some (c, _) => c.size + body + 7

/-- The code of a loop from its condition on. -/
def loopCode (condition : Option Code) (semicolonLine : Nat) (increment : Option (Code × Nat))
    (parenLine : Nat) (body : Code) (bodyLine : Nat) : Code :=
  let step := stepCode (testSize condition) semicolonLine parenLine increment
  testCode (step.size + body.size + 3) semicolonLine condition ++ step ++ body ++
    .one .loop (backDistance (testSize condition) body.size increment) bodyLine ++
    if condition.isSome then Code.op .pop bodyLine else []

mutual
/-- The code of a statement or a declaration. -/
def code (sc : Scope) (k : List Const) : Stmt → Code
  | expression e line => e.code sc.locals k ++ .op .pop line
  | print e line => e.code sc.locals k ++ .op .print line
  | var v => v.code sc k
  | function _ name _ _ line =>
    .one .constant (sc.pool k name).length line ++ sc.define k name line
  | block body line =>
    codeOfAll sc.enter k body ++ drops (body.countP declares) line
  | ifThen condition line body =>
    let inside := body.code sc (condition.pool sc.locals k)
    condition.code sc.locals k ++ .one .jumpIfFalse (inside.size + 4) line ++ .op .pop line ++
      inside ++ .one .jump 1 body.endLine ++ .op .pop body.endLine
  | ifElse condition line body other =>
    let k' := condition.pool sc.locals k
    let inside := body.code sc k'
    let otherwise := other.code sc (body.pool sc k')
    condition.code sc.locals k ++ .one .jumpIfFalse (inside.size + 4) line ++ .op .pop line ++
      inside ++ .one .jump (1 + otherwise.size) body.endLine ++ .op .pop body.endLine ++ otherwise
  | whileLoop condition line body =>
    let test := condition.code sc.locals k
    let inside := body.code sc (condition.pool sc.locals k)
    test ++ .one .jumpIfFalse (inside.size + 4) line ++ .op .pop line ++ inside ++
      .one .loop (test.size + inside.size + 7) body.endLine ++ .op .pop body.endLine
  | forLoop first condition semicolonLine increment parenLine body =>
    let inner := first.scope sc.enter
    let k₁ := first.pool sc.enter k
    let k₂ := Expr.pool? inner.locals k₁ condition
    let k₃ := Expr.pool? inner.locals k₂ increment
    first.code sc.enter k ++
      loopCode (condition.map fun e => e.code inner.locals k₁) semicolonLine
        (increment.map fun e => (e.code inner.locals k₂, e.endLine)) parenLine
        (body.code inner k₃) body.endLine ++
      drops first.localCount body.endLine
  | ret none line => .op .pushNil line ++ .op .ret line
  | ret (some e) line => e.code sc.locals k ++ .op .ret line

/-- The code of some declarations, one after the other. -/
def codeOfAll (sc : Scope) (k : List Const) : List Stmt → Code
  | [] => []
  | s :: ss => s.code sc k ++ codeOfAll (s.scope sc) (s.pool sc k) ss
end

theorem size_stepCode (test semicolonLine parenLine semicolonLine' parenLine' : Nat)
    (increment : Option (Code × Nat)) :
    (stepCode test semicolonLine parenLine increment).size =
      (stepCode test semicolonLine' parenLine' increment).size := by
  cases increment with
  | none => rfl
  | some step => simp [stepCode]

theorem size_testCode (rest semicolonLine : Nat) (condition : Option Code) :
    (testCode rest semicolonLine condition).size = testSize condition := by
  cases condition with
  | none => rfl
  | some c =>
    simp [testCode, testSize, Opcode.operandSize]

end Stmt

/-! ## Names

A name stands where its index says. -/

theorem Draft.resolve?_lt {name : String} {n : Nat} {l : Local} :
    ∀ {ls : List Local}, Draft.resolve? name ls = some (n, l) → n < ls.length
  | [], h => nomatch h
  | l' :: older, h => by
    rw [Draft.resolve?] at h
    split at h
    · cases h
      exact Nat.lt_succ_self _
    · exact (Draft.resolve?_lt h).trans (Nat.lt_succ_self _)

theorem Const.isName_iff {name : String} {c : Const} : c.isName name = true ↔ c = .string name := by
  cases c <;> simp [Const.isName]

theorem Const.getElem?_withName (k : List Const) (name : String) :
    (Const.withName k name)[Const.nameIndex k name]? = some (.string name) := by
  unfold Const.withName Const.nameIndex
  split
  · rename_i hAny
    have hLess : k.findIdx (Const.isName name) < k.length :=
      List.findIdx_lt_length.2 (by simpa using hAny)
    rw [List.getElem?_eq_getElem hLess, ← Const.isName_iff.1 (List.findIdx_getElem (w := hLess))]
  · rename_i hAny
    have hLength : k.findIdx (Const.isName name) = k.length :=
      List.findIdx_eq_length.2 (by simpa using hAny)
    rw [hLength, List.getElem?_concat_length]

theorem Const.getElem?_of_prefix {k k' : List Const} (h : k <+: k') {i : Nat} {c : Const}
    (hc : k[i]? = some c) : k'[i]? = some c := by
  obtain ⟨rest, rfl⟩ := h
  rw [List.getElem?_append_left (List.getElem?_eq_some_iff.1 hc).1, hc]

/-! ## Constants are never moved -/

theorem Const.prefix_withName (k : List Const) (name : String) : k <+: Const.withName k name := by
  unfold withName
  split
  · exact List.prefix_refl k
  · exact List.prefix_append ..

theorem Referent.prefix_pool (ls : List Local) (k : List Const) (name : String) :
    k <+: Referent.pool ls k name := by
  unfold Referent.pool
  split
  · exact List.prefix_refl k
  · exact Const.prefix_withName ..

theorem Scope.prefix_pool (sc : Scope) (k : List Const) (name : String) :
    k <+: sc.pool k name := by
  unfold Scope.pool
  split
  · exact Const.prefix_withName ..
  · exact List.prefix_refl k

mutual

theorem Expr.prefix_pool (ls : List Local) : ∀ (e : Expr) (k : List Const), k <+: e.pool ls k
  | .nil _, k | .bool _ _, k => List.prefix_refl k
  | .number _ _, _ | .string _ _, _ => List.prefix_append ..
  | .name n _, k => Referent.prefix_pool ls k n
  | .assign n value, k => (Referent.prefix_pool ls k n).trans (value.prefix_pool ls _)
  | .group inner _, k => inner.prefix_pool ls k
  | .unary _ operand, k => operand.prefix_pool ls k
  | .binary _ left right, k | .and left right _, k | .or left right _, k =>
    (left.prefix_pool ls k).trans (right.prefix_pool ls _)
  | .call callee arguments _, k =>
    (callee.prefix_pool ls k).trans (Expr.prefix_poolOfAll ls arguments _)

theorem Expr.prefix_poolOfAll (ls : List Local) :
    ∀ (es : List Expr) (k : List Const), k <+: Expr.poolOfAll ls k es
  | [], k => List.prefix_refl k
  | e :: es, k => (e.prefix_pool ls k).trans (Expr.prefix_poolOfAll ls es _)

end

theorem Expr.prefix_pool? (ls : List Local) (k : List Const) :
    ∀ e : Option Expr, k <+: Expr.pool? ls k e
  | none => List.prefix_refl k
  | some e => e.prefix_pool ls k

theorem Variable.prefix_pool (v : Variable) (sc : Scope) (k : List Const) : k <+: v.pool sc k := by
  unfold Variable.pool
  split
  · exact sc.prefix_pool k v.name
  · exact (sc.prefix_pool k v.name).trans (Expr.prefix_pool ..)

theorem Initializer.prefix_pool (sc : Scope) (k : List Const) :
    ∀ first : Initializer, k <+: first.pool sc k
  | .none => List.prefix_refl k
  | .var v => v.prefix_pool sc k
  | .expression e _ => e.prefix_pool sc.locals k

mutual

theorem Stmt.prefix_pool : ∀ (s : Stmt) (sc : Scope) (k : List Const), k <+: s.pool sc k
  | .expression e _, sc, k | .print e _, sc, k => e.prefix_pool sc.locals k
  | .var v, sc, k => v.prefix_pool sc k
  | .function _ name _ _ _, sc, k => (sc.prefix_pool k name).trans (List.prefix_append ..)
  | .block body _, sc, k => Stmt.prefix_poolOfAll body sc.enter k
  | .ifThen condition _ body, sc, k | .whileLoop condition _ body, sc, k =>
    (condition.prefix_pool sc.locals k).trans (body.prefix_pool sc _)
  | .ifElse condition _ body other, sc, k =>
    (condition.prefix_pool sc.locals k).trans
      ((body.prefix_pool sc _).trans (other.prefix_pool sc _))
  | .forLoop first condition _ increment _ body, sc, k =>
    (first.prefix_pool sc.enter k).trans <| (Expr.prefix_pool? _ _ condition).trans <|
      (Expr.prefix_pool? _ _ increment).trans (body.prefix_pool _ _)
  | .ret value _, sc, k => Expr.prefix_pool? sc.locals k value

theorem Stmt.prefix_poolOfAll :
    ∀ (ss : List Stmt) (sc : Scope) (k : List Const), k <+: Stmt.poolOfAll sc k ss
  | [], _, k => List.prefix_refl k
  | s :: ss, sc, k => (s.prefix_pool sc k).trans (Stmt.prefix_poolOfAll ss _ _)

end

namespace Routine

/-- The scope that the body of a routine starts in. -/
def scope (r : Routine) : Scope := if r.name.isSome then .function r.parameters else .script

/-- The constants of a routine. -/
def pool (r : Routine) : List Const := Stmt.poolOfAll r.scope [] r.body

/-- The code of a routine: its body, and a return of nil. -/
def code (r : Routine) : Code :=
  Stmt.codeOfAll r.scope [] r.body ++ .op .pushNil r.line ++ .op .ret r.line

end Routine

end Lox

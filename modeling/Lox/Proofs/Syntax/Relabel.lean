import Lox.Proofs.Syntax.Legal
import Lox.Proofs.Syntax.Proper

/-!
# Other places and other lines

The same tree may stand elsewhere in a source text: then its functions have other places, and its tokens
other lines. Its code has the same instructions, with the other lines, and its static rules are the same.
-/

set_option autoImplicit false

namespace Lox

open Lox.Parser (maxDistance)

/-- What becomes of the places of functions, and of the lines of tokens. -/
structure Relabelling where
  place : Nat → Nat
  line : Nat → Nat

namespace Relabelling

/-- One after the other. -/
def comp (ψ φ : Relabelling) : Relabelling := ⟨ψ.place ∘ φ.place, ψ.line ∘ φ.line⟩

end Relabelling

/-! ## Trees -/

namespace Expr

mutual
/-- An expression on other lines. -/
def relabel (φ : Relabelling) : Expr → Expr
  | nil line => nil (φ.line line)
  | bool b line => bool b (φ.line line)
  | number x line => number x (φ.line line)
  | string text line => string text (φ.line line)
  | name n line => name n (φ.line line)
  | assign n value => assign n (value.relabel φ)
  | group inner line => group (inner.relabel φ) (φ.line line)
  | unary op operand => unary op (operand.relabel φ)
  | binary op left right => binary op (left.relabel φ) (right.relabel φ)
  | and left right line => and (left.relabel φ) (right.relabel φ) (φ.line line)
  | or left right line => or (left.relabel φ) (right.relabel φ) (φ.line line)
  | call callee arguments line => call (callee.relabel φ) (relabelAll φ arguments) (φ.line line)

/-- Some expressions on other lines. -/
def relabelAll (φ : Relabelling) : List Expr → List Expr
  | [] => []
  | e :: es => e.relabel φ :: relabelAll φ es
end

end Expr

/-- The declaration of a variable on other lines. -/
def Variable.relabel (φ : Relabelling) (v : Variable) : Variable :=
  ⟨v.name, φ.line v.nameLine, v.value.map (Expr.relabel φ), φ.line v.line⟩

/-- A first clause on other lines. -/
def Initializer.relabel (φ : Relabelling) : Initializer → Initializer
  | none => none
  | var v => var (v.relabel φ)
  | expression e line => expression (e.relabel φ) (φ.line line)

namespace Stmt

mutual
/-- A statement elsewhere. -/
def relabel (φ : Relabelling) : Stmt → Stmt
  | expression e line => expression (e.relabel φ) (φ.line line)
  | print e line => print (e.relabel φ) (φ.line line)
  | var v => var (v.relabel φ)
  | function place name parameters body line =>
    function (φ.place place) name parameters (relabelAll φ body) (φ.line line)
  | block body line => block (relabelAll φ body) (φ.line line)
  | ifThen condition line body => ifThen (condition.relabel φ) (φ.line line) (body.relabel φ)
  | ifElse condition line body other =>
    ifElse (condition.relabel φ) (φ.line line) (body.relabel φ) (other.relabel φ)
  | whileLoop condition line body => whileLoop (condition.relabel φ) (φ.line line) (body.relabel φ)
  | forLoop first condition semicolonLine increment parenLine body =>
    forLoop (first.relabel φ) (condition.map (Expr.relabel φ)) (φ.line semicolonLine)
      (increment.map (Expr.relabel φ)) (φ.line parenLine) (body.relabel φ)
  | ret value line => ret (value.map (Expr.relabel φ)) (φ.line line)

/-- Some declarations elsewhere. -/
def relabelAll (φ : Relabelling) : List Stmt → List Stmt
  | [] => []
  | s :: ss => s.relabel φ :: relabelAll φ ss
end

end Stmt

/-- A routine elsewhere. -/
def Routine.relabel (φ : Relabelling) (r : Routine) : Routine :=
  ⟨φ.place r.place, r.name, r.parameters, Stmt.relabelAll φ r.body, φ.line r.line⟩

/-- A constant of a routine elsewhere. -/
def Const.relabel (φ : Relabelling) : Const → Const
  | number x => number x
  | string text => string text
  | function r => function (r.relabel φ)

/-- Code with other lines. -/
def Code.relabel (φ : Relabelling) (c : Code) : Code := c.map fun i => (i.1, φ.line i.2)

variable {φ ψ : Relabelling}

/-! ## One relabelling after the other -/

mutual

theorem Expr.relabel_relabel : ∀ e : Expr, (e.relabel φ).relabel ψ = e.relabel (ψ.comp φ)
  | .nil _ | .bool _ _ | .number _ _ | .string _ _ | .name _ _ => rfl
  | .assign _ e | .group e _ | .unary _ e => by simp [relabel, relabel_relabel e, Relabelling.comp]
  | .binary _ a b | .and a b _ | .or a b _ => by
    simp [relabel, relabel_relabel a, relabel_relabel b, Relabelling.comp]
  | .call e es _ => by simp [relabel, relabel_relabel e, relabelAll_relabelAll es, Relabelling.comp]

theorem Expr.relabelAll_relabelAll : ∀ es : List Expr,
    Expr.relabelAll ψ (Expr.relabelAll φ es) = Expr.relabelAll (ψ.comp φ) es
  | [] => rfl
  | e :: es => by simp [relabelAll, relabel_relabel e, relabelAll_relabelAll es]

end

theorem Expr.relabel_comp : Expr.relabel ψ ∘ Expr.relabel φ = Expr.relabel (ψ.comp φ) :=
  funext Expr.relabel_relabel

theorem Variable.relabel_relabel (v : Variable) :
    (v.relabel φ).relabel ψ = v.relabel (ψ.comp φ) := by
  simp [relabel, Expr.relabel_comp, Relabelling.comp]

theorem Initializer.relabel_relabel (first : Initializer) :
    (first.relabel φ).relabel ψ = first.relabel (ψ.comp φ) := by
  cases first <;> simp [relabel, Variable.relabel_relabel, Expr.relabel_relabel, Relabelling.comp]

mutual

theorem Stmt.relabel_relabel : ∀ s : Stmt, (s.relabel φ).relabel ψ = s.relabel (ψ.comp φ)
  | .expression e _ | .print e _ => by simp [relabel, e.relabel_relabel, Relabelling.comp]
  | .var v => by simp [relabel, v.relabel_relabel]
  | .function _ _ _ body _ | .block body _ => by
    simp [relabel, relabelAll_relabelAll body, Relabelling.comp]
  | .ifThen e _ body | .whileLoop e _ body => by
    simp [relabel, e.relabel_relabel, relabel_relabel body, Relabelling.comp]
  | .ifElse e _ body other => by
    simp [relabel, e.relabel_relabel, relabel_relabel body, relabel_relabel other, Relabelling.comp]
  | .forLoop first _ _ _ _ body => by
    simp [relabel, first.relabel_relabel, Expr.relabel_comp, relabel_relabel body, Relabelling.comp]
  | .ret _ _ => by simp [relabel, Expr.relabel_comp, Relabelling.comp]

theorem Stmt.relabelAll_relabelAll : ∀ ss : List Stmt,
    Stmt.relabelAll ψ (Stmt.relabelAll φ ss) = Stmt.relabelAll (ψ.comp φ) ss
  | [] => rfl
  | s :: ss => by simp [relabelAll, relabel_relabel s, relabelAll_relabelAll ss]

end

theorem Routine.relabel_relabel (r : Routine) : (r.relabel φ).relabel ψ = r.relabel (ψ.comp φ) := by
  simp [relabel, Stmt.relabelAll_relabelAll, Relabelling.comp]

/-! ## Relabellings that do the same -/

mutual

theorem Expr.relabel_congr (h : φ.line = ψ.line) : ∀ e : Expr, e.relabel φ = e.relabel ψ
  | .nil _ | .bool _ _ | .number _ _ | .string _ _ | .name _ _ => by simp [relabel, h]
  | .assign _ e | .group e _ | .unary _ e => by simp [relabel, h, relabel_congr h e]
  | .binary _ a b | .and a b _ | .or a b _ => by
    simp [relabel, h, relabel_congr h a, relabel_congr h b]
  | .call e es _ => by simp [relabel, h, relabel_congr h e, relabelAll_congr h es]

theorem Expr.relabelAll_congr (h : φ.line = ψ.line) : ∀ es : List Expr,
    Expr.relabelAll φ es = Expr.relabelAll ψ es
  | [] => rfl
  | e :: es => by simp [relabelAll, relabel_congr h e, relabelAll_congr h es]

end

theorem Variable.relabel_congr (h : φ.line = ψ.line) (v : Variable) : v.relabel φ = v.relabel ψ := by
  simp [relabel, h, funext (Expr.relabel_congr h)]

theorem Initializer.relabel_congr (h : φ.line = ψ.line) (first : Initializer) :
    first.relabel φ = first.relabel ψ := by
  cases first <;> simp [relabel, h, Variable.relabel_congr h, Expr.relabel_congr h]

theorem Expr.length_relabelAll (es : List Expr) : (Expr.relabelAll φ es).length = es.length := by
  induction es with
  | nil => rfl
  | cons e es ih => simp [relabelAll, ih]

/-! ## Constants -/

theorem Const.isName_relabel (name : String) (c : Const) :
    (c.relabel φ).isName name = c.isName name := by cases c <;> rfl

theorem Const.nameIndex_map (k : List Const) (name : String) :
    Const.nameIndex (k.map (Const.relabel φ)) name = Const.nameIndex k name := by
  simp [nameIndex, List.findIdx_map, Function.comp_def, isName_relabel]

theorem Const.withName_map (k : List Const) (name : String) :
    Const.withName (k.map (Const.relabel φ)) name = (Const.withName k name).map (Const.relabel φ) := by
  simp only [withName, List.any_map, Function.comp_def, isName_relabel]
  split <;> simp [relabel]

theorem Referent.of_map (ls : List Local) (k : List Const) (name : String) :
    Referent.of ls (k.map (Const.relabel φ)) name = Referent.of ls k name := by
  simp [of, Const.nameIndex_map]

theorem Referent.pool_map (ls : List Local) (k : List Const) (name : String) :
    Referent.pool ls (k.map (Const.relabel φ)) name = (Referent.pool ls k name).map (Const.relabel φ) := by
  unfold pool
  split
  · rfl
  · exact Const.withName_map k name

theorem Scope.pool_map (sc : Scope) (k : List Const) (name : String) :
    sc.pool (k.map (Const.relabel φ)) name = (sc.pool k name).map (Const.relabel φ) := by
  unfold pool
  split
  · exact Const.withName_map k name
  · rfl

mutual

theorem Expr.pool_relabel (ls : List Local) : ∀ (e : Expr) (k : List Const),
    (e.relabel φ).pool ls (k.map (Const.relabel φ)) = (e.pool ls k).map (Const.relabel φ)
  | .nil _, _ | .bool _ _, _ => rfl
  | .number _ _, _ | .string _ _, _ => by simp [relabel, pool, Const.relabel]
  | .name n _, k => Referent.pool_map ls k n
  | .assign n e, k => by simp [relabel, pool, Referent.pool_map, pool_relabel ls e]
  | .group e _, k | .unary _ e, k => by simp [relabel, pool, pool_relabel ls e]
  | .binary _ a b, k | .and a b _, k | .or a b _, k => by
    simp [relabel, pool, pool_relabel ls a, pool_relabel ls b]
  | .call e es _, k => by simp [relabel, pool, pool_relabel ls e, poolOfAll_relabel ls es]

theorem Expr.poolOfAll_relabel (ls : List Local) : ∀ (es : List Expr) (k : List Const),
    Expr.poolOfAll ls (k.map (Const.relabel φ)) (Expr.relabelAll φ es) =
      (Expr.poolOfAll ls k es).map (Const.relabel φ)
  | [], _ => rfl
  | e :: es, k => by simp [relabelAll, poolOfAll, pool_relabel ls e, poolOfAll_relabel ls es]

end

theorem Expr.pool?_relabel (ls : List Local) (k : List Const) (e : Option Expr) :
    Expr.pool? ls (k.map (Const.relabel φ)) (e.map (Expr.relabel φ)) =
      (Expr.pool? ls k e).map (Const.relabel φ) := by
  cases e with
  | none => rfl
  | some e => exact e.pool_relabel ls k

theorem Variable.pool_relabel (v : Variable) (sc : Scope) (k : List Const) :
    (v.relabel φ).pool sc (k.map (Const.relabel φ)) = (v.pool sc k).map (Const.relabel φ) := by
  obtain ⟨name, nameLine, value, line⟩ := v
  cases value with
  | none => exact sc.pool_map k name
  | some e => simp [relabel, pool, Scope.pool_map, Expr.pool_relabel]

theorem Initializer.scope_relabel (sc : Scope) (first : Initializer) :
    (first.relabel φ).scope sc = first.scope sc := by cases first <;> rfl

theorem Initializer.pool_relabel (sc : Scope) (k : List Const) (first : Initializer) :
    (first.relabel φ).pool sc (k.map (Const.relabel φ)) = (first.pool sc k).map (Const.relabel φ) := by
  cases first with
  | none => rfl
  | var v => exact v.pool_relabel sc k
  | expression e line => exact e.pool_relabel sc.locals k

theorem Stmt.scope_relabel (sc : Scope) (s : Stmt) : (s.relabel φ).scope sc = s.scope sc := by
  cases s <;> simp [relabel, scope, Variable.relabel]

theorem Stmt.declares_relabel (s : Stmt) : (s.relabel φ).declares = s.declares := by
  cases s <;> simp [relabel, declares]

theorem Stmt.countP_declares_relabelAll (ss : List Stmt) :
    (Stmt.relabelAll φ ss).countP Stmt.declares = ss.countP Stmt.declares := by
  induction ss with
  | nil => rfl
  | cons s ss ih => simp [relabelAll, List.countP_cons, ih, declares_relabel]

mutual

theorem Stmt.pool_relabel : ∀ (s : Stmt) (sc : Scope) (k : List Const),
    (s.relabel φ).pool sc (k.map (Const.relabel φ)) = (s.pool sc k).map (Const.relabel φ)
  | .expression e _, sc, k | .print e _, sc, k => e.pool_relabel sc.locals k
  | .var v, sc, k => v.pool_relabel sc k
  | .function _ _ _ _ _, sc, k => by
    simp [relabel, pool, Scope.pool_map, Const.relabel, Routine.relabel]
  | .block body _, sc, k => poolOfAll_relabel body sc.enter k
  | .ifThen e _ body, sc, k | .whileLoop e _ body, sc, k => by
    simp [relabel, pool, e.pool_relabel, pool_relabel body]
  | .ifElse e _ body other, sc, k => by
    simp [relabel, pool, e.pool_relabel, pool_relabel body, pool_relabel other]
  | .forLoop first _ _ _ _ body, sc, k => by
    simp [relabel, pool, first.scope_relabel, first.pool_relabel, Expr.pool?_relabel, pool_relabel body]
  | .ret value _, sc, k => Expr.pool?_relabel sc.locals k value

theorem Stmt.poolOfAll_relabel : ∀ (ss : List Stmt) (sc : Scope) (k : List Const),
    Stmt.poolOfAll sc (k.map (Const.relabel φ)) (Stmt.relabelAll φ ss) =
      (Stmt.poolOfAll sc k ss).map (Const.relabel φ)
  | [], _, _ => rfl
  | s :: ss, sc, k => by
    simp [relabelAll, poolOfAll, s.scope_relabel, pool_relabel s, poolOfAll_relabel ss]

end

/-! ## Code -/

namespace Code

@[simp] theorem relabel_nil : Code.relabel φ [] = [] := rfl

@[simp] theorem relabel_append (c c' : Code) :
    (c ++ c').relabel φ = c.relabel φ ++ c'.relabel φ := List.map_append

@[simp] theorem relabel_one (o : Opcode) (n line : Nat) :
    (one o n line).relabel φ = one o n (φ.line line) := rfl

@[simp] theorem relabel_op (o : Opcode) (line : Nat) : (op o line).relabel φ = op o (φ.line line) := rfl

@[simp] theorem size_relabel (c : Code) : (c.relabel φ).size = c.size := by
  simp [relabel, size, Function.comp_def]

@[simp] theorem bytes_relabel (c : Code) : (c.relabel φ).bytes = c.bytes := by
  simp [relabel, bytes, List.flatMap_map]

theorem relabel_of_line (h : φ.line = id) (c : Code) : c.relabel φ = c := by
  simp [relabel, h]

end Code

theorem Expr.endLine_relabel : ∀ e : Expr, (e.relabel φ).endLine = φ.line e.endLine
  | .nil _ | .bool _ _ | .number _ _ | .string _ _ | .name _ _ | .group _ _ | .call _ _ _ => rfl
  | .assign _ e | .unary _ e => endLine_relabel e
  | .binary _ _ e | .and _ e _ | .or _ e _ => endLine_relabel e

theorem Stmt.endLine_relabel : ∀ s : Stmt, (s.relabel φ).endLine = φ.line s.endLine
  | .expression _ _ | .print _ _ | .function _ _ _ _ _ | .block _ _ | .ret _ _ | .var _ => rfl
  | .ifThen _ _ s | .ifElse _ _ _ s | .whileLoop _ _ s | .forLoop _ _ _ _ _ s => endLine_relabel s

theorem Referent.get_relabel (line : Nat) (x : Referent) : x.get (φ.line line) = (x.get line).relabel φ := by
  cases x <;> rfl

theorem Referent.set_relabel (line : Nat) (x : Referent) : x.set (φ.line line) = (x.set line).relabel φ := by
  cases x <;> rfl

theorem BinaryOperator.code_relabel (os : List Opcode) (line : Nat) :
    os.flatMap (fun o => Code.op o (φ.line line)) =
      Code.relabel φ (os.flatMap fun o => Code.op o line) := by
  induction os with
  | nil => rfl
  | cons o os ih => simp [ih]

mutual

theorem Expr.code_relabel (ls : List Local) : ∀ (e : Expr) (k : List Const),
    (e.relabel φ).code ls (k.map (Const.relabel φ)) = (e.code ls k).relabel φ
  | .nil _, _ | .bool _ _, _ => rfl
  | .number _ _, k | .string _ _, k => by simp [relabel, code]
  | .name n line, k => by simp [relabel, code, Referent.of_map, Referent.get_relabel]
  | .assign n e, k => by
    simp [relabel, code, Referent.of_map, Referent.pool_map, code_relabel ls e, e.endLine_relabel,
      Referent.set_relabel]
  | .group e _, k => code_relabel ls e k
  | .unary _ e, k => by simp [relabel, code, code_relabel ls e, e.endLine_relabel]
  | .binary op a b, k => by
    simp [relabel, code, code_relabel ls a, code_relabel ls b, a.pool_relabel, b.endLine_relabel,
      BinaryOperator.code_relabel]
  | .and a b _, k | .or a b _, k => by
    simp [relabel, code, code_relabel ls a, code_relabel ls b, a.pool_relabel]
  | .call e es _, k => by
    simp [relabel, code, code_relabel ls e, codeOfAll_relabel ls es, e.pool_relabel, length_relabelAll]

theorem Expr.codeOfAll_relabel (ls : List Local) : ∀ (es : List Expr) (k : List Const),
    Expr.codeOfAll ls (k.map (Const.relabel φ)) (Expr.relabelAll φ es) =
      (Expr.codeOfAll ls k es).relabel φ
  | [], _ => rfl
  | e :: es, k => by
    simp [relabelAll, codeOfAll, code_relabel ls e, codeOfAll_relabel ls es, e.pool_relabel]

end

theorem Scope.define_relabel (sc : Scope) (k : List Const) (name : String) (line : Nat) :
    sc.define (k.map (Const.relabel φ)) name (φ.line line) = (sc.define k name line).relabel φ := by
  simp only [define, Const.nameIndex_map]
  split <;> rfl

theorem Variable.code_relabel (v : Variable) (sc : Scope) (k : List Const) :
    (v.relabel φ).code sc (k.map (Const.relabel φ)) = (v.code sc k).relabel φ := by
  obtain ⟨name, nameLine, value, line⟩ := v
  cases value <;>
    simp [relabel, code, Scope.define_relabel, Scope.pool_map, Expr.code_relabel]

theorem Initializer.code_relabel (sc : Scope) (k : List Const) (first : Initializer) :
    (first.relabel φ).code sc (k.map (Const.relabel φ)) = (first.code sc k).relabel φ := by
  cases first with
  | none => rfl
  | var v => exact v.code_relabel sc k
  | expression e line => simp [relabel, code, e.code_relabel]

theorem Initializer.localCount_relabel (first : Initializer) :
    (first.relabel φ).localCount = first.localCount := by cases first <;> rfl

theorem Stmt.drops_relabel (count line : Nat) :
    drops count (φ.line line) = (drops count line).relabel φ := by simp [drops, Code.relabel]

/-- The parts of a loop with other lines. -/
theorem Stmt.loopCode_relabel (condition : Option Code) (semicolonLine : Nat)
    (increment : Option (Code × Nat)) (parenLine : Nat) (body : Code) (bodyLine : Nat) :
    loopCode (condition.map (Code.relabel φ)) (φ.line semicolonLine)
        (increment.map fun c => (c.1.relabel φ, φ.line c.2)) (φ.line parenLine) (body.relabel φ)
        (φ.line bodyLine) =
      (loopCode condition semicolonLine increment parenLine body bodyLine).relabel φ := by
  cases condition <;> cases increment <;>
    simp [loopCode, stepCode, testCode, testSize, backDistance]

mutual

theorem Stmt.code_relabel : ∀ (s : Stmt) (sc : Scope) (k : List Const),
    (s.relabel φ).code sc (k.map (Const.relabel φ)) = (s.code sc k).relabel φ
  | .expression e _, sc, k | .print e _, sc, k => by simp [relabel, code, e.code_relabel]
  | .var v, sc, k => v.code_relabel sc k
  | .function _ _ _ _ _, sc, k => by
    simp [relabel, code, Scope.pool_map, Scope.define_relabel]
  | .block body _, sc, k => by
    simp [relabel, code, codeOfAll_relabel body, countP_declares_relabelAll, drops_relabel]
  | .ifThen e _ body, sc, k | .whileLoop e _ body, sc, k => by
    simp [relabel, code, e.code_relabel, e.pool_relabel, code_relabel body, body.endLine_relabel]
  | .ifElse e _ body other, sc, k => by
    simp [relabel, code, e.code_relabel, e.pool_relabel, code_relabel body, body.pool_relabel,
      code_relabel other, body.endLine_relabel]
  | .forLoop first condition _ increment _ body, sc, k => by
    simp only [relabel, code, first.code_relabel, first.scope_relabel, first.pool_relabel,
      first.localCount_relabel, Expr.pool?_relabel, code_relabel body, body.endLine_relabel,
      drops_relabel, Code.relabel_append, ← loopCode_relabel, Option.map_map]
    congr 4 <;> funext e <;> simp [e.code_relabel, e.endLine_relabel]
  | .ret none _, sc, k => rfl
  | .ret (some e) _, sc, k => by simp [relabel, code, e.code_relabel]

theorem Stmt.codeOfAll_relabel : ∀ (ss : List Stmt) (sc : Scope) (k : List Const),
    Stmt.codeOfAll sc (k.map (Const.relabel φ)) (Stmt.relabelAll φ ss) =
      (Stmt.codeOfAll sc k ss).relabel φ
  | [], _, _ => rfl
  | s :: ss, sc, k => by
    simp [relabelAll, codeOfAll, s.scope_relabel, s.pool_relabel, code_relabel s, codeOfAll_relabel ss]

end

/-! ## Static rules -/

mutual

theorem Expr.legal_relabel (ls : List Local) : ∀ (e : Expr) (k : List Const),
    (e.relabel φ).Legal ls (k.map (Const.relabel φ)) ↔ e.Legal ls k
  | .nil _, _ | .bool _ _, _ | .number _ _, _ | .string _ _, _ | .name _ _, _ => Iff.rfl
  | .assign n e, k => by simp [relabel, Legal, Referent.pool_map, legal_relabel ls e]
  | .group e _, k | .unary _ e, k => legal_relabel ls e k
  | .binary _ a b, k => by
    simp [relabel, Legal, a.pool_relabel, legal_relabel ls a, legal_relabel ls b]
  | .and a b _, k | .or a b _, k => by
    simp [relabel, Legal, a.pool_relabel, b.code_relabel, legal_relabel ls a, legal_relabel ls b]
  | .call e es _, k => by
    simp [relabel, Legal, e.pool_relabel, legal_relabel ls e, legalList_relabel ls es, length_relabelAll]

theorem Expr.legalList_relabel (ls : List Local) : ∀ (es : List Expr) (k : List Const),
    Expr.LegalList ls (k.map (Const.relabel φ)) (Expr.relabelAll φ es) ↔ Expr.LegalList ls k es
  | [], _ => Iff.rfl
  | e :: es, k => by
    simp [relabelAll, LegalList, e.pool_relabel, legal_relabel ls e, legalList_relabel ls es]

end

theorem Expr.legal?_relabel (ls : List Local) (k : List Const) (e : Option Expr) :
    Expr.Legal? ls (k.map (Const.relabel φ)) (e.map (Expr.relabel φ)) ↔ Expr.Legal? ls k e := by
  cases e with
  | none => rfl
  | some e => exact e.legal_relabel ls k

theorem Variable.legal_relabel (v : Variable) (sc : Scope) (k : List Const) :
    (v.relabel φ).Legal sc (k.map (Const.relabel φ)) ↔ v.Legal sc k := by
  simp [relabel, Legal, Scope.pool_map, Expr.legal?_relabel]

theorem Initializer.legal_relabel (sc : Scope) (k : List Const) (first : Initializer) :
    (first.relabel φ).Legal sc (k.map (Const.relabel φ)) ↔ first.Legal sc k := by
  cases first with
  | none => rfl
  | var v => exact v.legal_relabel sc k
  | expression e line => exact e.legal_relabel sc.locals k

theorem Stmt.loopFits_relabel (condition : Option Code) (increment : Option (Code × Nat)) (body : Code) :
    LoopFits (condition.map (Code.relabel φ)) (increment.map fun c => (c.1.relabel φ, φ.line c.2))
      (body.relabel φ) ↔ LoopFits condition increment body := by
  have hIff (c : Option Code) (i : Option (Code × Nat)) (b : Code) : LoopFits c i b ↔
      (c.isSome → (stepCode (testSize c) 0 0 i).size + b.size + 4 ≤ maxDistance) ∧
      (∀ j line, i = some (j, line) → testSize c + j.size + 7 ≤ maxDistance) ∧
      backDistance (testSize c) b.size i ≤ maxDistance :=
    ⟨fun h => ⟨h.exit, h.step, h.back⟩, fun h => ⟨h.1, h.2.1, h.2.2⟩⟩
  rw [hIff, hIff]
  cases condition <;> cases increment <;> simp [stepCode, testSize, backDistance] <;> grind

mutual

theorem Stmt.legal_relabel {inFunction : Bool} : ∀ (s : Stmt) (sc : Scope) (k : List Const),
    (s.relabel φ).Legal inFunction sc (k.map (Const.relabel φ)) ↔ s.Legal inFunction sc k
  | .expression e _, sc, k | .print e _, sc, k => e.legal_relabel sc.locals k
  | .var v, sc, k => v.legal_relabel sc k
  | .function _ _ parameters body _, sc, k => by
    have hBody := @legalList_relabel true body (.function parameters) []
    have hPool := congrArg List.length (poolOfAll_relabel (φ := φ) body (.function parameters) [])
    rw [List.map_nil] at hBody hPool
    rw [List.length_map] at hPool
    simp [relabel, Legal, hBody, hPool]
  | .block body _, sc, k => legalList_relabel body sc.enter k
  | .ifThen e _ body, sc, k | .whileLoop e _ body, sc, k => by
    simp [relabel, Legal, e.legal_relabel, e.pool_relabel, e.code_relabel, legal_relabel body,
      body.code_relabel]
  | .ifElse e _ body other, sc, k => by
    simp [relabel, Legal, e.legal_relabel, e.pool_relabel, legal_relabel body, body.code_relabel,
      body.pool_relabel, legal_relabel other, other.code_relabel]
  | .forLoop first condition _ increment _ body, sc, k => by
    have hFits (k₁ k₂ k₃ : List Const) (sc' : Scope) :=
      loopFits_relabel (φ := φ) (condition.map fun e => e.code sc'.locals k₁)
        (increment.map fun e => (e.code sc'.locals k₂, e.endLine)) (body.code sc' k₃)
    simp only [Option.map_map, Function.comp_def] at hFits
    simp only [relabel, Legal, first.legal_relabel, first.scope_relabel, first.pool_relabel,
      Expr.legal?_relabel, Expr.pool?_relabel, legal_relabel body, body.code_relabel, Option.map_map,
      Function.comp_def, Expr.code_relabel, Expr.endLine_relabel, hFits]
  | .ret value _, sc, k => by simp [relabel, Legal, Expr.legal?_relabel]

theorem Stmt.legalList_relabel {inFunction : Bool} : ∀ (ss : List Stmt) (sc : Scope) (k : List Const),
    Stmt.LegalList inFunction sc (k.map (Const.relabel φ)) (Stmt.relabelAll φ ss) ↔
      Stmt.LegalList inFunction sc k ss
  | [], _, _ => Iff.rfl
  | s :: ss, sc, k => by
    simp [relabelAll, LegalList, s.scope_relabel, s.pool_relabel, legal_relabel s, legalList_relabel ss]

end

/-! ## Names -/

mutual

theorem Expr.proper_relabel : ∀ e : Expr, (e.relabel φ).Proper ↔ e.Proper
  | .nil _ | .bool _ _ | .number _ _ | .string _ _ | .name _ _ => Iff.rfl
  | .assign _ e | .group e _ | .unary _ e => by simp [relabel, Proper, proper_relabel e]
  | .binary _ a b | .and a b _ | .or a b _ => by
    simp [relabel, Proper, proper_relabel a, proper_relabel b]
  | .call e es _ => by simp [relabel, Proper, proper_relabel e, properList_relabel es]

theorem Expr.properList_relabel : ∀ es : List Expr,
    Expr.ProperList (Expr.relabelAll φ es) ↔ Expr.ProperList es
  | [] => Iff.rfl
  | e :: es => by simp [relabelAll, ProperList, proper_relabel e, properList_relabel es]

end

theorem Expr.proper?_relabel (e : Option Expr) :
    Expr.Proper? (e.map (Expr.relabel φ)) ↔ Expr.Proper? e := by
  cases e with
  | none => rfl
  | some e => exact e.proper_relabel

theorem Initializer.proper_relabel (first : Initializer) : (first.relabel φ).Proper ↔ first.Proper := by
  cases first <;> simp [relabel, Proper, Variable.Proper, Variable.relabel, Expr.proper?_relabel,
    Expr.proper_relabel]

mutual

theorem Stmt.proper_relabel : ∀ s : Stmt, (s.relabel φ).Proper ↔ s.Proper
  | .expression e _ | .print e _ => e.proper_relabel
  | .var v => by simp [relabel, Proper, Variable.Proper, Variable.relabel, Expr.proper?_relabel]
  | .function _ _ _ body _ | .block body _ => by simp [relabel, Proper, properList_relabel body]
  | .ifThen e _ body | .whileLoop e _ body => by
    simp [relabel, Proper, e.proper_relabel, proper_relabel body, body.declares_relabel]
  | .ifElse e _ body other => by
    simp [relabel, Proper, e.proper_relabel, proper_relabel body, body.declares_relabel,
      proper_relabel other, other.declares_relabel]
  | .forLoop first _ _ _ _ body => by
    simp [relabel, Proper, first.proper_relabel, Expr.proper?_relabel, proper_relabel body,
      body.declares_relabel]
  | .ret value _ => Expr.proper?_relabel value

theorem Stmt.properList_relabel : ∀ ss : List Stmt,
    Stmt.ProperList (Stmt.relabelAll φ ss) ↔ Stmt.ProperList ss
  | [] => Iff.rfl
  | s :: ss => by simp [relabelAll, ProperList, proper_relabel s, properList_relabel ss]

end

/-! ## Routines -/

namespace Routine

theorem pool_relabel (r : Routine) : (r.relabel φ).pool = r.pool.map (Const.relabel φ) :=
  Stmt.poolOfAll_relabel r.body r.scope []

theorem code_relabel (r : Routine) : (r.relabel φ).code = r.code.relabel φ := by
  have hBody := Stmt.codeOfAll_relabel (φ := φ) r.body r.scope []
  rw [List.map_nil] at hBody
  simp only [code, Code.relabel_append, ← hBody]
  rfl

theorem Legal.relabel {r : Routine} (h : r.Legal) : (r.relabel φ).Legal where
  body := (Stmt.legalList_relabel r.body r.scope []).2 h.body
  parameters := h.parameters
  distinct := h.distinct
  constants := by
    rw [pool_relabel, List.length_map]
    exact h.constants

theorem Proper.relabel {r : Routine} (h : r.Proper) : (r.relabel φ).Proper where
  script := h.script
  parameters := h.parameters
  body := (Stmt.properList_relabel r.body).2 h.body

end Routine

end Lox

import Lox.Proofs.Syntax.Code

/-!
# Uses of variables

Where the names in a tree stand in its code. A use is the offset of the instruction that reads the
variable, its name, and the locals in scope there; the uses of a routine are those of its body, without
what is inside of the functions declared there, which have code of their own. At each of them the code
reads what the name refers to (`Routine.uses_in`).
-/

set_option autoImplicit false

namespace Lox

/-- A use of a variable. -/
structure Use where
  offset : Nat
  name : String
  /-- The locals in scope, newest first. -/
  locals : List Local
deriving DecidableEq, Repr

namespace Expr

mutual
/-- The uses in an expression whose code starts at an offset. -/
def uses (ls : List Local) (k : List Const) (ip : Nat) : Expr → List Use
  | nil _ | bool _ _ | number _ _ | string _ _ => []
  | name n _ => [⟨ip, n, ls⟩]
  | assign n value => value.uses ls (Referent.pool ls k n) ip
  | group inner _ => inner.uses ls k ip
  | unary _ operand => operand.uses ls k ip
  | binary _ left right =>
    left.uses ls k ip ++ right.uses ls (left.pool ls k) (ip + (left.code ls k).size)
  | and left right _ =>
    left.uses ls k ip ++ right.uses ls (left.pool ls k) (ip + (left.code ls k).size + 4)
  | or left right _ =>
    left.uses ls k ip ++ right.uses ls (left.pool ls k) (ip + (left.code ls k).size + 7)
  | call callee arguments _ =>
    callee.uses ls k ip ++
      usesOfAll ls (callee.pool ls k) (ip + (callee.code ls k).size) arguments

/-- The uses in some expressions, one after the other. -/
def usesOfAll (ls : List Local) (k : List Const) (ip : Nat) : List Expr → List Use
  | [] => []
  | e :: es => e.uses ls k ip ++ usesOfAll ls (e.pool ls k) (ip + (e.code ls k).size) es
end

/-- The uses in an expression that may be missing. -/
def uses? (ls : List Local) (k : List Const) (ip : Nat) : Option Expr → List Use
  | none => []
  | some e => e.uses ls k ip

end Expr

/-- The uses in the declaration of a variable. -/
def Variable.uses (v : Variable) (sc : Scope) (k : List Const) (ip : Nat) : List Use :=
  Expr.uses? (sc.declaring v.name).locals (sc.pool k v.name) ip v.value

/-- The uses in a first clause. -/
def Initializer.uses (sc : Scope) (k : List Const) (ip : Nat) : Initializer → List Use
  | none => []
  | var v => v.uses sc k ip
  | expression e _ => e.uses sc.locals k ip

namespace Stmt

mutual
/-- The uses in a statement whose code starts at an offset. -/
def uses (sc : Scope) (k : List Const) (ip : Nat) : Stmt → List Use
  | expression e _ | print e _ => e.uses sc.locals k ip
  | var v => v.uses sc k ip
  | function _ _ _ _ _ => []
  | block body _ => usesOfAll sc.enter k ip body
  | ifThen condition _ body | whileLoop condition _ body =>
    condition.uses sc.locals k ip ++
      body.uses sc (condition.pool sc.locals k) (ip + (condition.code sc.locals k).size + 4)
  | ifElse condition _ body other =>
    let k' := condition.pool sc.locals k
    let start := ip + (condition.code sc.locals k).size + 4
    condition.uses sc.locals k ip ++ body.uses sc k' start ++
      other.uses sc (body.pool sc k') (start + (body.code sc k').size + 4)
  | forLoop first condition semicolonLine increment parenLine body =>
    let inner := first.scope sc.enter
    let k₁ := first.pool sc.enter k
    let k₂ := Expr.pool? inner.locals k₁ condition
    let k₃ := Expr.pool? inner.locals k₂ increment
    let start := ip + (first.code sc.enter k).size
    let test := testSize (condition.map fun e => e.code inner.locals k₁)
    let step := stepCode test semicolonLine parenLine
      (increment.map fun e => (e.code inner.locals k₂, e.endLine))
    first.uses sc.enter k ip ++ Expr.uses? inner.locals k₁ start condition ++
      Expr.uses? inner.locals k₂ (start + test + 3) increment ++
      body.uses inner k₃ (start + test + step.size)
  | ret value _ => Expr.uses? sc.locals k ip value

/-- The uses in some declarations, one after the other. -/
def usesOfAll (sc : Scope) (k : List Const) (ip : Nat) : List Stmt → List Use
  | [] => []
  | s :: ss => s.uses sc k ip ++ usesOfAll (s.scope sc) (s.pool sc k) (ip + (s.code sc k).size) ss
end

end Stmt

/-- The uses in a routine. -/
def Routine.uses (r : Routine) : List Use := Stmt.usesOfAll r.scope [] 0 r.body

namespace Use

/-- No local in scope has the name that is used. -/
def Free (u : Use) : Prop := ∀ l ∈ u.locals, l.name ≠ u.name

instance (u : Use) : Decidable u.Free := inferInstanceAs (Decidable (∀ l ∈ u.locals, l.name ≠ u.name))

/-- Some code reads at a use what the name refers to, and the name is among some constants if it is that
of a global. -/
def In (whole : Code) (pool : List Const) (u : Use) : Prop :=
  ∃ k line, whole.At u.offset ((Referent.of u.locals k u.name).get line) ∧
    Referent.pool u.locals k u.name <+: pool

theorem resolve?_eq_none {name : String} :
    ∀ {ls : List Local}, (∀ l ∈ ls, l.name ≠ name) → Draft.resolve? name ls = none
  | [], _ => rfl
  | l :: ls, h => by
    rw [Draft.resolve?, if_neg (h l List.mem_cons_self)]
    exact resolve?_eq_none fun l' hl' => h l' (List.mem_cons_of_mem _ hl')

/-- At a use that no local shadows the code reads the global of the name. -/
theorem In.global {whole : Code} {pool : List Const} {u : Use} (h : u.In whole pool) (hFree : u.Free) :
    ∃ index line, whole.At u.offset (.one .getGlobal index line) ∧
      pool[index]? = some (.string u.name) := by
  obtain ⟨k, line, hAt, hPool⟩ := h
  have hNone := resolve?_eq_none hFree
  rw [Referent.of, hNone] at hAt
  rw [Referent.pool, hNone] at hPool
  exact ⟨_, line, hAt, Const.getElem?_of_prefix hPool (Const.getElem?_withName k u.name)⟩

end Use

/-! ## The code at uses -/

section

variable {whole : Code} {pool : List Const} {u : Use}

mutual

theorem Expr.uses_in {ls : List Local} : ∀ (e : Expr) {k : List Const} {ip : Nat},
    whole.At ip (e.code ls k) → e.pool ls k <+: pool → u ∈ e.uses ls k ip → u.In whole pool
  | .nil _, _, _, _, _, hu | .bool _ _, _, _, _, _, hu | .number _ _, _, _, _, _, hu
  | .string _ _, _, _, _, _, hu => absurd hu List.not_mem_nil
  | .name n line, k, _, hAt, hPool, hu => by
    cases List.mem_singleton.1 hu
    exact ⟨k, line, hAt, hPool⟩
  | .assign _ value, _, _, hAt, hPool, hu => value.uses_in hAt.left hPool hu
  | .group inner _, _, _, hAt, hPool, hu => inner.uses_in hAt hPool hu
  | .unary _ operand, _, _, hAt, hPool, hu => operand.uses_in hAt.left hPool hu
  | .binary _ left right, _, _, hAt, hPool, hu => by
    rcases List.mem_append.1 hu with hu | hu
    · exact left.uses_in hAt.left.left ((right.prefix_pool ls _).trans hPool) hu
    · exact right.uses_in hAt.left.right hPool hu
  | .and left right _, _, _, hAt, hPool, hu => by
    rcases List.mem_append.1 hu with hu | hu
    · exact left.uses_in hAt.left.left.left ((right.prefix_pool ls _).trans hPool) hu
    · exact right.uses_in (hAt.right.of_eq (by simp [Opcode.operandSize, Nat.add_assoc])) hPool hu
  | .or left right _, _, _, hAt, hPool, hu => by
    rcases List.mem_append.1 hu with hu | hu
    · exact left.uses_in hAt.left.left.left.left ((right.prefix_pool ls _).trans hPool) hu
    · exact right.uses_in (hAt.right.of_eq (by simp [Opcode.operandSize, Nat.add_assoc])) hPool hu
  | .call callee arguments _, _, _, hAt, hPool, hu => by
    rcases List.mem_append.1 hu with hu | hu
    · exact callee.uses_in hAt.left.left ((Expr.prefix_poolOfAll ls arguments _).trans hPool) hu
    · exact Expr.usesOfAll_in arguments hAt.left.right hPool hu

theorem Expr.usesOfAll_in {ls : List Local} : ∀ (es : List Expr) {k : List Const} {ip : Nat},
    whole.At ip (Expr.codeOfAll ls k es) → Expr.poolOfAll ls k es <+: pool →
    u ∈ Expr.usesOfAll ls k ip es → u.In whole pool
  | [], _, _, _, _, hu => absurd hu List.not_mem_nil
  | e :: es, _, _, hAt, hPool, hu => by
    rcases List.mem_append.1 hu with hu | hu
    · exact e.uses_in hAt.left ((Expr.prefix_poolOfAll ls es _).trans hPool) hu
    · exact Expr.usesOfAll_in es hAt.right hPool hu

end

theorem Variable.uses_in (v : Variable) {sc : Scope} {k : List Const} {ip : Nat}
    (hAt : whole.At ip (v.code sc k)) (hPool : v.pool sc k <+: pool) (hu : u ∈ v.uses sc k ip) :
    u.In whole pool := by
  unfold Variable.uses at hu
  unfold Variable.code at hAt
  unfold Variable.pool at hPool
  cases hValue : v.value with
  | none =>
    rw [hValue] at hu
    exact absurd hu List.not_mem_nil
  | some e =>
    rw [hValue] at hu hAt hPool
    exact e.uses_in hAt.left hPool hu

theorem Initializer.uses_in {sc : Scope} {k : List Const} {ip : Nat} :
    ∀ first : Initializer, whole.At ip (first.code sc k) → first.pool sc k <+: pool →
      u ∈ first.uses sc k ip → u.In whole pool
  | .none, _, _, hu => absurd hu List.not_mem_nil
  | .var v, hAt, hPool, hu => v.uses_in hAt hPool hu
  | .expression e _, hAt, hPool, hu => e.uses_in hAt.left hPool hu

/-- The parts of a loop: the condition, the increment and the body. -/
theorem Stmt.loopCode_at {condition : Option Code} {increment : Option (Code × Nat)} {body : Code}
    {semicolonLine parenLine bodyLine ip : Nat}
    (h : whole.At ip (Stmt.loopCode condition semicolonLine increment parenLine body bodyLine)) :
    (∀ c, condition = some c → whole.At ip c) ∧
    (∀ c, increment = some c → whole.At (ip + Stmt.testSize condition + 3) c.1) ∧
    whole.At (ip + Stmt.testSize condition +
      (Stmt.stepCode (Stmt.testSize condition) semicolonLine parenLine increment).size) body := by
  have hBefore := h.left.left
  refine ⟨?_, ?_, hBefore.right.of_eq (by simp [Stmt.size_testCode, Nat.add_assoc])⟩
  · rintro c rfl
    exact hBefore.left.left.left.left
  · rintro c rfl
    exact hBefore.left.right.left.left.right.of_eq (by simp [Stmt.size_testCode, Opcode.operandSize])

mutual

theorem Stmt.uses_in : ∀ (s : Stmt) {sc : Scope} {k : List Const} {ip : Nat},
    whole.At ip (s.code sc k) → s.pool sc k <+: pool → u ∈ s.uses sc k ip → u.In whole pool
  | .expression e _, _, _, _, hAt, hPool, hu | .print e _, _, _, _, hAt, hPool, hu =>
    e.uses_in hAt.left hPool hu
  | .var v, _, _, _, hAt, hPool, hu => v.uses_in hAt hPool hu
  | .function _ _ _ _ _, _, _, _, _, _, hu => absurd hu List.not_mem_nil
  | .block body _, _, _, _, hAt, hPool, hu => Stmt.usesOfAll_in body hAt.left hPool hu
  | .ifThen condition _ body, sc, _, _, hAt, hPool, hu
  | .whileLoop condition _ body, sc, _, _, hAt, hPool, hu => by
    rcases List.mem_append.1 hu with hu | hu
    · exact condition.uses_in hAt.left.left.left.left.left ((body.prefix_pool sc _).trans hPool) hu
    · exact body.uses_in (hAt.left.left.right.of_eq (by simp [Opcode.operandSize, Nat.add_assoc])) hPool hu
  | .ifElse condition _ body other, sc, _, _, hAt, hPool, hu => by
    have hBody := (other.prefix_pool sc _).trans hPool
    rcases List.mem_append.1 hu with hu | hu
    · rcases List.mem_append.1 hu with hu | hu
      · exact condition.uses_in hAt.left.left.left.left.left.left
          ((body.prefix_pool sc _).trans hBody) hu
      · exact body.uses_in (hAt.left.left.left.right.of_eq (by simp [Opcode.operandSize, Nat.add_assoc])) hBody hu
    · refine other.uses_in (hAt.right.of_eq ?_) hPool hu
      simp only [Code.size_append, Code.size_one, Code.size_op, Opcode.operandSize]
      omega
  | .forLoop first condition _ increment _ body, sc, _, _, hAt, hPool, hu => by
    obtain ⟨hTest, hStep, hBody⟩ := Stmt.loopCode_at hAt.left.right
    have hPool₃ := (body.prefix_pool _ _).trans hPool
    have hPool₂ := (Expr.prefix_pool? _ _ increment).trans hPool₃
    have hPool₁ := (Expr.prefix_pool? _ _ condition).trans hPool₂
    simp only [Stmt.uses, List.mem_append] at hu
    rcases hu with ((hu | hu) | hu) | hu
    · exact first.uses_in hAt.left.left hPool₁ hu
    · cases condition with
      | none => exact absurd hu List.not_mem_nil
      | some e => exact e.uses_in (hTest _ rfl) hPool₂ hu
    · cases increment with
      | none => exact absurd hu List.not_mem_nil
      | some e => exact e.uses_in (hStep _ rfl) hPool₃ hu
    · exact body.uses_in hBody hPool hu
  | .ret none _, _, _, _, _, _, hu => absurd hu List.not_mem_nil
  | .ret (some e) _, _, _, _, hAt, hPool, hu => e.uses_in hAt.left hPool hu

theorem Stmt.usesOfAll_in : ∀ (ss : List Stmt) {sc : Scope} {k : List Const} {ip : Nat},
    whole.At ip (Stmt.codeOfAll sc k ss) → Stmt.poolOfAll sc k ss <+: pool →
    u ∈ Stmt.usesOfAll sc k ip ss → u.In whole pool
  | [], _, _, _, _, _, hu => absurd hu List.not_mem_nil
  | s :: ss, _, _, _, hAt, hPool, hu => by
    rcases List.mem_append.1 hu with hu | hu
    · exact s.uses_in hAt.left ((Stmt.prefix_poolOfAll ss _ _).trans hPool) hu
    · exact Stmt.usesOfAll_in ss hAt.right hPool hu

end

/-- At each use the code of a routine reads what the name refers to. -/
theorem Routine.uses_in {r : Routine} (hu : u ∈ r.uses) : u.In r.code r.pool := by
  have hWhole : r.code.At 0 r.code := ⟨[], [], by simp, rfl⟩
  exact Stmt.usesOfAll_in r.body hWhole.left.left (List.prefix_refl _) hu

end

end Lox

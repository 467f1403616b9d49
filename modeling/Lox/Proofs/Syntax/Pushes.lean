import Lox.Proofs.Syntax.Places

/-!
# Where constants are pushed

A construct pushes only the constants that it adds itself (`Stmt.pushes`). So the constant of a function
is pushed at one place only, its declaration; at the top level of a script the instruction behind it
defines the global (`Routine.DerivesScript.define_behind`).
-/

set_option autoImplicit false

namespace Lox

namespace Code

/-- Some code pushes no constants but those from one index up to another. -/
def Pushes (low high : Nat) (c : Code) : Prop :=
  ∀ x ∈ c, x.1.op = .constant → low ≤ x.1.operand ∧ x.1.operand < high

namespace Pushes

variable {low low' high high' : Nat} {c c' : Code}

theorem append (h : Pushes low high c) (h' : Pushes low high c') : Pushes low high (c ++ c') := by
  intro x hx
  rcases List.mem_append.1 hx with hx | hx
  · exact h x hx
  · exact h' x hx

theorem widen (h : Pushes low high c) (hLow : low' ≤ low) (hHigh : high ≤ high') :
    Pushes low' high' c := fun x hx hOp =>
  ⟨hLow.trans (h x hx hOp).1, (h x hx hOp).2.trans_le hHigh⟩

theorem one {o : Opcode} {n line : Nat} (h : o ≠ .constant := by decide) :
    Pushes low high (.one o n line) := by
  intro x hx hOp
  cases List.mem_singleton.1 hx
  exact absurd hOp h

theorem constant {i line : Nat} (hLow : low ≤ i) (hHigh : i < high) :
    Pushes low high (.one .constant i line) := by
  intro x hx _
  cases List.mem_singleton.1 hx
  exact ⟨hLow, hHigh⟩

theorem nil : Pushes low high [] := fun _ hx => absurd hx List.not_mem_nil

theorem get (line : Nat) (r : Referent) : Pushes low high (r.get line) := by
  cases r with
  | slot n => exact .one
  | global index => exact .one

theorem set (line : Nat) (r : Referent) : Pushes low high (r.set line) := by
  cases r with
  | slot n => exact .one
  | global index => exact .one

theorem drops (count line : Nat) : Pushes low high (Stmt.drops count line) := by
  intro x hx hOp
  obtain ⟨-, rfl⟩ := List.mem_replicate.1 hx
  cases hOp

theorem define (sc : Scope) (k : List Const) (name : String) (line : Nat) :
    Pushes low high (sc.define k name line) := by
  unfold Scope.define
  split
  · exact .one
  · exact nil

end Pushes

end Code

open Code (Pushes)

theorem BinaryOperator.ne_constant (op : BinaryOperator) {o : Opcode} (h : o ∈ op.opcodes) :
    o ≠ .constant := by
  rintro rfl
  cases op <;> simp [BinaryOperator.opcodes] at h

theorem BinaryOperator.pushes {low high : Nat} (op : BinaryOperator) (line : Nat) :
    Pushes low high (op.opcodes.flatMap fun o => Code.op o line) := by
  intro x hx
  obtain ⟨o, ho, hx⟩ := List.mem_flatMap.1 hx
  exact Pushes.one (op.ne_constant ho) x hx

mutual

theorem Expr.pushes (ls : List Local) : ∀ (e : Expr) (k : List Const),
    Pushes k.length (e.pool ls k).length (e.code ls k)
  | .nil line, _ => .one
  | .bool true line, _ | .bool false line, _ => .one
  | .number _ _, _ | .string _ _, _ => .constant le_rfl (by simp [Expr.pool])
  | .name _ line, _ => .get line _
  | .assign n value, k =>
    ((value.pushes ls _).widen (Referent.prefix_pool ls k n).length_le le_rfl).append (.set _ _)
  | .group inner _, k => inner.pushes ls k
  | .unary op operand, k => (operand.pushes ls k).append (.one (by cases op <;> decide))
  | .binary op left right, k =>
    (((left.pushes ls k).widen le_rfl (right.prefix_pool ls _).length_le).append
      ((right.pushes ls _).widen (left.prefix_pool ls k).length_le le_rfl)).append (op.pushes _)
  | .and left right line, k =>
    ((((left.pushes ls k).widen le_rfl (right.prefix_pool ls _).length_le).append
      .one).append .one).append
      ((right.pushes ls _).widen (left.prefix_pool ls k).length_le le_rfl)
  | .or left right line, k =>
    (((((left.pushes ls k).widen le_rfl (right.prefix_pool ls _).length_le).append
      .one).append .one).append .one).append
      ((right.pushes ls _).widen (left.prefix_pool ls k).length_le le_rfl)
  | .call callee arguments line, k =>
    (((callee.pushes ls k).widen le_rfl (Expr.prefix_poolOfAll ls arguments _).length_le).append
      ((Expr.pushesOfAll ls arguments _).widen (callee.prefix_pool ls k).length_le le_rfl)).append
      .one

theorem Expr.pushesOfAll (ls : List Local) : ∀ (es : List Expr) (k : List Const),
    Pushes k.length (Expr.poolOfAll ls k es).length (Expr.codeOfAll ls k es)
  | [], _ => .nil
  | e :: es, k =>
    ((e.pushes ls k).widen le_rfl (Expr.prefix_poolOfAll ls es _).length_le).append
      ((Expr.pushesOfAll ls es _).widen (e.prefix_pool ls k).length_le le_rfl)

end

theorem Variable.pushes (v : Variable) (sc : Scope) (k : List Const) :
    Pushes k.length (v.pool sc k).length (v.code sc k) := by
  refine Pushes.append ?_ (.define _ _ _ _)
  unfold Variable.pool
  cases v.value with
  | none => exact .one
  | some e => exact (e.pushes _ _).widen (sc.prefix_pool k v.name).length_le le_rfl

theorem Initializer.pushes (sc : Scope) (k : List Const) :
    ∀ first : Initializer, Pushes k.length (first.pool sc k).length (first.code sc k)
  | .none => .nil
  | .var v => v.pushes sc k
  | .expression e line => (e.pushes sc.locals k).append .one

/-- A loop pushes the constants of its parts. -/
theorem Stmt.pushes_loopCode {low high semicolonLine parenLine bodyLine : Nat}
    {condition : Option Code} {increment : Option (Code × Nat)} {body : Code}
    (hCondition : ∀ c, condition = some c → Pushes low high c)
    (hIncrement : ∀ c, increment = some c → Pushes low high c.1) (hBody : Pushes low high body) :
    Pushes low high
      (Stmt.loopCode condition semicolonLine increment parenLine body bodyLine) := by
  refine Pushes.append (Pushes.append (Pushes.append (Pushes.append ?_ ?_) hBody)
    .one) ?_
  · cases condition with
    | none => exact .nil
    | some c => exact ((hCondition c rfl).append .one).append .one
  · cases increment with
    | none => exact .nil
    | some c =>
      exact ((Pushes.append .one (hIncrement c rfl)).append .one).append
        .one
  · split
    · exact .one
    · exact .nil

mutual

theorem Stmt.pushes : ∀ (s : Stmt) (sc : Scope) (k : List Const),
    Pushes k.length (s.pool sc k).length (s.code sc k)
  | .expression e line, sc, k | .print e line, sc, k =>
    (e.pushes sc.locals k).append .one
  | .var v, sc, k => v.pushes sc k
  | .function _ name _ _ _, sc, k =>
    (Pushes.constant (sc.prefix_pool k name).length_le (by simp [Stmt.pool])).append (.define _ _ _ _)
  | .block body _, sc, k => (Stmt.pushesOfAll body sc.enter k).append (.drops _ _)
  | .ifThen condition _ body, sc, k | .whileLoop condition _ body, sc, k =>
    (((((condition.pushes sc.locals k).widen le_rfl (body.prefix_pool sc _).length_le).append
      .one).append .one).append
      ((body.pushes sc _).widen (condition.prefix_pool sc.locals k).length_le le_rfl)).append
      .one |>.append .one
  | .ifElse condition _ body other, sc, k => by
    have hCondition := (condition.prefix_pool sc.locals k).length_le
    have hBody := (body.prefix_pool sc (condition.pool sc.locals k)).length_le
    have hOther := (other.prefix_pool sc (body.pool sc (condition.pool sc.locals k))).length_le
    refine Pushes.append (Pushes.append (Pushes.append (Pushes.append (Pushes.append (Pushes.append
      ?_ .one) .one) ?_) .one) .one) ?_
    · exact (condition.pushes sc.locals k).widen le_rfl (hBody.trans hOther)
    · exact (body.pushes sc _).widen hCondition hOther
    · exact (other.pushes sc _).widen (hCondition.trans hBody) le_rfl
  | .forLoop first condition _ increment _ body, sc, k => by
    have h₁ := (first.prefix_pool sc.enter k).length_le
    have h₂ := (Expr.prefix_pool? (first.scope sc.enter).locals (first.pool sc.enter k)
      condition).length_le
    have h₃ := (Expr.prefix_pool? (first.scope sc.enter).locals
      (Expr.pool? (first.scope sc.enter).locals (first.pool sc.enter k) condition)
      increment).length_le
    have h₄ := (body.prefix_pool (first.scope sc.enter) (Expr.pool? (first.scope sc.enter).locals
      (Expr.pool? (first.scope sc.enter).locals (first.pool sc.enter k) condition)
      increment)).length_le
    refine (Pushes.append ?_ (Stmt.pushes_loopCode ?_ ?_ ?_)).append (.drops _ _)
    · exact (first.pushes sc.enter k).widen le_rfl (h₂.trans (h₃.trans h₄))
    · intro c hc
      obtain ⟨e, rfl, rfl⟩ := Option.map_eq_some_iff.1 hc
      exact (e.pushes _ _).widen h₁ (h₃.trans h₄)
    · intro c hc
      obtain ⟨e, rfl, rfl⟩ := Option.map_eq_some_iff.1 hc
      exact (e.pushes _ _).widen (h₁.trans h₂) h₄
    · exact (body.pushes _ _).widen (h₁.trans (h₂.trans h₃)) le_rfl
  | .ret none _, _, _ => .append .one .one
  | .ret (some e) _, sc, k => (e.pushes sc.locals k).append .one

theorem Stmt.pushesOfAll : ∀ (ss : List Stmt) (sc : Scope) (k : List Const),
    Pushes k.length (Stmt.poolOfAll sc k ss).length (Stmt.codeOfAll sc k ss)
  | [], _, _ => .nil
  | s :: ss, sc, k =>
    ((s.pushes sc k).widen le_rfl (Stmt.prefix_poolOfAll ss _ _).length_le).append
      ((Stmt.pushesOfAll ss _ _).widen (s.prefix_pool sc k).length_le le_rfl)

end

/-! ## The declaration of a function -/

theorem Stmt.poolOfAll_append (sc : Scope) (k : List Const) (ss ss' : List Stmt) :
    Stmt.poolOfAll sc k (ss ++ ss') =
      Stmt.poolOfAll (Stmt.scopeOfAll sc ss) (Stmt.poolOfAll sc k ss) ss' := by
  induction ss generalizing sc k with
  | nil => rfl
  | cons s ss ih => exact ih (s.scope sc) (s.pool sc k)

theorem Stmt.codeOfAll_append (sc : Scope) (k : List Const) (ss ss' : List Stmt) :
    Stmt.codeOfAll sc k (ss ++ ss') = Stmt.codeOfAll sc k ss ++
      Stmt.codeOfAll (Stmt.scopeOfAll sc ss) (Stmt.poolOfAll sc k ss) ss' := by
  induction ss generalizing sc k with
  | nil => rfl
  | cons s ss ih =>
    simp only [List.cons_append, Stmt.codeOfAll, ih, List.append_assoc]
    rfl

theorem Code.size_eq_of_map_fst {c c' : Code} (h : c.map Prod.fst = c'.map Prod.fst) :
    c.size = c'.size := by
  have hSize (c : Code) : c.size = ((c.map Prod.fst).map Instruction.size).sum := by
    rw [List.map_map]
    rfl
  rw [hSize, hSize, h]

/-- What stands behind the one instruction that pushes a constant. -/
theorem Code.At.behind_push {before c behind : Code} {i high ip line line' : Nat}
    (hBefore : Pushes 0 i before) (hBehind : Pushes (i + 1) high (c ++ behind))
    (hAt : Code.At (before ++ (.one .constant i line' ++ c) ++ behind) ip [(⟨.constant, i⟩, line)]) :
    Code.At (before ++ (.one .constant i line' ++ c) ++ behind) (ip + 2) c := by
  obtain ⟨before', behind', hEq, rfl⟩ := hAt
  have hNot {d : Code} {low high : Nat} (hd : Pushes low high d) (hi : ¬ (low ≤ i ∧ i < high)) :
      (⟨.constant, i⟩ : Instruction) ∉ d.map Prod.fst := by
    intro hMem
    obtain ⟨x, hx, hFst⟩ := List.mem_map.1 hMem
    have hRange := hd x hx (by rw [hFst])
    rw [hFst] at hRange
    exact hi hRange
  -- lines may differ, so the split is found among the instructions alone
  have hMap : before.map Prod.fst ++ ⟨.constant, i⟩ :: (c ++ behind).map Prod.fst =
      before'.map Prod.fst ++ ⟨.constant, i⟩ :: behind'.map Prod.fst := by
    simpa [Code.one] using congrArg (List.map Prod.fst) hEq
  obtain ⟨hSame, -⟩ := (List.append_cons_inj_of_notMem (hNot hBefore (by omega))
    (hNot hBehind (by omega))).1 hMap
  refine ⟨before ++ .one .constant i line', behind, by simp, ?_⟩
  rw [← Code.size_eq_of_map_fst hSame]
  simp [Opcode.operandSize]

/-- The constant of a function that is declared at the top level of a script is pushed just before the
global is defined. -/
theorem Routine.DerivesScript.define_behind {r : Routine} {ts : List Token} (hd : r.DerivesScript ts)
    {place : Nat} {name : String} {parameters : List String} {body : List Stmt} {line : Nat}
    (hMem : .function place name parameters body line ∈ r.body) {i : Nat}
    (hi : r.pool[i]? = some (.function ⟨place, some name, parameters, body, line⟩)) {ip line' : Nat}
    (hAt : r.code.At ip [(⟨.constant, i⟩, line')]) :
    ∃ index, r.code.At (ip + 2) (.one .defineGlobal index line) ∧
      r.pool[index]? = some (.string name) := by
  obtain ⟨before, behind, hBody⟩ := List.append_of_mem hMem
  have hDepth : (Stmt.scopeOfAll r.scope before).depth = 0 := by
    rw [Stmt.depth_scopeOfAll]
    obtain ⟨-, -⟩ := hd
    rfl
  generalize hScope : Stmt.scopeOfAll r.scope before = sc at hDepth
  generalize hk : Stmt.poolOfAll r.scope [] before = k
  have hPool : r.pool = Stmt.poolOfAll (sc.declare name)
      (sc.pool k name ++ [.function ⟨place, some name, parameters, body, line⟩]) behind := by
    rw [Routine.pool, hBody, Stmt.poolOfAll_append, hScope, hk]
    rfl
  have hPrefix : sc.pool k name ++ [.function ⟨place, some name, parameters, body, line⟩] <+: r.pool :=
    hPool ▸ Stmt.prefix_poolOfAll ..
  -- the function has one place, so its constant is the one that the declaration adds
  obtain rfl : i = (sc.pool k name).length := by
    have hAdded := Const.getElem?_of_prefix hPrefix List.getElem?_concat_length
    have hPlace : place ∈ Routine.places ⟨place, some name, parameters, body, line⟩ :=
      List.mem_append_right _ (List.mem_singleton_self _)
    exact hd.apart hi hAdded hPlace hPlace
  have hCode : r.code = Stmt.codeOfAll r.scope [] before ++
      (.one .constant (sc.pool k name).length line ++ sc.define k name line) ++
      (Stmt.codeOfAll (sc.declare name) (sc.pool k name ++
        [.function ⟨place, some name, parameters, body, line⟩]) behind ++
        .op .pushNil r.line ++ .op .ret r.line) := by
    rw [Routine.code, hBody, Stmt.codeOfAll_append, hScope, hk, Stmt.codeOfAll]
    simp [Stmt.code, Stmt.scope, Stmt.pool]
  have hDefine : r.code.At (ip + 2) (sc.define k name line) := by
    have hBefore := (Stmt.pushesOfAll before r.scope []).widen (Nat.zero_le _)
      (sc.prefix_pool _ name).length_le
    rw [hk] at hBefore
    have hBehind := Stmt.pushesOfAll behind (sc.declare name)
      (sc.pool k name ++ [.function ⟨place, some name, parameters, body, line⟩])
    rw [List.length_append, List.length_singleton] at hBehind
    rw [hCode] at hAt ⊢
    exact Code.At.behind_push hBefore
      (Pushes.append (.define _ _ _ _) ((hBehind.append .one).append .one)) hAt
  rw [Scope.define, if_pos hDepth] at hDefine
  refine ⟨_, hDefine, Const.getElem?_of_prefix ((List.prefix_append ..).trans hPrefix) ?_⟩
  rw [Scope.pool, if_pos hDepth]
  exact Const.getElem?_withName k name

end Lox

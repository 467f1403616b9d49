import Lox.Proofs.Semantics.Expressions

/-!
# Statements and calls

The code of a statement follows its execution (`Stmt.follows`): behind it, the variables in scope are in
their slots and nothing is above them; where the statement returns, the run stands at a return with the
result on top. A loop follows its rounds one by one, and each takes a step. So do calls, one unit of the
clock at a time (`calls`).
-/

set_option autoImplicit false

namespace Lox

open Machine
open Lox.Parser (maxArguments maxDistance maxLocals)

/-! ## Ends of statements -/

/-- A statement has come to its end: at an offset, or at a return. -/
def Call.Ends {u : Setup} (c : Call u) (sc : Scope) (ip : Nat) (end_ : Completion) (s : State)
    (m : Machine) (frame : Frame) : Prop :=
  match end_ with
  | .normal => frame = c.frame ip ∧ m.Runs c sc s []
  | .returned d => ∃ ip' line sc', c.routine.code.At ip' (.op .ret line) ∧ frame = c.frame ip' ∧
      m.Runs c sc' s [d]

section

variable {u : Setup} {c : Call u} {sc sc' : Scope} {clock : Nat} {m : Machine} {s : State}
  {ds : List Datum} {frame : Frame} {ip ip' line : Nat}

theorem Machine.Follows.ends {r : EStateM.Result Stop State Completion}
    (h : Follows u clock (c.Ends sc ip) m frame r) (hIp : ip' = ip) :
    Follows u clock (c.Ends sc ip') m frame r := hIp ▸ h

/-- One after the other. -/
theorem Machine.Follows.andThen {x y : Eval Completion} (h : Follows u clock (c.Ends sc ip) m frame (x s))
    (k : ∀ s' m', m'.Runs c sc s' [] → Follows u clock (c.Ends sc' ip') m' (c.frame ip) (y s')) :
    Follows u clock (c.Ends sc' ip') m frame (Eval.andThen x y s) := by
  refine h.bind ?_
  rintro (_ | d) s' m' frame' hEnds
  · obtain ⟨rfl, hm⟩ := hEnds
    exact k s' m' hm
  · exact .ok hEnds

/-- Instructions behind a statement that has come to its end. -/
theorem Machine.Follows.closing {r : EStateM.Result Stop State Completion}
    (h : Follows u clock (c.Ends sc ip) m frame r)
    (k : ∀ s' m', m'.Runs c sc s' [] →
      Follows u clock (c.Ends sc' ip') m' (c.frame ip) (.ok .normal s')) :
    Follows u clock (c.Ends sc' ip') m frame r := by
  cases r with
  | ok completion s =>
    refine Reaches.bind h ?_
    cases completion with
    | normal =>
      rintro m' _ ⟨rfl, hm⟩
      exact k s m' hm
    | returned d => exact fun m' frame' hEnds => .here hEnds
  | error stop s => cases stop <;> exact h

/-! ## Scopes -/

namespace Environment

theorem depth_locals {env : Environment} {l : Local} (hl : l ∈ env.locals) : l.depth ≤ env.length := by
  induction env with
  | nil => simp_all [locals]
  | cons vs env ih =>
    rcases List.mem_append.1 hl with hl | hl
    · obtain ⟨v, -, rfl⟩ := List.mem_map.1 hl
      exact le_rfl
    · exact (ih hl).trans (Nat.le_succ _)

/-- Where a scope was entered and the compiler knows the same locals outside of it, it is left to the same
scope. -/
theorem scope_tail {env env' : Environment} {sc : Scope} {inner : List Local} (hScope : env'.scope = sc)
    (hLocals : sc.locals = inner ++ env.locals) (hDepth : sc.depth = env.length + 1)
    (hInner : ∀ l ∈ inner, env.length < l.depth) :
    ∃ (vs : Variables) (env₁ : Environment), env' = vs :: env₁ ∧ env₁.scope = env.scope ∧
      vs.length = inner.length := by
  subst hScope
  cases env' with
  | nil => exact absurd hDepth (Nat.zero_ne_add_one _)
  | cons vs env₁ =>
    have hLength : env₁.length = env.length := Nat.succ.inj hDepth
    -- the locals of the innermost scope are those that are deeper than the others
    have hFilter := congrArg (List.filter fun l => env.length < l.depth) hLocals
    have hNone {e : Environment} (he : e.length = env.length) :
        e.locals.filter (fun l => env.length < l.depth) = [] := by
      refine List.filter_eq_nil_iff.2 fun l hl => ?_
      have := depth_locals hl
      simp only [decide_eq_true_eq]
      omega
    have hAll : (vs.map fun v => (⟨v.1, env₁.length + 1, true⟩ : Local)).filter
        (fun l => env.length < l.depth) = vs.map fun v => ⟨v.1, env₁.length + 1, true⟩ := by
      refine List.filter_eq_self.2 fun l hl => ?_
      obtain ⟨v, -, rfl⟩ := List.mem_map.1 hl
      simp only [decide_eq_true_eq]
      omega
    have hAll' : inner.filter (fun l => env.length < l.depth) = inner :=
      List.filter_eq_self.2 fun l hl => by simpa using hInner l hl
    simp only [scope, locals, List.filter_append, hAll, hAll', hNone hLength, hNone rfl,
      List.append_nil] at hFilter hLocals
    refine ⟨vs, env₁, rfl, ?_, by rw [← hFilter, List.length_map]⟩
    rw [hFilter] at hLocals
    unfold scope
    rw [List.append_cancel_left hLocals, hLength]

end Environment

namespace Machine.Runs

theorem enter (hm : m.Runs c sc s []) : m.Runs c sc.enter { s with scopes := [] :: s.scopes } [] :=
  { toMirrors := hm.toMirrors.congr rfl rfl rfl rfl rfl rfl rfl
    grown := hm.grown
    stack := hm.stack
    callers := hm.callers
    calls := hm.calls
    scope := by rw [← hm.scope]; rfl }

/-- The variables of a scope that is left are data above those outside of it. -/
theorem leave (hm : m.Runs c sc s []) {vs : Variables} {env : Environment} (hs : s.scopes = vs :: env)
    (hScope : env.scope = sc') :
    m.Runs c sc' { s with scopes := env } (vs.map Prod.snd).reverse :=
  { toMirrors := hm.toMirrors.congr rfl rfl rfl rfl rfl rfl rfl
    grown := hm.grown
    stack := by
      have hStack := hm.stack
      rw [hs, List.append_nil] at hStack
      simpa [Environment.values] using hStack
    callers := hm.callers
    calls := hm.calls
    scope := hScope }

theorem drops {α : Type} {Q : α → State → Machine → Frame → Prop} {r : EStateM.Result Stop State α}
    (hm : m.Runs c sc s ds) (hAt : c.routine.code.At ip (Stmt.drops ds.length line))
    (k : ∀ m', m'.Runs c sc s [] → Follows u clock Q m' (c.frame (ip + ds.length)) r) :
    Follows u clock Q m (c.frame ip) r := by
  induction ds using List.reverseRecOn generalizing m ip with
  | nil => exact k m hm
  | append_singleton ds d ih =>
    rw [List.length_append, List.length_singleton] at hAt k
    have hAt' : c.routine.code.At ip (.op .pop line ++ Stmt.drops ds.length line) := hAt
    refine hm.pop hAt'.left fun m' hm' => ih hm' hAt'.right fun m'' hm'' => ?_
    have hNext := k m'' hm''
    rwa [Nat.add_comm ds.length, ← Nat.add_assoc] at hNext

end Machine.Runs

/-- A declared variable takes the value on top of the stack. -/
theorem Scope.follows_define {k : List Const} {name : String} {d : Datum} (hm : m.Runs c sc s [d])
    (hp : sc.pool k name <+: c.routine.pool) (hAt : c.routine.code.At ip (sc.define k name line)) :
    Follows u clock (c.Lands (sc.declare name) (ip + (sc.define k name line).size) fun _ => []) m
      (c.frame ip) (Eval.declareVariable name d s) := by
  have hDepth : sc.depth = s.scopes.length := by rw [← hm.scope]; rfl
  cases hScopes : s.scopes with
  | nil =>
    have hZero : sc.depth = 0 := by rw [hDepth, hScopes]; rfl
    have hDeclare : Eval.declareVariable name d s =
        .ok () { s with globals := Function.update s.globals name (some d) } := by
      simp only [Eval.declareVariable, bind, EStateM.bind, get, getThe, MonadStateOf.get, EStateM.get,
        hScopes]
      rfl
    unfold Scope.define at hAt ⊢
    unfold Scope.pool at hp
    rw [if_pos hZero] at hAt hp ⊢
    rw [hDeclare, Scope.declare, if_pos hZero]
    exact hm.single.defineGlobal hAt
      (Const.getElem?_of_prefix hp (Const.getElem?_withName k name)) fun m' hm' => .ok ⟨rfl, hm'⟩
  | cons vs env =>
    have hPos : ¬ sc.depth = 0 := by rw [hDepth, hScopes]; exact Nat.succ_ne_zero _
    have hDeclare : Eval.declareVariable name d s =
        .ok () { s with scopes := ((name, d) :: vs) :: env } := by
      simp only [Eval.declareVariable, bind, EStateM.bind, get, getThe, MonadStateOf.get, EStateM.get,
        hScopes]
      rfl
    rw [hDeclare, Scope.define, if_neg hPos, Scope.declare, if_neg hPos]
    refine .ok ⟨rfl, ?_⟩
    exact {
      toMirrors := hm.toMirrors.congr rfl rfl rfl rfl rfl rfl rfl
      grown := hm.grown
      stack := by
        have hStack := hm.stack
        rw [hScopes] at hStack
        simpa [Environment.values] using hStack
      callers := hm.callers
      calls := hm.calls
      scope := by
        have hScope := hm.scope
        rw [hScopes] at hScope
        rw [← hScope]
        rfl }

end

section

variable {u : Setup} {c : Call u} {clock : Nat} {call : Datum → List Datum → Eval Datum}
  (hCall : Calls u clock call) {sc : Scope} {k : List Const} {m : Machine} {s : State} {ip line : Nat}

include hCall

theorem Variable.follows (v : Variable) (hProper : v.Proper) (hLegal : v.Legal sc k)
    (hl : sc.locals.length ≤ maxLocals) (hp : v.pool sc k <+: c.routine.pool)
    (hAt : c.routine.code.At ip (v.code sc k)) (hm : m.Runs c sc s []) :
    Follows u clock (c.Lands (sc.declare v.name) (ip + (v.code sc k).size) fun _ => []) m (c.frame ip)
      (v.exec call s) := by
  obtain ⟨-, hProper⟩ := hProper
  obtain ⟨-, hLegal⟩ := hLegal
  unfold Variable.pool at hp
  unfold Variable.code at hAt ⊢
  unfold Variable.exec
  cases hValue : v.value with
  | none =>
    rw [hValue] at hp hAt
    refine hm.pushes hAt.left (Instruction.fits_op _) (fun _ => rfl) .nil fun m' hm' => ?_
    refine (Scope.follows_define hm' hp hAt.right).lands ?_
    simp only [Code.size_append, Code.size_op, Nat.add_assoc]
  | some e =>
    rw [hValue] at hp hAt hProper hLegal
    refine (e.follows hCall hProper hLegal (sc.sees_declaring v.name) hl hp hAt.left hm).bind ?_
    rintro d s' m' _ ⟨rfl, hm'⟩
    refine (Scope.follows_define hm' ((e.prefix_pool _ _).trans hp) hAt.right).lands ?_
    rw [Code.size_append, Nat.add_assoc]

theorem Expr.follows_pop (e : Expr) (hProper : e.Proper) (hLegal : e.Legal sc.locals k)
    (hl : sc.locals.length ≤ maxLocals) (hp : e.pool sc.locals k <+: c.routine.pool)
    (hAt : c.routine.code.At ip (e.code sc.locals k ++ .op .pop line)) (hm : m.Runs c sc s []) :
    Follows u clock (c.Lands sc (ip + (e.code sc.locals k ++ .op .pop line).size) fun _ => []) m
      (c.frame ip) (Expr.perform call (some e) s) := by
  refine (e.follows hCall hProper hLegal (fun _ _ => rfl) hl hp hAt.left hm).bind ?_
  rintro d s' m' _ ⟨rfl, hm'⟩
  refine hm'.single.pop hAt.right fun m'' hm'' => .ok ⟨?_, hm''⟩
  rw [Code.size_append, Code.size_op, Nat.add_assoc]
  rfl

theorem Initializer.follows (first : Initializer) (hProper : first.Proper) (hLegal : first.Legal sc k)
    (hl : sc.locals.length ≤ maxLocals) (hp : first.pool sc k <+: c.routine.pool)
    (hAt : c.routine.code.At ip (first.code sc k)) (hm : m.Runs c sc s []) :
    Follows u clock (c.Lands (first.scope sc) (ip + (first.code sc k).size) fun _ => []) m (c.frame ip)
      (first.exec call s) := by
  cases first with
  | none => exact .ok ⟨rfl, hm⟩
  | var v => exact v.follows hCall hProper hLegal hl hp hAt hm
  | expression e line => exact e.follows_pop hCall hProper hLegal hl hp hAt hm

end

/-! ## Loops -/

section

variable {u : Setup} {c : Call u} {clock : Nat} {call : Datum → List Datum → Eval Datum} {sc : Scope}
  {condition increment : Option Expr} {test step : Expr → Code} {body : Eval Completion} {inside : Code}
  {line line' bodyLine : Nat} {ip : Nat}

theorem Stmt.size_loopCode (condition : Option Code) (increment : Option (Code × Nat)) (body : Code)
    (line line' bodyLine : Nat) :
    (Stmt.loopCode condition line increment line' body bodyLine).size = Stmt.testSize condition +
      (Stmt.stepCode (Stmt.testSize condition) line line' increment).size + body.size + 3 +
      if condition.isSome then 1 else 0 := by
  unfold Stmt.loopCode
  cases condition <;> simp [Stmt.size_testCode, Opcode.operandSize, Nat.add_assoc]

/-- The condition of a loop leads to the rest of the round, or behind the loop. -/
theorem Stmt.follows_test
    (hTest : ∀ e, condition = some e → ∀ ip m s, c.routine.code.At ip (test e) → m.Runs c sc s [] →
      Follows u clock (c.Lands sc (ip + (test e).size) fun d => [d]) m (c.frame ip) (e.eval call s))
    (hFits : Stmt.LoopFits (condition.map test) (increment.map fun e => (step e, e.endLine)) inside)
    (hAt : c.routine.code.At ip (Stmt.loopCode (condition.map test) line
      (increment.map fun e => (step e, e.endLine)) line' inside bodyLine))
    {m : Machine} {s : State} (hm : m.Runs c sc s []) :
    Follows u clock (fun go s' m' frame => m'.Runs c sc s' [] ∧ frame = c.frame (if go then
      ip + Stmt.testSize (condition.map test) else ip + (Stmt.loopCode (condition.map test) line
        (increment.map fun e => (step e, e.endLine)) line' inside bodyLine).size)) m (c.frame ip)
      (Expr.holds call condition s) := by
  cases condition with
  | none => exact .ok ⟨hm, rfl⟩
  | some e =>
    rw [Option.map_some] at hFits hAt ⊢
    have hExit := hFits.exit rfl
    rw [Stmt.size_stepCode _ _ _ line line'] at hExit
    rw [Stmt.size_loopCode]
    unfold Stmt.loopCode at hAt
    have hTestCode := hAt.left.left.left.left
    refine (hTest e rfl ip m s hTestCode.left.left hm).bind ?_
    rintro d s' m' _ ⟨rfl, hm'⟩
    refine hm'.single.jumpIfFalse hTestCode.left.right (by omega) ?_
    cases d.isFalsey with
    | true =>
      refine hm'.single.pop (hAt.right.of_eq ?_) fun m'' hm'' => .ok ⟨hm'', ?_⟩
      · simp only [Code.size_append, Code.size_one, Opcode.operandSize, Stmt.size_testCode, Stmt.testSize,
          if_true]
        omega
      · have hEnd (t s b : Nat) : ip + t + 3 + (s + b + 3 + 1) + 1 = ip + (t + 4 + s + b + 3 + 1) := by omega
        exact congrArg c.frame (hEnd ..)
    | false =>
      refine hm'.single.pop (hTestCode.right.of_eq ?_) fun m'' hm'' => .ok ⟨hm'', ?_⟩
      · simp only [Code.size_append, Code.size_one, Opcode.operandSize, Bool.false_eq_true, if_false]
        omega
      · simp only [Stmt.testSize, Bool.not_false, Bool.false_eq_true, if_true, if_false]
        congr 1

/-- The way from the end of the body back to the condition, through the increment. It takes a unit of the
clock. -/
theorem Stmt.follows_back {n : Nat} (hn : n ≤ clock)
    (hStep : ∀ e, increment = some e → ∀ ip m s, c.routine.code.At ip (step e) → m.Runs c sc s [] →
      Follows u clock (c.Lands sc (ip + (step e).size) fun d => [d]) m (c.frame ip) (e.eval call s))
    (hFits : Stmt.LoopFits (condition.map test) (increment.map fun e => (step e, e.endLine)) inside)
    (hAt : c.routine.code.At ip (Stmt.loopCode (condition.map test) line
      (increment.map fun e => (step e, e.endLine)) line' inside bodyLine))
    {m : Machine} {s : State} (hm : m.Runs c sc s []) {x : Eval Completion}
    {Q : Completion → State → Machine → Frame → Prop}
    (k : ∀ m' s', m'.Runs c sc s' [] → Follows u n Q m' (c.frame ip) (x s')) :
    Follows u (n + 1) Q m (c.frame (ip + (Stmt.testSize (condition.map test) +
      (Stmt.stepCode (Stmt.testSize (condition.map test)) line line'
        (increment.map fun e => (step e, e.endLine))).size + inside.size)))
      ((Expr.perform call increment >>= fun _ => x) s) := by
  unfold Stmt.loopCode at hAt
  have hLoopCode := hAt.left.right
  have hStepCode := hAt.left.left.left.right
  have hBack := hFits.back
  simp only [Code.size_append, Stmt.size_testCode] at hLoopCode hStepCode
  cases increment with
  | none =>
    rw [Option.map_none] at hBack hLoopCode ⊢
    simp only [Stmt.backDistance, Stmt.stepCode, Code.size_nil] at hBack hLoopCode ⊢
    refine hm.loop (hLoopCode.of_eq (by omega)) hBack (by omega) ?_
    have hIp : ip + (Stmt.testSize (condition.map test) + 0 + inside.size) + 3 -
        (Stmt.testSize (condition.map test) + inside.size + 3) = ip := by omega
    rw [hIp]
    exact k m s hm
  | some e =>
    rw [Option.map_some] at hBack hLoopCode hStepCode ⊢
    have hDistance := hFits.step (step e) e.endLine rfl
    unfold Stmt.stepCode at hLoopCode hStepCode ⊢
    simp only [Stmt.backDistance, Code.size_append, Code.size_one, Code.size_op,
      Opcode.operandSize] at hBack hLoopCode ⊢
    refine hm.loop (hLoopCode.of_eq (by omega)) hBack (by omega) ?_
    have hIp : ip + (Stmt.testSize (condition.map test) + (1 + 2 + (step e).size + (1 + 0) + (1 + 2)) +
        inside.size) + 3 - ((step e).size + inside.size + 7) =
        ip + Stmt.testSize (condition.map test) + 3 := by omega
    rw [hIp]
    refine Follows.bind (Q := c.Lands sc (ip + Stmt.testSize (condition.map test) + 3 +
      ((step e).size + 1)) fun _ => []) ?_ ?_
    · refine ((hStep e rfl _ m s hStepCode.left.left.right hm).mono hn).bind ?_
      rintro d s' m' _ ⟨rfl, hm'⟩
      refine hm'.single.pop (hStepCode.left.right.of_eq ?_) fun m'' hm'' =>
        .ok ⟨?_, hm''⟩
      · simp only [Code.size_append, Code.size_one, Opcode.operandSize]
        omega
      · rw [Nat.add_assoc _ (step e).size]
        rfl
    · rintro _ s' m' _ ⟨rfl, hm'⟩
      refine (hm'.loop (hStepCode.right.of_eq ?_) hDistance (by omega) ?_).mono (Nat.le_succ n)
      · simp only [Code.size_append, Code.size_one, Code.size_op, Opcode.operandSize]
        omega
      · have hIp : ip + Stmt.testSize (condition.map test) + 3 + ((step e).size + 1) + 3 -
            (Stmt.testSize (condition.map test) + (step e).size + 7) = ip := by omega
        rw [hIp]
        exact k m' s' hm'

/-- A loop follows its rounds: the induction is on their number, and each takes a step of the run. -/
theorem Stmt.follows_rounds (call : Datum → List Datum → Eval Datum) (condition increment : Option Expr)
    (test step : Expr → Code) (body : Eval Completion)
    (hTest : ∀ e, condition = some e → ∀ ip m s, c.routine.code.At ip (test e) → m.Runs c sc s [] →
      Follows u clock (c.Lands sc (ip + (test e).size) fun d => [d]) m (c.frame ip) (e.eval call s))
    (hStep : ∀ e, increment = some e → ∀ ip m s, c.routine.code.At ip (step e) → m.Runs c sc s [] →
      Follows u clock (c.Lands sc (ip + (step e).size) fun d => [d]) m (c.frame ip) (e.eval call s))
    (hBody : ∀ ip m s, c.routine.code.At ip inside → m.Runs c sc s [] →
      Follows u clock (c.Ends sc (ip + inside.size)) m (c.frame ip) (body s))
    (hFits : Stmt.LoopFits (condition.map test) (increment.map fun e => (step e, e.endLine)) inside)
    (hAt : c.routine.code.At ip (Stmt.loopCode (condition.map test) line
      (increment.map fun e => (step e, e.endLine)) line' inside bodyLine)) :
    ∀ n ≤ clock, ∀ (m : Machine) (s : State), m.Runs c sc s [] →
      Follows u n (c.Ends sc (ip + (Stmt.loopCode (condition.map test) line
        (increment.map fun e => (step e, e.endLine)) line' inside bodyLine).size)) m (c.frame ip)
        (Eval.rounds (Expr.holds call condition) body (Expr.perform call increment) n s) := by
  intro n
  induction n with
  | zero => exact fun _ _ _ _ => trivial
  | succ n ih =>
    intro hn m s hm
    refine ((Stmt.follows_test hTest hFits hAt hm).mono hn).bind ?_
    rintro (_ | _) s' m' _ ⟨hm', rfl⟩
    · exact .ok ⟨rfl, hm'⟩
    · have hAt' := hAt
      unfold Stmt.loopCode at hAt'
      have hStepCode := hAt'.left.left.left.right
      have hBodyCode := hAt'.left.left.right
      simp only [Code.size_append, Stmt.size_testCode] at hBodyCode hStepCode
      -- a jump leads over the increment, if there is one
      have hInside : Follows u (n + 1) (c.Ends sc (ip + (Stmt.loopCode (condition.map test) line
          (increment.map fun e => (step e, e.endLine)) line' inside bodyLine).size)) m'
          (c.frame (ip + (Stmt.testSize (condition.map test) + (Stmt.stepCode
            (Stmt.testSize (condition.map test)) line line'
            (increment.map fun e => (step e, e.endLine))).size)))
          (Eval.andThen body (Expr.perform call increment >>= fun _ =>
            Eval.rounds (Expr.holds call condition) body (Expr.perform call increment) n) s') := by
        refine ((hBody _ m' s' hBodyCode hm').mono hn).andThen fun s'' m'' hm'' => ?_
        rw [Nat.add_assoc]
        exact Stmt.follows_back (Nat.le_of_succ_le hn) hStep hFits hAt hm'' fun m₁ s₁ hm₁ =>
          ih (Nat.le_of_succ_le hn) m₁ s₁ hm₁
      cases increment with
      | none => exact hInside
      | some e =>
        have hDistance := hFits.step (step e) e.endLine rfl
        have hIp : ip + Stmt.testSize (condition.map test) + 3 + ((step e).size + 4) =
            ip + (Stmt.testSize (condition.map test) + (Stmt.stepCode (Stmt.testSize (condition.map test))
              line line' (some (step e, e.endLine))).size) := by
          simp only [Stmt.stepCode, Code.size_append, Code.size_one, Code.size_op, Opcode.operandSize]
          omega
        refine hm'.jump hStepCode.left.left.left (by omega) ?_
        change Follows u (n + 1) _ m'
          (c.frame (ip + Stmt.testSize (condition.map test) + 3 + ((step e).size + 4))) _
        rw [hIp]
        exact hInside

end

/-! ## Statements -/

section

variable {u : Setup} {c : Call u} {clock : Nat} {sc : Scope} {m : Machine} {s : State} {ip line : Nat}

/-- At the end of a scope its variables are dropped. -/
theorem Stmt.follows_leaving {env : Environment} {inner : Scope} {locals : List Local} {count : Nat}
    (hm : m.Runs c inner s []) (hsc : env.scope = sc) (hLocals : inner.locals = locals ++ sc.locals)
    (hDepth : inner.depth = sc.depth + 1) (hInner : ∀ l ∈ locals, sc.depth < l.depth)
    (hCount : locals.length = count) (hAt : c.routine.code.At ip (Stmt.drops count line)) :
    Follows u clock (c.Ends sc (ip + (Stmt.drops count line).size)) m (c.frame ip) (Eval.leaving s) := by
  subst hsc
  obtain ⟨vs, env₁, hScopes, hScope, hLength⟩ := Environment.scope_tail hm.scope hLocals hDepth hInner
  have hCount' : count = (vs.map Prod.snd).reverse.length := by
    rw [List.length_reverse, List.length_map, hLength, hCount]
  have hLeft := hm.leave hScopes hScope
  subst hCount'
  refine hLeft.drops hAt fun m' hm' => .ok ⟨?_, ?_⟩
  · have hSize (n : Nat) : (Stmt.drops n line).size = n := by
      simp [Stmt.drops, Code.size, Instruction.size, Opcode.operandSize]
    rw [hSize]
  · have hTail : s.scopes.tail = env₁ := by rw [hScopes]; rfl
    rw [← hTail] at hm'
    exact hm'

end

section

variable {u : Setup} {c : Call u} {clock : Nat} {call : Datum → List Datum → Eval Datum}

mutual

theorem Stmt.follows (hCall : Calls u clock call) : ∀ (st : Stmt) {inFunction : Bool} {sc : Scope}
    {k : List Const} {ip : Nat} {m : Machine} {s : State}, st.Proper → st.Legal inFunction sc k →
    sc.locals.length ≤ maxLocals → st.pool sc k <+: c.routine.pool →
    c.routine.code.At ip (st.code sc k) → m.Runs c sc s [] →
    Follows u clock (c.Ends (st.scope sc) (ip + (st.code sc k).size)) m (c.frame ip)
      (st.exec call clock s)
  | .expression e line, _, sc, k, ip, m, s, hProper, hLegal, hl, hp, hAt, hm => by
    refine (e.follows hCall hProper hLegal (fun _ _ => rfl) hl hp hAt.left hm).bind ?_
    rintro d s' m' _ ⟨rfl, hm'⟩
    refine hm'.single.pop hAt.right fun m'' hm'' => .ok ⟨?_, hm''⟩
    rw [code, Code.size_append, Nat.add_assoc]
    rfl
  | .print e line, _, sc, k, ip, m, s, hProper, hLegal, hl, hp, hAt, hm => by
    refine (e.follows hCall hProper hLegal (fun _ _ => rfl) hl hp hAt.left hm).bind ?_
    rintro d s' m' _ ⟨rfl, hm'⟩
    refine hm'.single.print hAt.right fun m'' hm'' => .ok ⟨?_, hm''⟩
    rw [code, Code.size_append, Nat.add_assoc]
    rfl
  | .var v, _, sc, k, ip, m, s, hProper, hLegal, hl, hp, hAt, hm => by
    refine (v.follows hCall hProper hLegal hl hp hAt hm).bind ?_
    rintro _ s' m' _ ⟨rfl, hm'⟩
    exact .ok ⟨rfl, hm'⟩
  | .function place name parameters body line, _, sc, k, ip, m, s, hProper, hLegal, hl, hp, hAt, hm => by
    rw [code] at hAt ⊢
    refine hm.constant hAt.left (Const.getElem?_of_prefix hp (List.getElem?_concat_length ..))
      fun m' hm' => ?_
    refine (Scope.follows_define hm' ((List.prefix_append ..).trans hp) hAt.right).bind ?_
    rintro _ s' m' _ ⟨rfl, hm'⟩
    refine .ok ⟨?_, hm'⟩
    rw [Code.size_append, ← Nat.add_assoc]
  | .block body line, _, sc, k, ip, m, s, hProper, hLegal, hl, hp, hAt, hm => by
    obtain ⟨inner, hLocals, hDepth, hInner, hCount⟩ :=
      Stmt.scopeOfAll_locals body sc.enter (Nat.succ_ne_zero _)
    rw [code] at hAt ⊢
    have hBody := Stmt.followsAll hCall body hProper hLegal hl hp hAt.left hm.enter
    refine hBody.andThen fun s' m' hm' => ?_
    refine (Stmt.follows_leaving hm' hm.scope hLocals hDepth (fun l hl => ?_) hCount hAt.right).ends ?_
    · rw [hInner l hl]
      exact Nat.lt_succ_self _
    · rw [Code.size_append, Nat.add_assoc]
  | .ifThen condition line body, _, sc, k, ip, m, s, ⟨hProper, hProper', hDeclares⟩,
      ⟨hLegal, hLegal', hd⟩, hl, hp, hAt, hm => by
    have hPool := (body.prefix_pool sc (condition.pool sc.locals k)).trans hp
    have hBody {ip : Nat} {m : Machine} {s : State} (hAt : c.routine.code.At ip _)
        (hm : m.Runs c sc s []) := body.follows hCall hProper' hLegal' hl hp hAt hm
    rw [Stmt.scope_of_declares hDeclares] at hBody
    rw [code] at hAt ⊢
    refine (condition.follows hCall hProper hLegal (fun _ _ => rfl) hl hPool
      hAt.left.left.left.left.left hm).bind ?_
    rintro d s' m' _ ⟨rfl, hm'⟩
    refine hm'.single.jumpIfFalse hAt.left.left.left.left.right hd ?_
    cases d.isFalsey with
    | true =>
      refine hm'.single.pop (hAt.right.of_eq ?_) fun m'' hm'' =>
        .ok ⟨congrArg c.frame ?_, hm''⟩
      all_goals
        simp only [Code.size_append, Code.size_one, Code.size_op, Opcode.operandSize, if_true]
        omega
    | false =>
      refine hm'.single.pop (hAt.left.left.left.right.of_eq ?_) fun m'' hm'' =>
        (hBody (hAt.left.left.right.of_eq ?_) hm'').closing fun s₁ m₁ hm₁ =>
        hm₁.jump (hAt.left.right.of_eq ?_) (by decide) (.ok ⟨congrArg c.frame ?_, hm₁⟩)
      all_goals
        simp only [Code.size_append, Code.size_one, Code.size_op, Opcode.operandSize,
          Bool.false_eq_true, if_false]
        omega
  | .ifElse condition line body other, _, sc, k, ip, m, s, ⟨hProper, ⟨hProper', hDeclares⟩, hOther,
      hDeclares'⟩, ⟨hLegal, hLegal', hLegal'', hd, hd'⟩, hl, hp, hAt, hm => by
    have hPool := (other.prefix_pool sc _).trans hp
    have hPool' := (body.prefix_pool sc _).trans hPool
    have hBody {ip : Nat} {m : Machine} {s : State} (hAt : c.routine.code.At ip _)
        (hm : m.Runs c sc s []) := body.follows hCall hProper' hLegal' hl hPool hAt hm
    have hElse {ip : Nat} {m : Machine} {s : State} (hAt : c.routine.code.At ip _)
        (hm : m.Runs c sc s []) := other.follows hCall hOther hLegal'' hl hp hAt hm
    rw [Stmt.scope_of_declares hDeclares] at hBody
    rw [Stmt.scope_of_declares hDeclares'] at hElse
    rw [code] at hAt ⊢
    refine (condition.follows hCall hProper hLegal (fun _ _ => rfl) hl hPool'
      hAt.left.left.left.left.left.left hm).bind ?_
    rintro d s' m' _ ⟨rfl, hm'⟩
    refine hm'.single.jumpIfFalse hAt.left.left.left.left.left.right hd ?_
    cases d.isFalsey with
    | true =>
      refine hm'.single.pop (hAt.left.right.of_eq ?_) fun m'' hm'' =>
        (hElse (hAt.right.of_eq ?_) hm'').ends ?_
      all_goals
        simp only [Code.size_append, Code.size_one, Code.size_op, Opcode.operandSize, if_true]
        omega
    | false =>
      refine hm'.single.pop (hAt.left.left.left.left.right.of_eq ?_) fun m'' hm'' =>
        (hBody (hAt.left.left.left.right.of_eq ?_) hm'').closing fun s₁ m₁ hm₁ =>
        hm₁.jump (hAt.left.left.right.of_eq ?_) hd' (.ok ⟨congrArg c.frame ?_, hm₁⟩)
      all_goals
        simp only [Code.size_append, Code.size_one, Code.size_op, Opcode.operandSize,
          Bool.false_eq_true, if_false]
        omega
  | .whileLoop condition line body, _, sc, k, ip, m, s, ⟨hProper, hProper', hDeclares⟩,
      ⟨hLegal, hLegal', hd⟩, hl, hp, hAt, hm => by
    have hPool := (body.prefix_pool sc (condition.pool sc.locals k)).trans hp
    rw [Stmt.code_whileLoop] at hAt ⊢
    refine Stmt.follows_rounds call (some condition) none (fun e => e.code sc.locals k) (fun _ => [])
      (body.exec call clock) ?_ nofun ?_ (Stmt.loopFits_while hd) hAt clock le_rfl m s hm
    · rintro e ⟨⟩ ip m s hAt hm
      exact condition.follows hCall hProper hLegal (fun _ _ => rfl) hl hPool hAt hm
    · intro ip m s hAt hm
      have hBody := body.follows hCall hProper' hLegal' hl hp hAt hm
      rwa [Stmt.scope_of_declares hDeclares] at hBody
  | .forLoop first condition line increment line' body, _, sc, k, ip, m, s,
      ⟨hProper, hProper₁, hProper₂, hProper', hDeclares⟩, ⟨hLegal, hLegal₁, hLegal₂, hLegal', hFits⟩, hl, hp,
      hAt, hm => by
    have hPool := (body.prefix_pool _ _).trans hp
    have hPool' := (Expr.prefix_pool? _ _ increment).trans hPool
    have hl' : (first.scope sc.enter).locals.length ≤ maxLocals := Initializer.length_scope hLegal hl
    obtain ⟨inner, hLocals, hDepth, hInner, hCount⟩ := first.scope_enter sc
    rw [code] at hAt ⊢
    refine (first.follows hCall hProper hLegal hl ((Expr.prefix_pool? _ _ condition).trans hPool')
      hAt.left.left hm.enter).bind ?_
    rintro _ s' m' _ ⟨rfl, hm'⟩
    have hLoop := Stmt.follows_rounds call condition increment
      (fun e => e.code (first.scope sc.enter).locals (first.pool sc.enter k))
      (fun e => e.code (first.scope sc.enter).locals
        (Expr.pool? (first.scope sc.enter).locals (first.pool sc.enter k) condition))
      (body.exec call clock) (fun e he ip m s hCode hm => ?_) (fun e he ip m s hCode hm => ?_)
      (fun ip m s hCode hm => ?_) hFits hAt.left.right clock le_rfl m' s' hm'
    · refine hLoop.andThen fun s'' m'' hm'' => ?_
      refine (Stmt.follows_leaving hm'' hm.scope hLocals hDepth hInner hCount
        (hAt.right.of_eq ?_)).ends ?_
      · rw [Code.size_append, Nat.add_assoc]
      · simp only [Code.size_append, Nat.add_assoc]
    · subst he
      exact e.follows hCall hProper₁ hLegal₁ (fun _ _ => rfl) hl' hPool' hCode hm
    · subst he
      exact e.follows hCall hProper₂ hLegal₂ (fun _ _ => rfl) hl' hPool hCode hm
    · have hBody := body.follows hCall hProper' hLegal' hl' hp hCode hm
      rwa [Stmt.scope_of_declares hDeclares] at hBody
  | .ret none line, _, sc, k, ip, m, s, _, _, _, _, hAt, hm =>
    hm.pushes hAt.left (Instruction.fits_op _) (fun _ => rfl) .nil fun m' hm' =>
      .ok ⟨_, line, sc, hAt.right, rfl, hm'⟩
  | .ret (some e) line, _, sc, k, ip, m, s, hProper, hLegal, hl, hp, hAt, hm => by
    refine (e.follows hCall hProper hLegal.2 (fun _ _ => rfl) hl hp hAt.left hm).bind ?_
    rintro d s' m' _ ⟨rfl, hm'⟩
    exact .ok ⟨_, line, sc, hAt.right, rfl, hm'⟩

theorem Stmt.followsAll (hCall : Calls u clock call) : ∀ (ss : List Stmt) {inFunction : Bool} {sc : Scope}
    {k : List Const} {ip : Nat} {m : Machine} {s : State}, Stmt.ProperList ss →
    Stmt.LegalList inFunction sc k ss → sc.locals.length ≤ maxLocals →
    Stmt.poolOfAll sc k ss <+: c.routine.pool → c.routine.code.At ip (Stmt.codeOfAll sc k ss) →
    m.Runs c sc s [] →
    Follows u clock (c.Ends (Stmt.scopeOfAll sc ss) (ip + (Stmt.codeOfAll sc k ss).size)) m (c.frame ip)
      (Stmt.execAll call clock ss s)
  | [], _, _, _, _, _, _, _, _, _, _, _, hm => .ok ⟨rfl, hm⟩
  | st :: ss, _, sc, k, ip, m, s, ⟨hProper, hProper'⟩, ⟨hLegal, hLegal'⟩, hl, hp, hAt, hm => by
    have hPool := (Stmt.prefix_poolOfAll ss (st.scope sc) (st.pool sc k)).trans hp
    rw [codeOfAll] at hAt ⊢
    refine (st.follows hCall hProper hLegal hl hPool hAt.left hm).andThen fun s' m' hm' => ?_
    refine (Stmt.followsAll hCall ss hProper' hLegal' (Stmt.length_scope hLegal hl) hp hAt.right hm').ends ?_
    rw [Code.size_append, Nat.add_assoc]

end

end

/-! ## Calls -/

section

variable {u : Setup} {c : Call u} {clock : Nat} {call : Datum → List Datum → Eval Datum} {sc : Scope}
  {m : Machine} {s : State} {ds args : List Datum} {ip line : Nat}

/-- The declarations of a function run to their end. -/
theorem Call.follows_declarations (hCall : Calls u clock call) (hm : m.Runs c c.routine.scope s []) :
    Follows u clock (c.Ends (Stmt.scopeOfAll c.routine.scope c.routine.body)
      (0 + (Stmt.codeOfAll c.routine.scope [] c.routine.body).size)) m (c.frame 0)
      (Stmt.execAll call clock c.routine.body s) := by
  have hWhole : c.routine.code.At 0 c.routine.code := ⟨[], [], by simp, rfl⟩
  exact Stmt.followsAll hCall c.routine.body c.proper.body c.legal.body
    (Routine.length_scope_le c.legal c.proper) (List.prefix_refl _) hWhole.left.left hm

/-- Declarations that end normally leave the calls in progress and the open scopes as they were. -/
theorem Call.state_of_normal (hCall : Calls u clock call) (hm : m.Runs c c.routine.scope s []) {s' : State}
    (hEnd : Stmt.execAll call clock c.routine.body s = .ok .normal s') :
    s'.calls = s.calls ∧ s'.scopes.length = s.scopes.length := by
  have hBody := Call.follows_declarations hCall hm
  rw [hEnd] at hBody
  obtain ⟨m', frame, -, hm'⟩ := Reaches.exists hBody
  refine ⟨hm'.calls.trans hm.calls.symm, ?_⟩
  calc s'.scopes.length = (Stmt.scopeOfAll c.routine.scope c.routine.body).depth :=
        congrArg Scope.depth hm'.scope
    _ = c.routine.scope.depth := Stmt.depth_scopeOfAll _ _
    _ = s.scopes.length := congrArg Scope.depth hm.scope.symm

/-- The body of a function runs to a return. -/
theorem Call.follows_body (hCall : Calls u clock call) (hm : m.Runs c c.routine.scope s []) :
    Follows u clock (fun completion s' m' frame => ∃ ip' line sc', c.routine.code.At ip' (.op .ret line) ∧
      frame = c.frame ip' ∧ m'.Runs c sc' s' [completion.result]) m (c.frame 0)
      (Stmt.execAll call clock c.routine.body s) := by
  have hWhole : c.routine.code.At 0 c.routine.code := ⟨[], [], by simp, rfl⟩
  have hBody := Call.follows_declarations hCall hm
  generalize Stmt.execAll call clock c.routine.body s = r at hBody
  cases r with
  | ok completion s' =>
    refine Follows.of_reaches hBody ?_
    cases completion with
    | normal =>
      rintro m' _ ⟨rfl, hm'⟩
      have hRet := hWhole.right
      rw [Code.size_append, Code.size_op, ← Nat.add_assoc] at hRet
      exact hm'.pushes hWhole.left.right (Instruction.fits_op _) (fun _ => rfl) .nil
        fun m'' hm'' => .ok ⟨_, _, _, hRet, rfl, hm''⟩
    | returned d => exact fun m' frame hEnds => .ok hEnds
  | error stop s' => cases stop <;> exact hBody

/-- A function is called. -/
theorem Machine.Runs.call_function (hCall : Lox.Calls u clock call) {r : Routine}
    (hm : m.Runs c sc s (ds ++ .function r :: args))
    (hAt : c.routine.code.At ip (.one .call args.length line)) (hFits : args.length < 256)
    (hArity : args.length = r.parameters.length) :
    Follows u (clock + 1) (c.Lands sc (ip + 2) fun d => ds ++ [d]) m (c.frame ip)
      (Eval.inCall r.name (r.scopes args) (Stmt.execAll call clock r.body) s) := by
  rw [Eval.inCall_eq]
  split
  · rename_i hLive
    obtain ⟨v, hv, hLike⟩ := hm.peek
    have hStep := hm.step hAt hFits
    cases hLike with
    | @function f _ hc =>
      obtain ⟨-, -, hArity', -⟩ := hc
      have hFrames : maxFrames ≤ m.callers.length + 1 := by
        rw [hm.calls, Call.names, List.length_map, List.length_cons, ← hm.callers] at hLive
        exact hLive
      simp only [execute, Machine.call, hv] at hStep
      rw [if_neg (not_not.2 (hArity.trans hArity'.symm)), if_pos hFrames] at hStep
      exact .fail (hm.fails rfl hStep hm.toMirrors rfl)
  · rename_i hLive
    obtain ⟨c', m', rfl, hBelow, hCallers, hGrown, hStep, hm'⟩ :=
      hm.enters hAt hFits hArity (Nat.not_le.1 hLive)
    refine .tick hStep ((Call.follows_body hCall hm').bind ?_)
    rintro completion s'' m'' _ ⟨ip', line', sc', hRet, rfl, hm''⟩
    exact hm''.returns hRet hCallers hBelow hGrown hm.calls hm.scope fun m₁ hm₁ => .ok ⟨rfl, hm₁⟩

/-- A native function is called. -/
theorem Machine.Runs.call_native {n : Native} (hm : m.Runs c sc s (ds ++ .native n :: args))
    (hAt : c.routine.code.At ip (.one .call args.length line)) (hFits : args.length < 256) :
    Follows u clock (c.Lands sc (ip + 2) fun d => ds ++ [d]) m (c.frame ip)
      ((if args.length ≠ n.arity then Eval.fail (.wrongArity n.arity args.length)
        else pure (u.host n args) : Eval Datum) s) := by
  obtain ⟨v, hv, hLike⟩ := hm.peek
  have hStep := hm.step hAt hFits
  cases hLike with
  | native hn =>
    simp only [execute, Machine.call, hv] at hStep
    split at hStep
    · rename_i hArity
      rw [if_pos hArity]
      exact .fail (hm.fails rfl hStep hm.toMirrors rfl)
    · rename_i hArity
      rw [if_neg hArity]
      have hStack : List.Forall₂ (u.world m.heap).Like m.stack.toList
          ((c.below ++ .function c.routine :: (s.scopes.values ++ (ds ++ [.native n]))) ++ args) := by
        simpa using hm.stack
      have hSize : m.stack.size - args.length = (c.below ++ Datum.function c.routine ::
          (s.scopes.values ++ (ds ++ [Datum.native n]))).length := by
        rw [← Array.length_toList, hStack.length_eq, List.length_append, Nat.add_sub_cancel]
      have hArguments := List.forall₂_drop_append _ _ _ hStack
      rw [← hSize] at hArguments
      have hLike := hm.natives m.heap hm.wf (.refl _) n
        (m.stack.extract (m.stack.size - args.length) m.stack.size) args hn
        (by
          rw [Array.size_extract]
          have hLess : args.length ≤ m.stack.size := by
            rw [← Array.length_toList, hStack.length_eq, List.length_append]
            exact Nat.le_add_left ..
          have hArity := not_not.1 hArity
          omega)
        (by
          rw [Array.toList_extract, List.extract_eq_take_drop, List.take_of_length_le (by simp)]
          exact hArguments)
      exact .next hStep (.ok ⟨rfl, hm.drop.push hLike⟩)

end

/-- Calls follow the evaluator, whatever the clock. -/
theorem calls (u : Setup) : ∀ clock, Calls u clock (Datum.call u.host clock)
  | 0 => fun _ _ _ _ _ _ _ _ _ _ _ _ => trivial
  | clock + 1 => by
    intro c sc m s ds ip line f args hm hAt hFits
    have hRefused (hNone : ∀ v, (u.world m.heap).Like v f → ∀ frame,
        m.peek? args.length = some v → m.call frame args.length = .fail m frame .notCallable) :
        m.Fails u s .notCallable (c.frame ip) := by
      obtain ⟨v, hv, hLike⟩ := hm.peek
      exact hm.fails rfl ((hm.step hAt hFits).trans (hNone v hLike _ hv)) hm.toMirrors rfl
    cases f with
    | function r =>
      rw [Datum.call]
      split
      · rename_i hArity
        obtain ⟨v, hv, hLike⟩ := hm.peek
        have hStep := hm.step hAt hFits
        cases hLike with
        | @function f _ hc =>
          obtain ⟨-, -, hArity', -⟩ := hc
          simp only [execute, Machine.call, hv] at hStep
          rw [hArity', if_pos hArity] at hStep
          exact .fail (hm.fails rfl hStep hm.toMirrors rfl)
      · rename_i hArity
        exact hm.call_function (calls u clock) hAt hFits (not_not.1 hArity)
    | native n => exact hm.call_native hAt hFits
    | nil | bool | number | string =>
      refine .fail (hRefused fun v hLike frame hv => ?_)
      cases hLike
      simp only [Machine.call, hv]

end Lox
